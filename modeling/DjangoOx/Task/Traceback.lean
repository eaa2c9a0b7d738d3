import DjangoOx.Machine.Utf8
import DjangoOx.Task.Outcome
import Mathlib.Order.Lattice
import Mathlib.Algebra.Group.Nat.Defs

/-! `_stored_traceback`: what a failed attempt keeps of its traceback. -/
namespace DjangoOx

open Utf8

/-- A Python string: code points, lone surrogates among them, and no more than `sys.maxsize`. -/
structure PyString where
  points : List ℕ
  unicode : ∀ c ∈ points, c < 0x110000
  short : points.length < 2 ^ 63

/-- "surrogates not allowed", and where the first one is. -/
structure UnicodeEncodeError where
  start : ℕ
  deriving DecidableEq, Repr

/-- `MAX_STORED_TRACEBACK` -/
def maxStoredTraceback : ℕ := 16384

/-- `_TRACEBACK_HEAD` -/
def tracebackHead : ℕ := 4096

/-- `text.encode()` -/
def encoded (text : List ℕ) : Except UnicodeEncodeError (List ℕ) :=
  match text.findIdx? fun c => Surrogate c with
  | some i => .error ⟨i⟩
  | none => .ok (encode text)

/-- `_utf8_prefix` -/
def utf8Prefix (text : List ℕ) (limit : ℕ) : Except UnicodeEncodeError (List ℕ) := do
  let bytes ← encoded text
  return decodeIgnore (bytes.take limit)

/-- `_utf8_suffix` -/
def utf8Suffix (text : List ℕ) (limit : ℕ) : Except UnicodeEncodeError (List ℕ) :=
  if limit = 0 then .ok []
  else do
    let bytes ← encoded text
    return decodeIgnore (bytes.drop (bytes.length - limit))

def points (text : List Char) : List ℕ := text.map Char.toNat

/-- What stands in for the bytes that are not stored. -/
def droppedMarker (dropped : ℕ) : List ℕ :=
  points ("\n... ".toList ++ Nat.toDigits 10 dropped ++
    " bytes of this traceback were not stored (limit ".toList ++
    Nat.toDigits 10 maxStoredTraceback ++ ") ...\n".toList)

/-- `_stored_traceback`, of the text of `format_exception`. -/
def storedTraceback (text : PyString) : Except UnicodeEncodeError (List ℕ) := do
  let size := (← encoded text.points).length
  if size ≤ maxStoredTraceback then return text.points
  let marker := droppedMarker (size - maxStoredTraceback)
  let room := (← encoded marker).length
  if maxStoredTraceback ≤ room then utf8Prefix text.points maxStoredTraceback
  else
    let budget := maxStoredTraceback - room
    let head := min tracebackHead budget
    return (← utf8Prefix text.points head) ++ marker ++ (← utf8Suffix text.points (budget - head))

/-- `_handle_failure` up to its outcome write. -/
def failureRecord (b : Backoff) (held : OxTask) (exceptionClassPath : String) (text : PyString)
    (answer : Option BackoffAnswer) (release : Bool) (now : ℤ) :
    Except UnicodeEncodeError Outcome := do
  let stored ← storedTraceback text
  let exc := ⟨exceptionClassPath, String.ofList (stored.map Char.ofNat)⟩
  return handleFailure b held exc answer release now

/-- No lone surrogate is in the text. -/
def Encodable (text : List ℕ) : Prop := ∀ c ∈ text, ¬ Surrogate c

variable {text head tail : List ℕ}

theorem ok_bind {ε α β : Type} (a : α) (f : α → Except ε β) : (Except.ok a >>= f) = f a := rfl

theorem encoded_ok (h : Encodable text) : encoded text = .ok (encode text) := by
  have hnone : text.findIdx? (fun c => decide (Surrogate c)) = none := by
    rw [List.findIdx?_eq_none_iff]
    intro c hc
    exact decide_eq_false (h c hc)
  unfold encoded
  rw [hnone]

theorem encodable_of_ok {bytes : List ℕ} (h : encoded text = .ok bytes) : Encodable text := by
  unfold encoded at h
  split at h
  · cases h
  · next hnone =>
    intro c hc
    simpa using List.findIdx?_eq_none_iff.mp hnone c hc

theorem Encodable.append (hh : Encodable head) (ht : Encodable tail) :
    Encodable (head ++ tail) := by
  intro c hc
  rcases List.mem_append.mp hc with hc | hc
  · exact hh c hc
  · exact ht c hc

theorem encodable_of_ascii (h : ∀ c ∈ text, c < 0x80) : Encodable text := by
  intro c hc hs
  have := h c hc
  unfold Surrogate at hs
  omega

theorem ascii_digits (n : ℕ) : ∀ c ∈ points (Nat.toDigits 10 n), c < 0x80 := by
  intro c hc
  obtain ⟨d, hd, rfl⟩ := List.mem_map.mp hc
  have hdigit := Nat.isDigit_of_mem_toDigits (by decide) (by decide) hd
  simp only [Char.isDigit, Bool.and_eq_true, decide_eq_true_eq] at hdigit
  have hle : d.toNat ≤ 57 := hdigit.2
  omega

theorem ascii_droppedMarker (dropped : ℕ) : ∀ c ∈ droppedMarker dropped, c < 0x80 := by
  have htext : ∀ c ∈ points ("\n... ".toList ++
      " bytes of this traceback were not stored (limit ".toList ++ ") ...\n".toList), c < 0x80 := by
    decide
  unfold droppedMarker points
  unfold points at htext
  simp only [List.map_append, List.mem_append] at htext ⊢
  rintro c ((((hc | hc) | hc) | hc) | hc)
  · exact htext c (.inl (.inl hc))
  · exact ascii_digits _ c hc
  · exact htext c (.inl (.inr hc))
  · exact ascii_digits _ c hc
  · exact htext c (.inr hc)

/-- As many digits as a size can have leave the marker far under the bound. -/
theorem length_droppedMarker {dropped : ℕ} (h : dropped < 10 ^ 20) :
    (droppedMarker dropped).length ≤ 100 := by
  have hdigits := (Nat.length_toDigits_le_iff (b := 10) (k := 20) (by decide) (by decide)).mpr h
  have hlimit : (Nat.toDigits 10 maxStoredTraceback).length = 5 := by decide
  have htexts : "\n... ".toList.length = 5 ∧
      " bytes of this traceback were not stored (limit ".toList.length = 48 ∧
      ") ...\n".toList.length = 6 := by decide
  unfold droppedMarker points
  simp only [List.length_map, List.length_append, htexts, hlimit]
  omega

/-- What a text may be stored as. -/
structure StoredAs (text stored : List ℕ) : Prop where
  bounded : ∃ bytes, encoded stored = .ok bytes ∧ bytes.length ≤ maxStoredTraceback
  whole : (encode text).length ≤ maxStoredTraceback → stored = text
  cut : maxStoredTraceback < (encode text).length → ∃ head mid tail, text = head ++ mid ++ tail ∧
    stored = head ++ droppedMarker ((encode text).length - maxStoredTraceback) ++ tail

/-- A beginning and an end of a text that together have fewer bytes than it do not overlap. -/
theorem exists_between {r q : List ℕ} (hh : text = head ++ r) (ht : text = q ++ tail)
    (hlt : (encode head).length + (encode tail).length < (encode text).length) :
    ∃ mid, text = head ++ mid ++ tail := by
  rcases List.append_eq_append_iff.mp (hh.symm.trans ht) with ⟨mid, rfl, -⟩ | ⟨shared, rfl, -⟩
  · exact ⟨mid, ht⟩
  · have hlen := congrArg (fun t => (encode t).length) ht
    simp only [encode_append, List.length_append] at hlen hlt
    omega

/-- The two ends of an oversized text, with the marker between them. -/
theorem storedAs_cut (hu : ∀ c ∈ text, Scalar c) {limit : ℕ}
    (hsize : maxStoredTraceback < (encode text).length) (hhead : tracebackHead ≤ limit)
    (hlimit : limit + (droppedMarker ((encode text).length - maxStoredTraceback)).length =
      maxStoredTraceback) :
    StoredAs text (decodeIgnore ((encode text).take tracebackHead) ++
      droppedMarker ((encode text).length - maxStoredTraceback) ++
      decodeIgnore ((encode text).drop ((encode text).length - (limit - tracebackHead)))) := by
  obtain ⟨rest, hfirst, hfirstLen, -⟩ := decodeIgnore_take_encode hu tracebackHead
  obtain ⟨start, hlast, hlastLen, -⟩ :=
    decodeIgnore_drop_encode hu ((encode text).length - (limit - tracebackHead))
  set first := decodeIgnore ((encode text).take tracebackHead)
  set last := decodeIgnore ((encode text).drop ((encode text).length - (limit - tracebackHead)))
  set marker := droppedMarker ((encode text).length - maxStoredTraceback) with hmarker
  have hascii : ∀ c ∈ marker, c < 0x80 := ascii_droppedMarker _
  refine ⟨⟨_, encoded_ok ?_, ?_⟩, fun h => absurd h (by omega), fun _ => ?_⟩
  · have hf : Encodable first := by
      intro c hc
      exact (hu c (hfirst ▸ List.mem_append_left rest hc)).2
    have hl : Encodable last := by
      intro c hc
      exact (hu c (hlast ▸ List.mem_append_right start hc)).2
    exact (hf.append (encodable_of_ascii hascii)).append hl
  · rw [encode_append, encode_append, List.length_append, List.length_append, encode_ascii hascii]
    omega
  · obtain ⟨mid, hmid⟩ := exists_between hfirst hlast (by omega)
    exact ⟨first, mid, last, hmid, rfl⟩

/-- An oversized text that encodes. -/
theorem storedTraceback_cut {text : PyString} (h : Encodable text.points)
    (hsize : maxStoredTraceback < (encode text.points).length) :
    ∃ limit, tracebackHead ≤ limit ∧
      limit + (droppedMarker ((encode text.points).length - maxStoredTraceback)).length =
        maxStoredTraceback ∧
      storedTraceback text = .ok (decodeIgnore ((encode text.points).take tracebackHead) ++
        droppedMarker ((encode text.points).length - maxStoredTraceback) ++
        decodeIgnore ((encode text.points).drop
          ((encode text.points).length - (limit - tracebackHead)))) := by
  have hlt : (encode text.points).length - maxStoredTraceback < 10 ^ 20 := by
    have hle := length_encode_le text.points
    have hshort := text.short
    omega
  have hroom := length_droppedMarker hlt
  have hascii := ascii_droppedMarker ((encode text.points).length - maxStoredTraceback)
  have hmarker := encoded_ok (encodable_of_ascii hascii)
  rw [encode_ascii hascii] at hmarker
  have hmax : maxStoredTraceback = 16384 := rfl
  have hhead : tracebackHead = 4096 := rfl
  set room := (droppedMarker ((encode text.points).length - maxStoredTraceback)).length
  have hmin : min tracebackHead (maxStoredTraceback - room) = tracebackHead :=
    Nat.min_eq_left (by omega)
  refine ⟨maxStoredTraceback - room, by omega, by omega, ?_⟩
  have hfirst : utf8Prefix text.points tracebackHead =
      .ok (decodeIgnore ((encode text.points).take tracebackHead)) := by
    unfold utf8Prefix
    rw [encoded_ok h]
    rfl
  have hlast : utf8Suffix text.points (maxStoredTraceback - room - tracebackHead) =
      .ok (decodeIgnore ((encode text.points).drop
        ((encode text.points).length - (maxStoredTraceback - room - tracebackHead)))) := by
    unfold utf8Suffix
    rw [if_neg (by omega), encoded_ok h]
    rfl
  unfold storedTraceback
  rw [encoded_ok h, ok_bind]
  dsimp only
  rw [if_neg (Nat.not_le.mpr hsize), hmarker, ok_bind, if_neg (by omega), hmin, hfirst, ok_bind,
    hlast, ok_bind]
  rfl

theorem storedTraceback_ok {text : PyString} (h : Encodable text.points) :
    ∃ stored, storedTraceback text = .ok stored ∧ StoredAs text.points stored := by
  have hu : ∀ c ∈ text.points, Scalar c := fun c hc => ⟨text.unicode c hc, h c hc⟩
  by_cases hsize : (encode text.points).length ≤ maxStoredTraceback
  · refine ⟨text.points, ?_, ⟨⟨_, encoded_ok h, hsize⟩, fun _ => rfl, fun hlt => by omega⟩⟩
    unfold storedTraceback
    rw [encoded_ok h, ok_bind]
    dsimp only
    rw [if_pos hsize]
    rfl
  · obtain ⟨limit, hhead, hlimit, hstored⟩ := storedTraceback_cut h (Nat.lt_of_not_le hsize)
    exact ⟨_, hstored, storedAs_cut hu (Nat.lt_of_not_le hsize) hhead hlimit⟩

/-- A traceback is stored as it should be, and its failure recorded, exactly when no lone surrogate
is in it. -/
theorem storedTraceback_iff (text : PyString) :
    (∃ stored, storedTraceback text = .ok stored ∧ StoredAs text.points stored ∧
      ∀ b held path answer release now,
        failureRecord b held path text answer release now = .ok (handleFailure b held
          ⟨path, String.ofList (stored.map Char.ofNat)⟩ answer release now)) ↔
      Encodable text.points := by
  constructor
  · rintro ⟨stored, hstored, -, -⟩
    unfold storedTraceback at hstored
    cases hbytes : encoded text.points with
    | error e =>
      rw [hbytes] at hstored
      cases hstored
    | ok bytes => exact encodable_of_ok hbytes
  · intro h
    obtain ⟨stored, hstored, has⟩ := storedTraceback_ok h
    refine ⟨stored, hstored, has, fun b held path answer release now => ?_⟩
    unfold failureRecord
    rw [hstored]
    rfl

/-- The text of a lone surrogate. -/
def loneSurrogate : PyString := ⟨[0xD800], by decide, by decide⟩

theorem storedTraceback_lone_surrogate :
    ¬ ∀ text : PyString, ∃ stored, storedTraceback text = .ok stored := by
  intro hall
  obtain ⟨stored, hstored⟩ := hall loneSurrogate
  have herror : storedTraceback loneSurrogate = .error ⟨0⟩ := rfl
  rw [herror] at hstored
  cases hstored

end DjangoOx
