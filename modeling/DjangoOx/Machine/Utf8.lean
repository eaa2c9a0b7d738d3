import Mathlib.Data.List.Basic
import Mathlib.Order.Basic
import Mathlib.Data.Nat.Basic

/-! UTF-8 of code points, surrogates among them, and the decoder that leaves out what is no
character. Code points and bytes are naturals. -/
namespace Utf8

/-- No character: UTF-8 has no form of it. -/
def Surrogate (c : ℕ) : Prop := 0xD800 ≤ c ∧ c ≤ 0xDFFF

instance : DecidablePred Surrogate := fun _ => inferInstanceAs (Decidable (_ ∧ _))

/-- A code point that UTF-8 has a form of. -/
def Scalar (c : ℕ) : Prop := c < 0x110000 ∧ ¬ Surrogate c

def encodePoint (c : ℕ) : List ℕ :=
  if c < 0x80 then [c]
  else if c < 0x800 then [0xC0 + c / 64, 0x80 + c % 64]
  else if c < 0x10000 then [0xE0 + c / 4096, 0x80 + c / 64 % 64, 0x80 + c % 64]
  else [0xF0 + c / 262144, 0x80 + c / 4096 % 64, 0x80 + c / 64 % 64, 0x80 + c % 64]

def encode (text : List ℕ) : List ℕ := text.flatMap encodePoint

/-- A byte that goes on with a character. -/
def Tail (b : ℕ) : Prop := 0x80 ≤ b ∧ b < 0xC0

instance : DecidablePred Tail := fun _ => inferInstanceAs (Decidable (_ ∧ _))

/-- The character that a byte and the bytes after it begin with, and how many of those are its. -/
def decodePoint (a : ℕ) (rest : List ℕ) : Option (ℕ × ℕ) :=
  if a < 0x80 then some (a, 0)
  else if 0xC2 ≤ a ∧ a < 0xE0 then
    match rest with
    | b :: _ => if Tail b then some ((a - 0xC0) * 64 + (b - 0x80), 1) else none
    | _ => none
  else if 0xE0 ≤ a ∧ a < 0xF0 then
    match rest with
    | b :: c :: _ =>
      let point := (a - 0xE0) * 4096 + (b - 0x80) * 64 + (c - 0x80)
      if Tail b ∧ Tail c ∧ 0x800 ≤ point ∧ ¬ Surrogate point then some (point, 2) else none
    | _ => none
  else if 0xF0 ≤ a ∧ a < 0xF8 then
    match rest with
    | b :: c :: d :: _ =>
      let point := (a - 0xF0) * 262144 + (b - 0x80) * 4096 + (c - 0x80) * 64 + (d - 0x80)
      if Tail b ∧ Tail c ∧ Tail d ∧ 0x10000 ≤ point ∧ point < 0x110000 then some (point, 3)
      else none
    | _ => none
  else none

/-- Past so many bytes more, every character there is; a byte that begins none is left out. What
is left of a broken one begins none either. -/
def decodeFrom : ℕ → List ℕ → List ℕ
  | _, [] => []
  | skip + 1, _ :: rest => decodeFrom skip rest
  | 0, a :: rest =>
    match decodePoint a rest with
    | some (c, more) => c :: decodeFrom more rest
    | none => decodeFrom 0 rest

def decodeIgnore (bytes : List ℕ) : List ℕ := decodeFrom 0 bytes

variable {a b c n : ℕ} {bytes rest text head tail : List ℕ}

@[simp] theorem encode_nil : encode [] = [] := rfl

@[simp] theorem encode_cons (c : ℕ) (text : List ℕ) :
    encode (c :: text) = encodePoint c ++ encode text := rfl

theorem encode_append (head tail : List ℕ) : encode (head ++ tail) = encode head ++ encode tail :=
  List.flatMap_append

theorem length_encodePoint (c : ℕ) : 1 ≤ (encodePoint c).length ∧ (encodePoint c).length ≤ 4 := by
  unfold encodePoint
  split_ifs <;> simp

theorem length_encode_le (text : List ℕ) : (encode text).length ≤ 4 * text.length := by
  induction text with
  | nil => simp
  | cons c text ih =>
    have := (length_encodePoint c).2
    rw [encode_cons, List.length_append, List.length_cons]
    omega

/-- The bytes of a text of ASCII are its code points. -/
theorem encode_ascii (h : ∀ c ∈ text, c < 0x80) : encode text = text := by
  induction text with
  | nil => rfl
  | cons c text ih =>
    rw [encode_cons, ih fun d hd => h d (List.mem_cons_of_mem c hd)]
    unfold encodePoint
    rw [if_pos (h c List.mem_cons_self)]
    rfl

theorem decodeFrom_eq (n : ℕ) (bytes : List ℕ) :
    decodeFrom n bytes = decodeIgnore (bytes.drop n) := by
  induction n generalizing bytes with
  | zero => rfl
  | succ n ih =>
    cases bytes with
    | nil => rfl
    | cons a rest => exact ih rest

theorem tail_mod (n : ℕ) : Tail (0x80 + n % 64) := by
  unfold Tail
  omega

/-- What a character is encoded as begins with it. -/
theorem decodePoint_encodePoint (h : Scalar c) (rest : List ℕ) :
    ∃ first more, encodePoint c = first :: more ∧
      decodePoint first (more ++ rest) = some (c, more.length) := by
  obtain ⟨hlt, hs⟩ := h
  unfold encodePoint
  split_ifs with h1 h2 h3
  · exact ⟨_, _, rfl, if_pos h1⟩
  · refine ⟨_, _, rfl, ?_⟩
    have hval : (0xC0 + c / 64 - 0xC0) * 64 + (0x80 + c % 64 - 0x80) = c := by omega
    unfold decodePoint
    rw [if_neg (by omega), if_pos (by omega)]
    dsimp only [List.cons_append, List.nil_append]
    rw [if_pos (tail_mod _), hval]
    rfl
  · refine ⟨_, _, rfl, ?_⟩
    have hval : (0xE0 + c / 4096 - 0xE0) * 4096 + (0x80 + c / 64 % 64 - 0x80) * 64 +
        (0x80 + c % 64 - 0x80) = c := by omega
    unfold decodePoint
    rw [if_neg (by omega), if_neg (by omega), if_pos (by omega)]
    dsimp only [List.cons_append, List.nil_append]
    rw [hval, if_pos ⟨tail_mod _, tail_mod _, by omega, hs⟩]
    rfl
  · refine ⟨_, _, rfl, ?_⟩
    have hval : (0xF0 + c / 262144 - 0xF0) * 262144 + (0x80 + c / 4096 % 64 - 0x80) * 4096 +
        (0x80 + c / 64 % 64 - 0x80) * 64 + (0x80 + c % 64 - 0x80) = c := by omega
    unfold decodePoint
    rw [if_neg (by omega), if_neg (by omega), if_neg (by omega), if_pos (by omega)]
    dsimp only [List.cons_append, List.nil_append]
    rw [hval, if_pos ⟨tail_mod _, tail_mod _, tail_mod _, by omega, hlt⟩]
    rfl

/-- Fewer bytes than a character has begin none. -/
theorem decodePoint_take {first : ℕ} {more : List ℕ} (h : encodePoint c = first :: more)
    (hn : n < more.length) : decodePoint first (more.take n) = none := by
  unfold encodePoint at h
  split_ifs at h with h1 h2 h3 <;> obtain ⟨rfl, rfl⟩ := List.cons.inj h
  · simp at hn
  · obtain rfl : n = 0 := by
      simp only [List.length_cons, List.length_nil] at hn
      omega
    unfold decodePoint
    rw [if_neg (by omega), if_pos (by omega)]
    rfl
  · unfold decodePoint
    rw [if_neg (by omega), if_neg (by omega), if_pos (by omega)]
    match n, hn with
    | 0, _ => rfl
    | 1, _ => rfl
    | n + 2, hn =>
      simp only [List.length_cons, List.length_nil] at hn
      omega
  · unfold decodePoint
    rw [if_neg (by omega), if_neg (by omega), if_neg (by omega)]
    match n, hn with
    | 0, _ => simp
    | 1, _ => simp
    | 2, _ => simp
    | n + 3, hn =>
      simp only [List.length_cons, List.length_nil] at hn
      omega

theorem decodeIgnore_some {more : ℕ} (h : decodePoint a rest = some (c, more)) :
    decodeIgnore (a :: rest) = c :: decodeIgnore (rest.drop more) := by
  have hstep : decodeIgnore (a :: rest) = match decodePoint a rest with
      | some (c, more) => c :: decodeFrom more rest
      | none => decodeFrom 0 rest := rfl
  rw [hstep, h, ← decodeFrom_eq]

theorem decodeIgnore_none (h : decodePoint a rest = none) :
    decodeIgnore (a :: rest) = decodeIgnore rest := by
  have hstep : decodeIgnore (a :: rest) = match decodePoint a rest with
      | some (c, more) => c :: decodeFrom more rest
      | none => decodeFrom 0 rest := rfl
  rw [hstep, h]
  rfl

theorem decodeIgnore_encodePoint (h : Scalar c) (rest : List ℕ) :
    decodeIgnore (encodePoint c ++ rest) = c :: decodeIgnore rest := by
  obtain ⟨first, more, heq, hdecode⟩ := decodePoint_encodePoint h rest
  rw [heq, List.cons_append, decodeIgnore_some hdecode, List.drop_left]

/-- A byte that goes on with a character begins none. -/
theorem decodeIgnore_tail (h : Tail a) (rest : List ℕ) :
    decodeIgnore (a :: rest) = decodeIgnore rest := by
  unfold Tail at h
  have hnone : decodePoint a rest = none := by
    unfold decodePoint
    rw [if_neg (by omega), if_neg (by omega), if_neg (by omega), if_neg (by omega)]
  exact decodeIgnore_none hnone

theorem decodeIgnore_tails (h : ∀ b ∈ head, Tail b) (rest : List ℕ) :
    decodeIgnore (head ++ rest) = decodeIgnore rest := by
  induction head with
  | nil => rfl
  | cons b head ih =>
    rw [List.cons_append, decodeIgnore_tail (h b List.mem_cons_self),
      ih fun d hd => h d (List.mem_cons_of_mem b hd)]

/-- Every byte of a character but the first goes on with it. -/
theorem tail_of_mem_drop (hn : 0 < n) (h : b ∈ (encodePoint c).drop n) : Tail b := by
  have hmem : b ∈ (encodePoint c).drop 1 := by
    obtain ⟨k, rfl⟩ := Nat.exists_eq_add_of_le hn
    rw [← List.drop_drop] at h
    exact List.mem_of_mem_drop h
  unfold Tail
  unfold encodePoint at hmem
  split_ifs at hmem <;> simp at hmem <;> omega

/-- What is left of a character whose end is cut off is no character. -/
theorem decodeIgnore_take (hn : n < (encodePoint c).length) :
    decodeIgnore ((encodePoint c).take n) = [] := by
  cases n with
  | zero => rfl
  | succ n =>
    cases heq : encodePoint c with
    | nil =>
      rw [heq] at hn
      simp at hn
    | cons first more =>
      rw [heq, List.length_cons] at hn
      have hmore : ∀ b ∈ more, Tail b := fun b hb => tail_of_mem_drop Nat.one_pos (c := c) (by
        rw [heq]
        exact hb)
      have htail : ∀ b ∈ more.take n, Tail b := fun b hb => hmore b (List.mem_of_mem_take hb)
      have hnil := decodeIgnore_tails htail []
      rw [List.append_nil] at hnil
      rw [List.take_succ_cons, decodeIgnore_none (decodePoint_take heq (by omega)), hnil]
      rfl

/-- The bytes up to a cut decode to the longest beginning of the text that fits. -/
theorem decodeIgnore_take_encode (h : ∀ c ∈ text, Scalar c) (n : ℕ) :
    ∃ rest, text = decodeIgnore ((encode text).take n) ++ rest ∧
      (encode (decodeIgnore ((encode text).take n))).length ≤ n ∧
      ∀ c ∈ rest.head?, n < (encode (decodeIgnore ((encode text).take n) ++ [c])).length := by
  induction text generalizing n with
  | nil =>
    rw [encode_nil, List.take_nil]
    exact ⟨[], rfl, Nat.zero_le n, by simp⟩
  | cons c text ih =>
    have hc := h c List.mem_cons_self
    rw [encode_cons]
    by_cases hfits : (encodePoint c).length ≤ n
    · obtain ⟨rest, htext, hlen, hlong⟩ := ih (fun d hd => h d (List.mem_cons_of_mem c hd))
        (n - (encodePoint c).length)
      rw [List.take_append, List.take_of_length_le hfits, decodeIgnore_encodePoint hc]
      refine ⟨rest, by rw [List.cons_append, ← htext], ?_, fun d hd => ?_⟩
      · rw [encode_cons, List.length_append]
        omega
      · have := hlong d hd
        rw [List.cons_append, encode_cons, List.length_append]
        omega
    · have hcut : (encodePoint c ++ encode text).take n = (encodePoint c).take n :=
        List.take_append_of_le_length (by omega)
      rw [hcut, decodeIgnore_take (by omega)]
      refine ⟨c :: text, rfl, Nat.zero_le n, fun d hd => ?_⟩
      obtain rfl : c = d := by simpa using hd
      rw [List.nil_append, encode_cons, encode_nil, List.append_nil]
      omega

theorem decodeIgnore_encode (h : ∀ c ∈ text, Scalar c) : decodeIgnore (encode text) = text := by
  induction text with
  | nil => rfl
  | cons c text ih =>
    rw [encode_cons, decodeIgnore_encodePoint (h c List.mem_cons_self),
      ih fun d hd => h d (List.mem_cons_of_mem c hd)]

/-- The bytes from a cut on decode to the longest end of the text that fits. -/
theorem decodeIgnore_drop_encode (h : ∀ c ∈ text, Scalar c) (n : ℕ) :
    ∃ head, text = head ++ decodeIgnore ((encode text).drop n) ∧
      (encode (decodeIgnore ((encode text).drop n))).length ≤ (encode text).length - n ∧
      ∀ c ∈ head.getLast?, (encode text).length - n <
        (encode (c :: decodeIgnore ((encode text).drop n))).length := by
  induction text generalizing n with
  | nil =>
    rw [encode_nil, List.drop_nil]
    exact ⟨[], rfl, Nat.zero_le _, by simp⟩
  | cons c text ih =>
    have htext : ∀ d ∈ text, Scalar d := fun d hd => h d (List.mem_cons_of_mem c hd)
    have hlen := (length_encodePoint c).1
    by_cases hzero : n = 0
    · rw [hzero, List.drop_zero, decodeIgnore_encode h]
      exact ⟨[], rfl, le_rfl, by simp⟩
    rw [encode_cons, List.length_append]
    by_cases hcut : n < (encodePoint c).length
    · have htails : ∀ b ∈ (encodePoint c).drop n, Tail b :=
        fun b hb => tail_of_mem_drop (Nat.pos_of_ne_zero hzero) hb
      rw [List.drop_append_of_le_length hcut.le, decodeIgnore_tails htails,
        decodeIgnore_encode htext]
      refine ⟨[c], rfl, by omega, fun d hd => ?_⟩
      obtain rfl : c = d := by simpa using hd
      rw [encode_cons, List.length_append]
      omega
    · obtain ⟨head, heq, hle, hlong⟩ := ih htext (n - (encodePoint c).length)
      have hdrop : (encodePoint c ++ encode text).drop n =
          (encode text).drop (n - (encodePoint c).length) := by
        rw [List.drop_append, List.drop_eq_nil_of_le (by omega), List.nil_append]
      rw [hdrop]
      refine ⟨c :: head, by rw [List.cons_append, ← heq], by omega, fun d hd => ?_⟩
      cases head with
      | nil =>
        obtain rfl : c = d := by simpa using hd
        rw [List.nil_append] at heq
        rw [encode_cons, List.length_append, ← heq]
        omega
      | cons d' head =>
        rw [List.getLast?_cons_cons] at hd
        have := hlong d hd
        omega

end Utf8
