import DjangoOx.Cron.Crontab
import Mathlib.Data.List.TakeWhile

/-! What `parse` reads out of the texts a crontab is written in: numbers, the five spellings of a
part, and parts and fields joined. -/
namespace DjangoOx

/-- Digits and the marks of a part: no comma, no white space. -/
def PartText (text : Text) : Prop := ∀ c ∈ text, c.isDigit ∨ c ∈ ['*', '/', '-']

/-- No name of the field is a number. -/
def Named (names : List (Text × ℕ)) : Prop := ∀ p ∈ names, p.1.any fun c => !c.isDigit

theorem named_nil : Named [] := by
  unfold Named
  simp

theorem named_months : Named monthNames := by
  unfold Named
  decide

theorem named_weekdays : Named weekdayNames := by
  unfold Named
  decide

theorem isDigit_bounds {c : Char} (h : c.isDigit) : 48 ≤ c.toNat ∧ c.toNat ≤ 57 := by
  unfold Char.isDigit at h
  simp only [Bool.and_eq_true, decide_eq_true_eq] at h
  exact ⟨h.1, h.2⟩

theorem decimal_of_isDigit {c : Char} (h : c.isDigit) : decimal c = some (c.toNat - 48) := by
  obtain ⟨hlow, hhigh⟩ := isDigit_bounds h
  unfold decimal decimalZeros
  rw [List.find?_cons_of_pos (by simp; omega)]
  rfl

theorem digitsFrom_of_isDigit {text : Text} (h : ∀ c ∈ text, c.isDigit) (n : ℕ) :
    digitsFrom n text = some (Nat.ofDigitChars 10 text n) := by
  induction text generalizing n with
  | nil => simp [digitsFrom]
  | cons c rest ih =>
    have hc := h c List.mem_cons_self
    have hunder : c ≠ '_' := by
      rintro rfl
      exact absurd hc (by decide)
    rw [digitsFrom.eq_3 n c rest fun _ _ heq _ => hunder heq, decimal_of_isDigit hc,
      Nat.ofDigitChars_cons]
    exact ih (fun d hd => h d (List.mem_cons_of_mem _ hd)) _

theorem str_isDigit {n : ℕ} {c : Char} (h : c ∈ str n) : c.isDigit :=
  Nat.isDigit_of_mem_toDigits (by decide) (by decide) h

theorem str_ne_nil (n : ℕ) : str n ≠ [] := Nat.toDigits_ne_nil

theorem digits_str (n : ℕ) : digits (str n) = some n := by
  obtain ⟨c, rest, heq⟩ := List.exists_cons_of_ne_nil (str_ne_nil n)
  have hall : ∀ d ∈ c :: rest, d.isDigit := fun d hd => str_isDigit (heq ▸ hd)
  have hvalue : Nat.ofDigitChars 10 (c :: rest) 0 = n := by
    rw [← heq]
    exact Nat.ofDigitChars_ten_toDigits
  rw [heq]
  change (decimal c).bind _ = _
  rw [decimal_of_isDigit (hall c List.mem_cons_self), Option.bind_some,
    digitsFrom_of_isDigit (fun d hd => hall d (List.mem_cons_of_mem _ hd))]
  rw [Nat.ofDigitChars_cons] at hvalue
  simpa using hvalue

theorem int_str (n : ℕ) : int (str n) = some (n : ℤ) := by
  have hdigits := digits_str n
  unfold int
  split
  · next rest heq => exact absurd (str_isDigit (c := '-') (n := n) (by simp [heq])) (by decide)
  · next rest heq => exact absurd (str_isDigit (c := '+') (n := n) (by simp [heq])) (by decide)
  · rw [hdigits]
    rfl

theorem lower_str (n : ℕ) : lower (str n) = str n := by
  unfold lower
  conv_rhs => rw [← List.map_id (str n)]
  apply List.map_congr_left
  intro c hc
  obtain ⟨hlow, hhigh⟩ := isDigit_bounds (str_isDigit hc)
  have hlt : ¬ (c.val ≥ 'A'.val ∧ c.val ≤ 'Z'.val) := by
    rintro ⟨hge, -⟩
    have : (65 : ℕ) ≤ c.toNat := hge
    omega
  rw [if_neg (by omega)]
  unfold Char.toLower
  rw [dif_neg hlt]
  rfl

theorem parseValue_str {names : List (Text × ℕ)} (hnames : Named names) {low high v : ℕ}
    (hlow : low ≤ v) (hhigh : v ≤ high) : parseValue (str v) low high names = some v := by
  have hnone : names.lookup (lower (str v)) = none := by
    rw [lower_str, List.lookup_eq_none_iff]
    intro p hp
    obtain ⟨c, hc, hnot⟩ := List.any_eq_true.mp (hnames p hp)
    by_contra heq
    have : str v = p.1 := by simpa using heq
    rw [← this] at hc
    simp [str_isDigit hc] at hnot
  unfold parseValue
  rw [hnone, int_str]
  simp [hlow, hhigh]

theorem partition_none {c : Char} {text : Text} (h : c ∉ text) : partition c text = (text, []) := by
  have hall : ∀ d ∈ text, (d ≠ c) := by
    rintro d hd rfl
    exact h hd
  unfold partition
  rw [List.takeWhile_eq_self_iff.mpr (by simpa using hall),
    List.dropWhile_eq_nil_iff.mpr (by simpa using hall)]
  rfl

theorem partition_append {c : Char} {text rest : Text} (h : c ∉ text) :
    partition c (text ++ c :: rest) = (text, rest) := by
  have hall : ∀ d ∈ text, (d ≠ c) := by
    rintro d hd rfl
    exact h hd
  unfold partition
  rw [List.takeWhile_append_of_pos (by simpa using hall),
    List.dropWhile_append_of_pos (by simpa using hall)]
  simp

theorem notMem_str {c : Char} (hc : c.isDigit = false) (n : ℕ) : c ∉ str n := by
  intro h
  simp [str_isDigit h] at hc

theorem partText_str (n : ℕ) : PartText (str n) := fun _ h => .inl (str_isDigit h)

theorem PartText.mark {text rest : Text} {c : Char} (ht : PartText text) (hr : PartText rest)
    (hc : c ∈ ['*', '/', '-']) : PartText (text ++ c :: rest) := by
  intro d hd
  rcases List.mem_append.mp hd with hd | hd
  · exact ht d hd
  · rcases List.mem_cons.mp hd with rfl | hd
    · exact .inr hc
    · exact hr d hd

theorem partText_rangeText (first last : ℕ) : PartText (rangeText first last) :=
  (partText_str first).mark (partText_str last) (by decide)

theorem PartText.step {text : Text} (h : PartText text) (step : ℕ) : PartText (stepText text step) :=
  h.mark (partText_str step) (by decide)

theorem str_ne_star (n : ℕ) : str n ≠ ['*'] := by
  intro heq
  exact notMem_str (c := '*') (by decide) n (by simp [heq])

theorem rangeText_ne_star (first last : ℕ) : rangeText first last ≠ ['*'] := by
  intro heq
  have hdash : '-' ∈ rangeText first last := by simp [rangeText]
  simp [heq] at hdash

theorem stepText_ne_star (text : Text) (step : ℕ) : stepText text step ≠ ['*'] := by
  intro heq
  have hslash : '/' ∈ stepText text step := by simp [stepText]
  simp [heq] at hslash

theorem rangeText_ne_nil (first last : ℕ) : rangeText first last ≠ [] := by
  unfold rangeText
  simp

theorem stepText_ne_nil (text : Text) (step : ℕ) : stepText text step ≠ [] := by
  unfold stepText
  simp

theorem partition_stepText {text : Text} (h : '/' ∉ text) (step : ℕ) :
    partition '/' (stepText text step) = (text, str step) := partition_append h

theorem slash_notMem_rangeText (first last : ℕ) : '/' ∉ rangeText first last := by
  unfold rangeText
  simp [notMem_str]

/-- A part of a field, and the values it reads as. -/
structure Spells (low high : ℕ) (names : List (Text × ℕ)) (part : Text) (values : List ℕ) : Prop where
  text : PartText part
  ne_nil : part ≠ []
  bare : part ≠ ['*']
  reads : ∃ out, parsePart part low high names = some out ∧ ∀ v, v ∈ out ↔ v ∈ values

section

variable {low high : ℕ} {names : List (Text × ℕ)} (hnames : Named names)

theorem parseStep_str {step : ℕ} (hs : 0 < step) (hle : step ≤ high - low + 1) :
    parseStep (str step) low high = some step := by
  have hall : (str step).all (fun c => (decimal c).isSome) := by
    rw [List.all_eq_true]
    intro c hc
    rw [decimal_of_isDigit (str_isDigit hc)]
    rfl
  unfold parseStep
  rw [if_neg (str_ne_nil step), if_pos hall, digits_str]
  simp only [Option.bind_some]
  rw [if_neg (by omega)]

include hnames in
/-- A range reads as itself, with a step or with none. -/
theorem parsePart_rangeText {first last : ℕ} (step : ℕ) {stepText : Text}
    (hpart : partition '/' part = (rangeText first last, stepText))
    (hstep : parseStep stepText low high = some step) (hlow : low ≤ first) (hle : first ≤ last)
    (hhigh : last ≤ high) : parsePart part low high names = some (rangeTo first last step) := by
  have hdash : '-' ∈ rangeText first last := by simp [rangeText]
  have hsplit : partition '-' (rangeText first last) = (str first, str last) :=
    partition_append (notMem_str (by decide) first)
  simp only [parsePart, hpart, hstep, hsplit, bind, Option.bind_some,
    parseValue_str hnames hlow (hle.trans hhigh), parseValue_str hnames (hlow.trans hle) hhigh,
    if_neg (rangeText_ne_star first last), if_pos hdash, if_neg (not_lt.mpr hle)]

include hnames in
theorem parsePart_value {first : ℕ} (step : ℕ) {stepText : Text}
    (hpart : partition '/' part = (str first, stepText))
    (hstep : parseStep stepText low high = some step) (hlow : low ≤ first) (hhigh : first ≤ high) :
    parsePart part low high names =
      some (rangeTo first (if stepText = [] then first else high) step) := by
  have hdash : '-' ∉ str first := notMem_str (by decide) first
  simp only [parsePart, hpart, hstep, bind, Option.bind_some, parseValue_str hnames hlow hhigh,
    if_neg (str_ne_star first), if_neg hdash]

include hnames in
theorem spells_value {v : ℕ} (hlow : low ≤ v) (hhigh : v ≤ high) :
    Spells low high names (str v) [v] := by
  have hread := parsePart_value hnames 1 (partition_none (notMem_str (c := '/') (by decide) v)) rfl
    hlow hhigh
  refine ⟨partText_str v, str_ne_nil v, str_ne_star v, _, hread, ?_⟩
  simp [rangeTo]

include hnames in
theorem spells_range {first last : ℕ} (hlow : low ≤ first) (hle : first ≤ last)
    (hhigh : last ≤ high) : Spells low high names (rangeText first last) (rangeTo first last 1) := by
  have hread := parsePart_rangeText hnames 1 (partition_none (slash_notMem_rangeText first last))
    rfl hlow hle hhigh
  exact ⟨partText_rangeText first last, rangeText_ne_nil first last, rangeText_ne_star first last, _, hread,
    fun _ => Iff.rfl⟩

include hnames in
theorem spells_stepRange {first last step : ℕ} (hs : 0 < step) (hstep : step ≤ high - low + 1)
    (hlow : low ≤ first) (hle : first ≤ last) (hhigh : last ≤ high) :
    Spells low high names (stepText (rangeText first last) step) (rangeTo first last step) := by
  have hread := parsePart_rangeText hnames step
    (partition_stepText (slash_notMem_rangeText first last) step)
    (parseStep_str hs hstep) hlow hle hhigh
  exact ⟨(partText_rangeText first last).step step, stepText_ne_nil _ step, stepText_ne_star _ step, _,
    hread, fun _ => Iff.rfl⟩

include hnames in
theorem spells_stepValue {first step : ℕ} (hs : 0 < step) (hstep : step ≤ high - low + 1)
    (hlow : low ≤ first) (hhigh : first ≤ high) :
    Spells low high names (stepText (str first) step) (rangeTo first high step) := by
  have hread := parsePart_value hnames step (partition_stepText (notMem_str (by decide) first) step)
    (parseStep_str hs hstep) hlow hhigh
  rw [if_neg (str_ne_nil step)] at hread
  exact ⟨(partText_str first).step step, stepText_ne_nil _ step, stepText_ne_star _ step, _, hread,
    fun _ => Iff.rfl⟩

omit hnames in
theorem spells_stepStar {step : ℕ} (hs : 0 < step) (hstep : step ≤ high - low + 1) :
    Spells low high names (stepText ['*'] step) (rangeTo low high step) := by
  have hstar : PartText ['*'] := by
    intro c hc
    obtain rfl := List.mem_singleton.mp hc
    exact .inr List.mem_cons_self
  have hsplit : partition '/' (stepText ['*'] step) = (['*'], str step) :=
    partition_stepText (by decide) step
  refine ⟨hstar.step step, stepText_ne_nil _ step, stepText_ne_star _ step, _, ?_, fun _ => Iff.rfl⟩
  simp only [parsePart, hsplit,
    parseStep_str hs hstep, bind, Option.bind_some, if_true]

end

/-- Parts that between them read as the values of a set. -/
structure Covers (low high : ℕ) (names : List (Text × ℕ)) (parts : List Text) (values : List ℕ) :
    Prop where
  sound : ∀ part ∈ parts, ∃ held, Spells low high names part held ∧ ∀ v ∈ held, v ∈ values
  complete : ∀ v ∈ values, ∃ part ∈ parts, ∃ held, Spells low high names part held ∧ v ∈ held

theorem mem_intercalate {c d : Char} {texts : List Text} (h : c ∈ [d].intercalate texts) :
    c = d ∨ ∃ text ∈ texts, c ∈ text := by
  induction texts with
  | nil => simp at h
  | cons text texts ih =>
    match texts, ih, h with
    | [], _, h => exact .inr ⟨text, List.mem_cons_self, by simpa using h⟩
    | next :: rest, ih, h =>
      rw [List.intercalate_cons_cons, List.append_assoc, List.mem_append, List.mem_append] at h
      rcases h with h | h | h
      · exact .inr ⟨text, List.mem_cons_self, h⟩
      · exact .inl (List.mem_singleton.mp h)
      · obtain rfl | ⟨t, ht, hc⟩ := ih h
        · exact .inl rfl
        · exact .inr ⟨t, List.mem_cons_of_mem _ ht, hc⟩

theorem mapM_eq_map {α β : Type} {f : α → Option β} {g : α → β} {l : List α}
    (h : ∀ x ∈ l, f x = some (g x)) : l.mapM f = some (l.map g) := by
  induction l with
  | nil => rfl
  | cons x l ih =>
    rw [List.mapM_cons, h x List.mem_cons_self, ih fun y hy => h y (List.mem_cons_of_mem _ hy)]
    rfl

section

variable {low high : ℕ} {names : List (Text × ℕ)} {parts : List Text} {values : List ℕ}

theorem PartText.noComma {text : Text} (h : PartText text) : ',' ∉ text := by
  intro hc
  rcases h _ hc with hd | hd
  · exact absurd hd (by decide)
  · exact absurd hd (by decide)

theorem PartText.noSpace {text : Text} (h : PartText text) : ∀ c ∈ text, isSpace c = false := by
  intro c hc
  rcases h c hc with hd | hd
  · obtain ⟨hlow, hhigh⟩ := isDigit_bounds hd
    simp only [isSpace, decide_eq_false_iff_not, List.mem_cons, List.not_mem_nil, or_false]
    omega
  · simp only [List.mem_cons, List.not_mem_nil, or_false] at hd
    rcases hd with rfl | rfl | rfl <;> decide

theorem Covers.partText (h : Covers low high names parts values) : ∀ part ∈ parts, PartText part := by
  intro part hp
  obtain ⟨held, hspell, -⟩ := h.sound part hp
  exact hspell.text

theorem Covers.ne_nil (h : Covers low high names parts values) (hne : values ≠ []) : parts ≠ [] := by
  obtain ⟨v, hv⟩ := List.exists_mem_of_ne_nil _ hne
  obtain ⟨part, hp, -⟩ := h.complete v hv
  exact List.ne_nil_of_mem hp

theorem Covers.splitOn (h : Covers low high names parts values) (hne : values ≠ []) :
    (joined parts).splitOn ',' = parts :=
  List.splitOn_intercalate ',' (fun part hp => (h.partText part hp).noComma) (h.ne_nil hne)

theorem Covers.ne_star (h : Covers low high names parts values) (hne : values ≠ []) :
    joined parts ≠ ['*'] := by
  intro heq
  have hparts := h.splitOn hne
  rw [heq] at hparts
  have hstar : ['*'] ∈ parts := by
    rw [← hparts]
    decide
  obtain ⟨held, hspell, -⟩ := h.sound _ hstar
  exact hspell.bare rfl

theorem Covers.noSpace (h : Covers low high names parts values) :
    ∀ c ∈ joined parts, isSpace c = false := by
  intro c hc
  obtain rfl | ⟨part, hp, hc⟩ := mem_intercalate hc
  · decide
  · exact (h.partText part hp).noSpace c hc

/-- Parts joined by commas read as their values, and as a restricted field. -/
theorem Covers.parseField (h : Covers low high names parts values) (hne : values ≠ []) :
    ∃ out, parseField (joined parts) low high names = some (out, true) ∧
      ∀ v, v ∈ out ↔ v ∈ values := by
  let read := fun part => (parsePart part low high names).getD []
  have hread : ∀ part ∈ parts, parsePart part low high names = some (read part) := by
    intro part hp
    obtain ⟨held, hspell, -⟩ := h.sound part hp
    obtain ⟨out, hout, -⟩ := hspell.reads
    change _ = some ((parsePart part low high names).getD [])
    rw [hout]
    rfl
  have hheld : ∀ part held, Spells low high names part held → ∀ v, v ∈ read part ↔ v ∈ held := by
    intro part held hspell v
    obtain ⟨out, hout, hmem⟩ := hspell.reads
    change v ∈ (parsePart part low high names).getD [] ↔ _
    rw [hout]
    exact hmem v
  refine ⟨sortedSet (parts.map read).flatten, ?_, ?_⟩
  · unfold DjangoOx.parseField
    rw [if_neg (h.ne_star hne), h.splitOn hne, mapM_eq_map hread]
    rfl
  · intro v
    rw [mem_sortedSet, ← List.flatMap_def, List.mem_flatMap]
    constructor
    · rintro ⟨part, hp, hv⟩
      obtain ⟨held, hspell, hsub⟩ := h.sound part hp
      exact hsub v ((hheld part held hspell v).mp hv)
    · intro hv
      obtain ⟨part, hp, held, hspell, hmem⟩ := h.complete v hv
      exact ⟨part, hp, (hheld part held hspell v).mpr hmem⟩

end

end DjangoOx
