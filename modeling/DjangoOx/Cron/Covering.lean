import DjangoOx.Cron.Spelling

/-! What the two printers write covers the set they print: `_written`, a stretch at a time, and
`_covered`, by the two greedy covers. -/
namespace DjangoOx

/-- How a field is read back: up to `top`, which is 7 for the day of the week. -/
structure CrontabField.ReadTo (field : CrontabField) (top : ℕ) (names : List (Text × ℕ)) : Prop where
  named : Named names
  top_eq : top = if field = dayOfWeekField then 7 else field.high
  lt : field.low < field.high

theorem CrontabField.ReadTo.high_le {field : CrontabField} {top : ℕ} {names : List (Text × ℕ)}
    (h : field.ReadTo top names) : field.high ≤ top := by
  have htop := h.top_eq
  split_ifs at htop with hfield
  · rw [htop, hfield]
    decide
  · exact htop.ge

/-- A progression from its first value to its last. -/
theorem rangeTo_progression {first step n : ℕ} (hs : 0 < step) :
    rangeTo first (first + step * n) step = List.range' first (n + 1) step := by
  unfold rangeTo
  rw [Nat.add_sub_cancel_left, Nat.mul_div_cancel_left n hs]

/-- A range that stops short of the next value is the progression. -/
theorem mem_rangeTo_short {first last step n v : ℕ} (hs : 0 < step) (hle : first + step * n ≤ last)
    (hlt : last < first + step * n + step) :
    v ∈ rangeTo first last step ↔ v ∈ List.range' first (n + 1) step := by
  rw [← rangeTo_progression hs, mem_rangeTo hs (by omega), mem_rangeTo hs (by omega)]
  constructor
  · rintro ⟨k, hk, rfl⟩
    have hkn : k < n + 1 := by
      apply lt_of_mul_lt_mul_left _ (Nat.zero_le step)
      rw [Nat.mul_succ]
      omega
    have hmul := Nat.mul_le_mul_left step (Nat.lt_succ_iff.mp hkn)
    exact ⟨k, by omega, rfl⟩
  · rintro ⟨k, hk, rfl⟩
    exact ⟨k, by omega, rfl⟩

/-- What `stretch` takes is a progression, and it takes no more. -/
theorem stretch_spec (step : ℕ) {last : ℕ} {rest : List ℕ} (h : (last :: rest).Pairwise (· < ·)) :
    rest = List.range' (last + step) (stretch step last rest).2.1 step ++ (stretch step last rest).2.2 ∧
      (stretch step last rest).1 = last + step * (stretch step last rest).2.1 := by
  induction rest generalizing last with
  | nil => simp [stretch]
  | cons next rest ih =>
    obtain ⟨hlast, hrest⟩ := List.pairwise_cons.mp h
    have hlt := hlast next List.mem_cons_self
    unfold stretch
    split_ifs with hstep
    · obtain ⟨hleft, hend⟩ := ih hrest
      have hnext : next = last + step := by omega
      subst hnext
      constructor
      · rw [List.range'_succ, List.cons_append, ← hleft]
      · change (stretch step (last + step) rest).1 =
          last + step * ((stretch step (last + step) rest).2.1 + 1)
        rw [hend, Nat.mul_succ]
        omega
    · simp

theorem covers_nil {low high : ℕ} {names : List (Text × ℕ)} : Covers low high names [] [] :=
  ⟨by simp, by simp⟩

theorem Covers.cons {low high : ℕ} {names : List (Text × ℕ)} {part : Text} {parts : List Text}
    {held rest values : List ℕ} (h : Covers low high names parts rest)
    (hpart : Spells low high names part held) (hmem : ∀ v, v ∈ values ↔ v ∈ held ∨ v ∈ rest) :
    Covers low high names (part :: parts) values := by
  constructor
  · intro p hp
    rcases List.mem_cons.mp hp with rfl | hp
    · exact ⟨held, hpart, fun v hv => (hmem v).mpr (.inl hv)⟩
    · obtain ⟨m, hm, hsub⟩ := h.sound p hp
      exact ⟨m, hm, fun v hv => (hmem v).mpr (.inr (hsub v hv))⟩
  · intro v hv
    rcases (hmem v).mp hv with hv | hv
    · exact ⟨part, List.mem_cons_self, held, hpart, hv⟩
    · obtain ⟨p, hp, m, hm, hvm⟩ := h.complete v hv
      exact ⟨p, List.mem_cons_of_mem _ hp, m, hm, hvm⟩

section

variable {field : CrontabField} {top : ℕ} {names : List (Text × ℕ)} (hf : field.ReadTo top names)
include hf

/-- `_written`, once the whole set is neither a star nor a step of the whole field. -/
theorem covers_writtenParts (fuel : ℕ) {ordered : List ℕ} (hsorted : ordered.Pairwise (· < ·))
    (hin : ∀ v ∈ ordered, field.low ≤ v ∧ v ≤ field.high) (hfuel : ordered.length ≤ fuel) :
    Covers field.low top names (writtenParts fuel ordered) ordered := by
  have htop := hf.high_le
  induction fuel generalizing ordered with
  | zero =>
    obtain rfl : ordered = [] := List.length_eq_zero_iff.mp (by omega)
    exact covers_nil
  | succ fuel ih =>
    match ordered, hsorted, hin, hfuel with
    | [], _, _, _ => exact covers_nil
    | [first], _, hin, _ =>
      obtain ⟨hlow, hhigh⟩ := hin first List.mem_cons_self
      exact covers_nil.cons (spells_value hf.named hlow (by omega)) (by simp)
    | first :: next :: rest, hsorted, hin, hfuel =>
      obtain ⟨hfirst, hrest⟩ := List.pairwise_cons.mp hsorted
      obtain ⟨hlow, hhigh⟩ := hin first List.mem_cons_self
      have hnext := hin next (by simp)
      have hlt := hfirst next List.mem_cons_self
      obtain ⟨hleft, hlast⟩ := stretch_spec (next - first) hrest
      unfold writtenParts
      dsimp only
      generalize stretch (next - first) next rest = taken at hleft hlast ⊢
      obtain ⟨last, count, left⟩ := taken
      dsimp only at hleft hlast ⊢
      -- The values taken are a progression, and what is left is a tail of the set.
      have hend : last = first + (next - first) * (count + 1) := by
        rw [hlast, Nat.mul_succ]
        omega
      have hsplit : first :: next :: rest =
          List.range' first (count + 1 + 1) (next - first) ++ left := by
        rw [List.range'_succ, List.range'_succ, List.cons_append, List.cons_append,
          show first + (next - first) = next by omega, ← hleft]
      have hrange : rangeTo first last (next - first) =
          List.range' first (count + 1 + 1) (next - first) := by
        rw [hend]
        exact rangeTo_progression (by omega)
      have hmem : ∀ v, v ∈ first :: next :: rest ↔ v ∈ rangeTo first last (next - first) ∨ v ∈ left := by
        intro v
        rw [hsplit, hrange, List.mem_append]
      have hfl : first ≤ last := by omega
      have hlasthigh : last ≤ field.high := by
        have hmemlast : last ∈ rangeTo first last (next - first) := by
          rw [mem_rangeTo (by omega) hfl]
          exact ⟨count + 1, by omega, hend⟩
        exact (hin last ((hmem last).mpr (.inl hmemlast))).2
      have htail : Covers field.low top names (writtenParts fuel left) left := by
        apply ih
        · rw [hsplit] at hsorted
          exact (List.pairwise_append.mp hsorted).2.1
        · exact fun v hv => hin v ((hmem v).mpr (.inr hv))
        · have hlen := congrArg List.length hsplit
          simp only [List.length_cons, List.length_append, List.length_range'] at hlen hfuel
          omega
      split_ifs with hone hthree
      · rw [hone] at hmem
        exact htail.cons (spells_range hf.named hlow hfl (by omega)) hmem
      · exact htail.cons (spells_stepRange hf.named (by omega) (by omega) hlow hfl (by omega)) hmem
      · have htail : Covers field.low top names (writtenParts fuel (next :: rest)) (next :: rest) := by
          apply ih hrest (fun v hv => hin v (List.mem_cons_of_mem _ hv))
          simpa using hfuel
        exact htail.cons (spells_value hf.named hlow (by omega)) (by simp)

omit hf in
theorem minByLength_mem (text : Text) (texts : List Text) : minByLength text texts ∈ text :: texts := by
  unfold minByLength
  induction texts generalizing text with
  | nil => exact List.mem_cons_self
  | cons next texts ih =>
    rw [List.foldl_cons]
    split_ifs with hlt
    · exact List.mem_cons_of_mem _ (ih next)
    · rcases List.mem_cons.mp (ih text) with heq | hmem
      · rw [heq]
        exact List.mem_cons_self
      · exact List.mem_cons_of_mem _ (List.mem_cons_of_mem _ hmem)

omit hf in
theorem Spells.congr {low high : ℕ} {part : Text} {held values : List ℕ}
    (h : Spells low high names part held) (hmem : ∀ v, v ∈ held ↔ v ∈ values) :
    Spells low high names part values := by
  obtain ⟨out, hout, hiff⟩ := h.reads
  exact ⟨h.text, h.ne_nil, h.bare, out, hout, fun v => (hiff v).trans (hmem v)⟩

/-- Every spelling of a progression reads as it. -/
theorem spells_progression {first step n : ℕ} (hs : 0 < step) (hstep : step ≤ field.high - field.low)
    (hlow : field.low ≤ first) (hhigh : first + step * n ≤ field.high) :
    Spells field.low top names (progression first step (n + 1) field)
      (List.range' first (n + 1) step) := by
  have htop := hf.high_le
  have hstep' : step ≤ top - field.low + 1 := by omega
  unfold progression
  rw [← hf.top_eq, Nat.add_sub_cancel]
  dsimp only
  generalize hspell : [stepText (rangeText first (first + step * n)) step] ++
    (if step = 1 then [rangeText first (first + step * n)] else []) ++
    (if top < first + step * n + step then
      [stepText (str first) step] ++ (if first = field.low then [stepText ['*'] step] else [])
    else []) = spellings
  have hall : ∀ text ∈ spellings,
      Spells field.low top names text (List.range' first (n + 1) step) := by
    intro text htext
    rw [← hspell, List.mem_append, List.mem_append] at htext
    rcases htext with (htext | htext) | htext
    · rw [List.mem_singleton.mp htext, ← rangeTo_progression hs]
      exact spells_stepRange hf.named hs hstep' hlow (by omega) (by omega)
    · split_ifs at htext with hone
      · subst hone
        rw [List.mem_singleton.mp htext, ← rangeTo_progression hs]
        exact spells_range hf.named hlow (by omega) (by omega)
      · simp at htext
    · split_ifs at htext with hshort hfirst
      · have hmem : ∀ v, v ∈ rangeTo first top step ↔ v ∈ List.range' first (n + 1) step :=
          fun v => mem_rangeTo_short hs (by omega) hshort
        rcases List.mem_append.mp htext with htext | htext
        · rw [List.mem_singleton.mp htext]
          exact (spells_stepValue hf.named hs hstep' hlow (by omega)).congr hmem
        · rw [List.mem_singleton.mp htext]
          rw [hfirst] at hmem ⊢
          exact (spells_stepStar hs hstep').congr hmem
      · rw [List.append_nil] at htext
        rw [List.mem_singleton.mp htext]
        exact (spells_stepValue hf.named hs hstep' hlow (by omega)).congr
          fun v => mem_rangeTo_short hs (by omega) hshort
      · simp at htext
  have hne : spellings.reverse ≠ [] := by
    rw [← hspell]
    simp
  match hrev : spellings.reverse with
  | [] => exact absurd hrev hne
  | text :: texts =>
    apply hall
    rw [← List.mem_reverse, hrev]
    exact minByLength_mem text texts

omit hf in
/-- What a progression counts is held, and within the field. -/
theorem progressionLength_spec (held : List ℕ) (first step high fuel count : ℕ)
    (h : ∀ k < count, first + step * k ≤ high ∧ first + step * k ∈ held) :
    ∀ k < progressionLength held first step high fuel count,
      first + step * k ≤ high ∧ first + step * k ∈ held := by
  induction fuel generalizing count with
  | zero => exact h
  | succ fuel ih =>
    unfold progressionLength
    split_ifs with hnext
    · apply ih (count + 1)
      intro k hk
      rcases Nat.lt_succ_iff_lt_or_eq.mp hk with hk | rfl
      · exact h k hk
      · exact hnext
    · exact h

/-- A candidate spells values of the set. -/
theorem candidates_spec {ordered : List ℕ} (hin : ∀ v ∈ ordered, field.low ≤ v ∧ v ≤ field.high)
    {candidate : List ℕ × Text} (h : candidate ∈ candidates ordered field) :
    Spells field.low top names candidate.2 candidate.1 ∧ ∀ v ∈ candidate.1, v ∈ ordered := by
  unfold candidates at h
  obtain ⟨first, hfirst, h⟩ := List.mem_flatMap.mp h
  obtain ⟨step, hstep, h⟩ := List.mem_filterMap.mp h
  have hstep := List.mem_range'_1.mp hstep
  obtain ⟨-, h⟩ := Option.ite_none_left_eq_some.mp h
  obtain ⟨htwo, h⟩ := Option.ite_none_right_eq_some.mp h
  obtain rfl := Option.some.inj h
  have hheld := progressionLength_spec ordered first step field.high (field.high + 1) 1 (by
    intro k hk
    obtain rfl : k = 0 := by omega
    simpa using ⟨(hin first hfirst).2, hfirst⟩)
  generalize progressionLength ordered first step field.high (field.high + 1) 1 = count at htwo hheld ⊢
  obtain ⟨n, rfl⟩ : ∃ n, count = n + 1 := ⟨count - 1, by omega⟩
  constructor
  · have hlast := (hheld n (Nat.lt_succ_self n)).1
    apply (spells_progression hf (by omega) (by omega) (hin first hfirst).1 hlast).congr
    intro v
    simp [List.mem_range', eq_comm]
  · intro v hv
    obtain ⟨k, hk, rfl⟩ := List.mem_map.mp hv
    exact (hheld k (List.mem_range.mp hk)).2

end

/-- Parts taken in rounds: they spell values of the set, and what is not left is spelt. -/
structure Taken (low high : ℕ) (names : List (Text × ℕ)) (ordered left : List ℕ)
    (parts : List (ℕ × Text)) : Prop where
  sound : ∀ part ∈ parts, ∃ held, Spells low high names part.2 held ∧ ∀ v ∈ held, v ∈ ordered
  complete : ∀ v ∈ ordered, v ∈ left ∨
    ∃ part ∈ parts, ∃ held, Spells low high names part.2 held ∧ v ∈ held

section

variable {low high : ℕ} {names : List (Text × ℕ)} {ordered left : List ℕ} {parts : List (ℕ × Text)}
  {choices : List (List ℕ × Text)}

theorem taken_start : Taken low high names ordered ordered [] := ⟨by simp, fun _ hv => .inl hv⟩

theorem Taken.take (h : Taken low high names ordered left parts) {mask : List ℕ} {text : Text} (n : ℕ)
    (hspell : Spells low high names text mask) (hsub : ∀ v ∈ mask, v ∈ ordered) :
    Taken low high names ordered (left.filter (· ∉ mask)) (parts ++ [(n, text)]) := by
  constructor
  · intro part hp
    rcases List.mem_append.mp hp with hp | hp
    · exact h.sound part hp
    · obtain rfl := List.mem_singleton.mp hp
      exact ⟨mask, hspell, hsub⟩
  · intro v hv
    rcases h.complete v hv with hleft | ⟨part, hp, held, hread, hvm⟩
    · by_cases hvm : v ∈ mask
      · exact .inr ⟨(n, text), by simp, mask, hspell, hvm⟩
      · exact .inl (List.mem_filter.mpr ⟨hleft, by simpa using hvm⟩)
    · exact .inr ⟨part, List.mem_append_left _ hp, held, hread, hvm⟩

/-- A cover with nothing left, its parts in whatever order. -/
theorem Taken.covers (h : Taken low high names ordered [] parts) {texts : List Text}
    (htexts : ∀ text, text ∈ texts ↔ ∃ part ∈ parts, part.2 = text) :
    Covers low high names texts ordered := by
  constructor
  · intro text ht
    obtain ⟨part, hp, rfl⟩ := (htexts text).mp ht
    exact h.sound part hp
  · intro v hv
    rcases h.complete v hv with hnil | ⟨part, hp, held, hread, hvm⟩
    · simp at hnil
    · exact ⟨part.2, (htexts _).mpr ⟨part, hp, rfl⟩, held, hread, hvm⟩

theorem Taken.sorted (h : Taken low high names ordered [] parts) :
    ∃ texts, sortedParts parts = joined texts ∧ Covers low high names texts ordered := by
  refine ⟨_, rfl, h.covers ?_⟩
  intro text
  simp only [List.mem_map, List.mem_insertionSort]

theorem mostSaving_mem {candidate : List ℕ × Text} (h : mostSaving choices left = some candidate) :
    candidate ∈ choices := by
  unfold mostSaving at h
  have hfold : ∀ (l : List (List ℕ × Text)) (best : Option (List ℕ × Text) × ℤ),
      (∀ c, best.1 = some c → c ∈ choices) → (∀ c ∈ l, c ∈ choices) →
      ∀ c, (l.foldl (fun (best : Option (List ℕ × Text) × ℤ) candidate =>
        let saving := listed (candidate.1.filter (· ∈ left)) - (candidate.2.length + 1)
        if best.2 < saving then (some candidate, saving) else best) best).1 = some c →
        c ∈ choices := by
    intro l
    induction l with
    | nil => exact fun best hbest _ => hbest
    | cons next rest ih =>
      intro best hbest hl
      rw [List.foldl_cons]
      apply ih _ _ fun c hc => hl c (List.mem_cons_of_mem _ hc)
      dsimp only
      split_ifs with hbetter
      · intro c hc
        exact Option.some.inj hc ▸ hl next List.mem_cons_self
      · exact hbest
  exact hfold choices (none, 0) (by simp) (fun _ hc => hc) candidate h

/-- While a value is left, the round takes a choice that covers one. -/
theorem bestRate_spec (hex : ∃ c ∈ choices, ∃ v ∈ c.1, v ∈ left) :
    ∃ c ∈ choices, (bestRate choices left).1 = some c ∧ ∃ v ∈ c.1, v ∈ left := by
  have hnew : ∀ c : List ℕ × Text, (c.1.filter (· ∈ left)).length ≠ 0 ↔ ∃ v ∈ c.1, v ∈ left := by
    intro c
    rw [Ne, List.length_eq_zero_iff, List.filter_eq_nil_iff]
    simp
  have hfold : ∀ (l : List (List ℕ × Text)) (best : Option (List ℕ × Text) × ℕ × ℕ),
      (∀ c ∈ l, c ∈ choices) → (best.2.2 ≠ 0 ∨ ∃ c ∈ l, (c.1.filter (· ∈ left)).length ≠ 0) →
      (best.2.2 ≠ 0 → ∃ c ∈ choices, best.1 = some c ∧ (c.1.filter (· ∈ left)).length ≠ 0) →
      ∃ c ∈ choices, (l.foldl (fun (best : Option (List ℕ × Text) × ℕ × ℕ) choice =>
        let new := (choice.1.filter (· ∈ left)).length
        if new ≠ 0 ∧ (best.2.2 = 0 ∨ (choice.2.length + 1) * best.2.2 < best.2.1 * new ∨
            ((choice.2.length + 1) * best.2.2 = best.2.1 * new ∧ best.2.2 < new)) then
          (some choice, choice.2.length + 1, new)
        else best) best).1 = some c ∧ (c.1.filter (· ∈ left)).length ≠ 0 := by
    intro l
    induction l with
    | nil =>
      intro best _ hor hbest
      rcases hor with hcovers | ⟨c, hc, -⟩
      · exact hbest hcovers
      · simp at hc
    | cons next rest ih =>
      rintro ⟨chosen, cost, covers⟩ hl hor hbest
      rw [List.foldl_cons]
      have hrest : ∀ c ∈ rest, c ∈ choices := fun c hc => hl c (List.mem_cons_of_mem _ hc)
      dsimp only
      split_ifs with hbetter
      · exact ih _ hrest (.inl hbetter.1)
          fun _ => ⟨next, hl next List.mem_cons_self, rfl, hbetter.1⟩
      · apply ih _ hrest _ hbest
        rcases hor with hcovers | ⟨c, hc, hcn⟩
        · exact .inl hcovers
        · rcases List.mem_cons.mp hc with rfl | hc
          · left
            intro hzero
            exact hbetter ⟨hcn, .inl hzero⟩
          · exact .inr ⟨c, hc, hcn⟩
  obtain ⟨c, hc, hv⟩ := hex
  obtain ⟨best, hmem, hbest, hcn⟩ := hfold choices (choices.head?, 0, 0) (fun _ hc => hc)
    (.inr ⟨c, hc, (hnew c).mpr hv⟩) (by simp)
  exact ⟨best, hmem, hbest, (hnew best).mp hcn⟩

section

variable (hchoices : ∀ c ∈ choices, Spells low high names c.2 c.1 ∧ ∀ v ∈ c.1, v ∈ ordered)
include hchoices

theorem Taken.savingRounds (fuel : ℕ) (h : Taken low high names ordered left parts) :
    Taken low high names ordered (savingRounds choices fuel left parts).1
      (savingRounds choices fuel left parts).2 := by
  induction fuel generalizing left parts with
  | zero => exact h
  | succ fuel ih =>
    unfold DjangoOx.savingRounds
    split
    · exact h
    · next mask text heq =>
      obtain ⟨hspell, hsub⟩ := hchoices _ (mostSaving_mem heq)
      exact ih (h.take _ hspell hsub)

/-- The rounds go on until nothing is left. -/
theorem Taken.rateRounds (hall : ∀ v ∈ ordered, ∃ c ∈ choices, v ∈ c.1) (fuel : ℕ)
    (h : Taken low high names ordered left parts) (hleft : ∀ v ∈ left, v ∈ ordered)
    (hfuel : left.length < fuel) :
    Taken low high names ordered [] (rateRounds choices fuel left parts).2 := by
  induction fuel generalizing left parts with
  | zero => omega
  | succ fuel ih =>
    unfold DjangoOx.rateRounds
    split_ifs with hnil
    · exact hnil ▸ h
    · obtain ⟨v, hv⟩ := List.exists_mem_of_ne_nil _ hnil
      obtain ⟨c, hc, hvc⟩ := hall v (hleft v hv)
      obtain ⟨⟨mask, text⟩, hmem, hbest, w, hwm, hwl⟩ := bestRate_spec ⟨c, hc, v, hvc, hv⟩
      rw [hbest]
      obtain ⟨hspell, hsub⟩ := hchoices _ hmem
      apply ih (h.take _ hspell hsub) fun u hu => hleft u (List.mem_of_mem_filter hu)
      have hlt : (left.filter (· ∉ mask)).length < left.length := by
        apply List.length_filter_lt_length_iff_exists.mpr
        exact ⟨w, hwl, by simpa using hwm⟩
      exact lt_of_lt_of_le hlt (Nat.le_of_lt_succ hfuel)

end

/-- What is left is written value by value. -/
theorem Taken.lone (h : Taken low high names ordered left parts) (hnames : Named names)
    (hin : ∀ v ∈ ordered, low ≤ v ∧ v ≤ high) :
    Taken low high names ordered []
      (parts ++ (ordered.filter (· ∈ left)).map fun value => (value, str value)) := by
  constructor
  · intro part hp
    rcases List.mem_append.mp hp with hp | hp
    · exact h.sound part hp
    · obtain ⟨v, hv, rfl⟩ := List.mem_map.mp hp
      have hvo := List.mem_of_mem_filter hv
      obtain ⟨hlow, hhigh⟩ := hin v hvo
      exact ⟨[v], spells_value hnames hlow hhigh, by simpa using hvo⟩
  · intro v hv
    right
    rcases h.complete v hv with hleft | ⟨part, hp, held, hread, hvm⟩
    · obtain ⟨hlow, hhigh⟩ := hin v hv
      have hmem : (v, str v) ∈ (ordered.filter (· ∈ left)).map fun value => (value, str value) :=
        List.mem_map_of_mem (List.mem_filter.mpr ⟨hv, by simpa using hleft⟩)
      exact ⟨(v, str v), List.mem_append_right _ hmem, [v], spells_value hnames hlow hhigh, by simp⟩
    · exact ⟨part, List.mem_append_left _ hp, held, hread, hvm⟩

end

section

variable {field : CrontabField} {top : ℕ} {names : List (Text × ℕ)} (hf : field.ReadTo top names)
  {values : List ℕ} (hin : ∀ v ∈ values, field.low ≤ v ∧ v ≤ field.high)

/-- What a field's text prints: the whole field as a star, and any other set as parts that cover
it. -/
def Prints (field : CrontabField) (top : ℕ) (names : List (Text × ℕ)) (values : List ℕ)
    (text : Text) : Prop :=
  if sortedSet values = field.whole then text = ['*']
  else ∃ parts, text = joined parts ∧ Covers field.low top names parts (sortedSet values)

include hf

/-- A step of the whole field runs to the field's own top, unless it steps by one: past it there is
only Sunday's 7, and no step of two or three reaches that. -/
theorem step_short {step : ℕ} (hone : step ≠ 1) (hlen : 2 ≤ (field.high - field.low) / step) :
    top < field.low + step * ((field.high - field.low) / step) + step := by
  have hs : 0 < step := by
    by_contra hnot
    obtain rfl : step = 0 := by omega
    simp at hlen
  have hlt := hf.lt
  have htop := hf.top_eq
  split_ifs at htop with hfield
  · subst hfield
    change 2 ≤ 6 / step at hlen
    change top < 0 + step * (6 / step) + step
    have hle : step ≤ 3 := by
      have := (Nat.le_div_iff_mul_le hs).mp hlen
      omega
    rcases (by omega : step = 2 ∨ step = 3) with rfl | rfl <;> omega
  · have hmod := Nat.div_add_mod (field.high - field.low) step
    have hrem := Nat.mod_lt (field.high - field.low) hs
    omega

/-- `*/n` of three values or more reads as them. -/
theorem spells_star {step : ℕ} (hs : 0 < step) (hone : step ≠ 1)
    (hlen : 2 ≤ (field.high - field.low) / step) :
    Spells field.low top names (stepText ['*'] step) (rangeTo field.low field.high step) := by
  have hlt := hf.lt
  have htop := hf.high_le
  have hmul : step * ((field.high - field.low) / step) ≤ field.high - field.low :=
    Nat.mul_div_le _ _
  have hle : step ≤ field.high - field.low := by
    have := (Nat.le_div_iff_mul_le hs).mp hlen
    omega
  have htop : step ≤ top - field.low + 1 := by omega
  apply (spells_stepStar hs htop).congr
  intro v
  rw [mem_rangeTo_short hs (by omega) (step_short hf hone hlen)]
  rfl

include hin

theorem prints_written : Prints field top names values (written values field) := by
  have htop := hf.high_le
  have hsorted := pairwise_sortedSet values
  have hrange : ∀ v ∈ sortedSet values, field.low ≤ v ∧ v ≤ field.high :=
    fun v hv => hin v (mem_sortedSet.mp hv)
  unfold Prints written
  dsimp only
  generalize sortedSet values = ordered at hsorted hrange ⊢
  split_ifs with hwhole
  · rfl
  · have hparts : Covers field.low top names (writtenParts ordered.length ordered) ordered :=
      covers_writtenParts hf _ hsorted hrange le_rfl
    match ordered, hsorted, hrange, hwhole, hparts with
    | [], _, _, _, hparts => exact ⟨_, rfl, hparts⟩
    | [_], _, _, _, hparts => exact ⟨_, rfl, hparts⟩
    | [_, _], _, _, _, hparts => exact ⟨_, rfl, hparts⟩
    | first :: second :: third :: rest, hsorted, hrange, hwhole, hparts =>
      dsimp only
      split_ifs with hstep
      · obtain ⟨hfirst, -⟩ := List.pairwise_cons.mp hsorted
        have hlt := hfirst second (by simp)
        have hlen := congrArg List.length hstep
        unfold rangeTo at hlen
        rw [List.length_range'] at hlen
        simp only [List.length_cons] at hlen
        have hone : second - first ≠ 1 := by
          intro hone
          apply hwhole
          rw [hstep, hone]
          unfold rangeTo CrontabField.whole
          have := hf.lt
          rw [Nat.div_one, show field.high - field.low + 1 = field.high + 1 - field.low by omega]
        have hpos : 0 < second - first := by omega
        have hspell := spells_star hf hpos hone (by omega)
        rw [← hstep] at hspell
        exact ⟨[stepText ['*'] (second - first)], by simp [joined], covers_nil.cons hspell (by simp)⟩
      · exact ⟨_, rfl, hparts⟩

theorem prints_covered : Prints field top names values (covered values field) := by
  have htop := hf.high_le
  have hrange : ∀ v ∈ sortedSet values, field.low ≤ v ∧ v ≤ field.high :=
    fun v hv => hin v (mem_sortedSet.mp hv)
  unfold Prints covered
  dsimp only
  generalize sortedSet values = ordered at hrange ⊢
  split_ifs with hwhole
  · rfl
  · have hcandidates : ∀ c ∈ candidates ordered field,
        Spells field.low top names c.2 c.1 ∧ ∀ v ∈ c.1, v ∈ ordered :=
      fun c hc => candidates_spec hf hrange hc
    have htoprange : ∀ v ∈ ordered, field.low ≤ v ∧ v ≤ top :=
      fun v hv => ⟨(hrange v hv).1, (hrange v hv).2.trans htop⟩
    have hlone : ∀ v ∈ ordered, Spells field.low top names (str v) [v] :=
      fun v hv => spells_value hf.named (htoprange v hv).1 (htoprange v hv).2
    rcases List.mem_cons.mp (minByLength_mem (bySaving (candidates ordered field) ordered)
      [byRate (candidates ordered field) ordered]) with heq | hmem
    · rw [heq]
      exact ((taken_start.savingRounds hcandidates (ordered.length + 1)).lone hf.named
        htoprange).sorted
    · rw [List.mem_singleton.mp hmem]
      unfold byRate
      dsimp only
      have hchoices : ∀ c ∈ candidates ordered field ++ ordered.map fun value => ([value], str value),
          Spells field.low top names c.2 c.1 ∧ ∀ v ∈ c.1, v ∈ ordered := by
        intro c hc
        rcases List.mem_append.mp hc with hc | hc
        · exact hcandidates c hc
        · obtain ⟨v, hv, rfl⟩ := List.mem_map.mp hc
          exact ⟨hlone v hv, by simpa using hv⟩
      apply Taken.sorted
      apply taken_start.rateRounds hchoices _ _ (fun _ hv => hv) (Nat.lt_succ_self _)
      intro v hv
      exact ⟨([v], str v), List.mem_append_right _ (List.mem_map_of_mem hv), by simp⟩

end

end DjangoOx
