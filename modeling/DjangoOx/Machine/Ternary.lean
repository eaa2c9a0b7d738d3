import Mathlib.Order.Basic

/-! Three-valued conditions over rows with nullable columns. A comparison with NULL is unknown, and
a query takes the rows for which its condition is true. -/
namespace Machine

/-- The value of a condition; `none` is unknown. -/
abbrev Truth := Option Bool

namespace Truth

def and : Truth → Truth → Truth
  | some false, _ | _, some false => some false
  | some true, some true => some true
  | _, _ => none

def or : Truth → Truth → Truth
  | some true, _ | _, some true => some true
  | some false, some false => some false
  | _, _ => none

def not : Truth → Truth
  | some b => some !b
  | none => none

theorem and_eq_true {a b : Truth} : a.and b = some true ↔ a = some true ∧ b = some true := by
  rcases a with _ | _ | _ <;> rcases b with _ | _ | _ <;> simp [and]

theorem or_eq_true {a b : Truth} : a.or b = some true ↔ a = some true ∨ b = some true := by
  rcases a with _ | _ | _ <;> rcases b with _ | _ | _ <;> simp [or]

end Truth

/-- A condition on rows of type `α`. -/
def Condition (α : Type*) := α → Truth

namespace Condition

variable {α β : Type*} {p q : Condition α} {c v : α → Option β} {a : α}

def both (p q : Condition α) : Condition α := fun a => (p a).and (q a)

def either (p q : Condition α) : Condition α := fun a => (p a).or (q a)

def negate (p : Condition α) : Condition α := fun a => (p a).not

/-- `c IS NULL` -/
def isNull (c : α → Option β) : Condition α := fun a => some (c a).isNone

/-- `c = v` -/
def equals [DecidableEq β] (c v : α → Option β) : Condition α := fun a =>
  match c a, v a with
  | some x, some y => some (x = y)
  | _, _ => none

/-- `c < v` -/
def less [LT β] [DecidableLT β] (c v : α → Option β) : Condition α := fun a =>
  match c a, v a with
  | some x, some y => some (x < y)
  | _, _ => none

/-- The query takes the row. -/
def Selects (p : Condition α) (a : α) : Prop := p a = some true

instance (p : Condition α) (a : α) : Decidable (p.Selects a) :=
  inferInstanceAs (Decidable (p a = some true))

@[simp] theorem selects_both : (p.both q).Selects a ↔ p.Selects a ∧ q.Selects a :=
  Truth.and_eq_true

@[simp] theorem selects_either : (p.either q).Selects a ↔ p.Selects a ∨ q.Selects a :=
  Truth.or_eq_true

@[simp] theorem selects_isNull : (isNull c).Selects a ↔ c a = none := by
  simp [Selects, isNull]

@[simp] theorem selects_equals [DecidableEq β] :
    (equals c v).Selects a ↔ ∃ x, c a = some x ∧ v a = some x := by
  unfold Selects equals
  cases c a <;> cases v a <;> simp [eq_comm]

@[simp] theorem selects_less [LT β] [DecidableLT β] :
    (less c v).Selects a ↔ ∃ x y, c a = some x ∧ v a = some y ∧ x < y := by
  unfold Selects less
  cases c a <;> cases v a <;> simp

/-- The negation of a comparison with NULL takes no row. -/
@[simp] theorem selects_negate_equals [DecidableEq β] :
    (equals c v).negate.Selects a ↔ ∃ x y, c a = some x ∧ v a = some y ∧ x ≠ y := by
  unfold Selects negate equals
  cases c a <;> cases v a <;> simp [Truth.not]

/-- `c <= v` -/
def atMost [LE β] [DecidableLE β] (c v : α → Option β) : Condition α := fun a =>
  match c a, v a with
  | some x, some y => some (x ≤ y)
  | _, _ => none

/-- `c <> v` -/
def differs [DecidableEq β] (c v : α → Option β) : Condition α := (equals c v).negate

/-- `c IN (vs)`, under the comparison of the column's collation. -/
def oneOf (same : β → β → Bool) (c : α → Option β) (vs : α → Option (List β)) : Condition α :=
  fun a => match c a, vs a with
    | some x, some l => some (l.any fun y => same x y)
    | _, _ => none

/-- `c <> ALL(vs)` -/
def noneOf (same : β → β → Bool) (c : α → Option β) (vs : α → Option (List β)) : Condition α :=
  fun a => match c a, vs a with
    | some x, some l => some (l.all fun y => !same x y)
    | _, _ => none

/-- `EXISTS (SELECT .. WHERE ..)`, which is never unknown. -/
def existsIn (rows : List β) (p : α → Condition β) : Condition α := fun a =>
  some (rows.any fun r => p a r = some true)

@[simp] theorem selects_atMost [LE β] [DecidableLE β] :
    (atMost c v).Selects a ↔ ∃ x y, c a = some x ∧ v a = some y ∧ x ≤ y := by
  unfold Selects atMost
  cases c a <;> cases v a <;> simp

@[simp] theorem selects_differs [DecidableEq β] :
    (differs c v).Selects a ↔ ∃ x y, c a = some x ∧ v a = some y ∧ x ≠ y :=
  selects_negate_equals

@[simp] theorem selects_oneOf {same : β → β → Bool} {vs : α → Option (List β)} :
    (oneOf same c vs).Selects a ↔
      ∃ x l, c a = some x ∧ vs a = some l ∧ ∃ y ∈ l, same x y = true := by
  unfold Selects oneOf
  cases c a <;> cases vs a <;> simp

/-- `NOT (c IN (vs))` and `c <> ALL(vs)` take the same rows. -/
@[simp] theorem selects_negate_oneOf {same : β → β → Bool} {vs : α → Option (List β)} :
    (oneOf same c vs).negate.Selects a ↔
      ∃ x l, c a = some x ∧ vs a = some l ∧ ∀ y ∈ l, same x y = false := by
  unfold Selects negate oneOf
  cases c a <;> cases vs a <;> simp [Truth.not]

@[simp] theorem selects_noneOf {same : β → β → Bool} {vs : α → Option (List β)} :
    (noneOf same c vs).Selects a ↔
      ∃ x l, c a = some x ∧ vs a = some l ∧ ∀ y ∈ l, same x y = false := by
  unfold Selects noneOf
  cases c a <;> cases vs a <;> simp

@[simp] theorem selects_negate_existsIn {rows : List β} {p : α → Condition β} :
    (existsIn rows p).negate.Selects a ↔ ∀ r ∈ rows, ¬ (p a).Selects r := by
  simp [Selects, negate, existsIn, Truth.not]

/-- A condition that no row fails, as an empty `Q()`. -/
def always : Condition α := fun _ => some true

@[simp] theorem selects_always : (always : Condition α).Selects a := rfl

@[simp] theorem selects_unless {P : Prop} [Decidable P] :
    (if P then always else p : Condition α).Selects a ↔ (¬ P → p.Selects a) := by
  split_ifs with h <;> simp [h]

@[simp] theorem selects_when {P : Prop} [Decidable P] :
    (if P then p else always : Condition α).Selects a ↔ (P → p.Selects a) := by
  split_ifs with h <;> simp [h]

/-- `c1 AND c2 AND ..` -/
def allOf : List (Condition α) → Condition α
  | [] => always
  | c :: cs => c.both (allOf cs)

@[simp] theorem selects_allOf {cs : List (Condition α)} :
    (allOf cs).Selects a ↔ ∀ c ∈ cs, c.Selects a := by
  induction cs with
  | nil => simp [allOf]
  | cons c cs ih => simp [allOf, ih]

/-! A column that is never NULL, against a bound list. -/

theorem selects_oneOf_notNull {same : β → β → Bool} {f : α → β} {l : List β} :
    (oneOf same (fun a => some (f a)) fun _ => some l).Selects a ↔
      ∃ y ∈ l, same (f a) y = true := by
  simp

theorem selects_notOneOf_notNull {same : β → β → Bool} {f : α → β} {l : List β} :
    (oneOf same (fun a => some (f a)) fun _ => some l).negate.Selects a ↔
      ∀ y ∈ l, same (f a) y = false := by
  simp

theorem selects_noneOf_notNull {same : β → β → Bool} {f : α → β} {l : List β} :
    (noneOf same (fun a => some (f a)) fun _ => some l).Selects a ↔
      ∀ y ∈ l, same (f a) y = false := by
  simp

end Condition

end Machine
