import DjangoOx.Bulk.Contention
import DjangoOx.Cron.Expression
import DjangoOx.Machine.Dict
import DjangoOx.Machine.Halves
import Mathlib.Data.Finset.Card
import Mathlib.Order.Lattice
import Mathlib.Data.List.Lex

/-! What a bulk call is given, and the ids it makes of it. -/
namespace DjangoOx

open Machine

/-- What is left of `text` when every `pat` is taken out, `skip` characters into one. -/
def without (pat : Text) : ℕ → Text → Text
  | _, [] => []
  | skip + 1, _ :: rest => without pat skip rest
  | 0, c :: rest =>
    if pat.isPrefixOf (c :: rest) then without pat (pat.length - 1) rest
    else c :: without pat 0 rest

/-- `text.strip("\x7b\x7d")` -/
def stripBraces (text : Text) : Text :=
  let brace : Char → Bool := fun c => c = '\x7b' ∨ c = '\x7d'
  ((text.dropWhile brace).reverse.dropWhile brace).reverse

/-- The white space `int` skips: not the separators that `str.strip` takes for it. -/
def isIntSpace (c : Char) : Bool :=
  isSpace c && !decide (0x1C ≤ c.toNat ∧ c.toNat ≤ 0x1F)

def hexDigit (c : Char) : Option ℕ :=
  (decimal c).or
    (if 97 ≤ c.toNat ∧ c.toNat ≤ 102 then some (c.toNat - 87)
    else if 65 ≤ c.toNat ∧ c.toNat ≤ 70 then some (c.toNat - 55)
    else none)

/-- More digits of a number, an underscore allowed before each. -/
def hexFrom (n : ℕ) : Text → Option ℕ
  | [] => some n
  | '_' :: c :: rest => (hexDigit c).bind fun d => hexFrom (16 * n + d) rest
  | c :: rest => (hexDigit c).bind fun d => hexFrom (16 * n + d) rest

/-- What follows the sign and a `0x`, with the one underscore that may stand after it. -/
def hexBody (text : Text) : Text :=
  match text with
  | zero :: x :: rest =>
    if decimal zero = some 0 ∧ (x = 'x' ∨ x = 'X') then
      if rest.head? = some '_' then rest.tail else rest
    else text
  | _ => text

/-- `int(text, 16)`, of a text with no hyphen; `none` for its `ValueError`. -/
def hexInt (text : Text) : Option ℕ :=
  let text := ((text.dropWhile isIntSpace).reverse.dropWhile isIntSpace).reverse
  match hexBody (if text.head? = some '+' then text.tail else text) with
  | [] => none
  | c :: rest => (hexDigit c).bind fun d => hexFrom d rest

/-- `uuid.UUID(text)`; `none` for its `ValueError`. -/
def uuid (text : Text) : Option TaskId :=
  let hex := without ['u', 'u', 'i', 'd', ':'] 0 (without ['u', 'r', 'n', ':'] 0 text)
  let hex := without ['-'] 0 (stripBraces hex)
  if hex.length = 32 then hexInt hex else none

/-- An id as a caller gives it. -/
inductive Item
  | uuid (id : TaskId)
  | str (text : Text)
  deriving DecidableEq, Repr

/-- `_pk` -/
def pk : Item → Option TaskId
  | .uuid id => some id
  | .str text => uuid text

/-- The text that a malformed id is counted by. -/
def malformedText : Item → Option Text
  | .uuid _ => none
  | .str text => if uuid text = none then some text else none

/-- `_ids`: the distinct ids in the order given, and how many distinct items were malformed. -/
def idsOf (selection : List Item) : List TaskId × ℕ :=
  ((selection.filterMap pk).eraseDups, (selection.filterMap malformedText).toFinset.card)

/-- `pk.bytes` -/
def uuidBytes (id : TaskId) : List ℕ :=
  (List.range 16).map fun i => id / 256 ^ (15 - i) % 256

/-- `_mariadb_uuid_order` -/
def mariadbUuidOrder (id : TaskId) : List ℕ :=
  let raw := uuidBytes id
  if 0 < raw.getD 6 0 ∧ raw.getD 6 0 < 0x60 ∧ raw.getD 8 0 &&& 0x80 ≠ 0 then
    raw.drop 10 ++ (raw.drop 8).take 2 ++ (raw.drop 6).take 2 ++ (raw.drop 4).take 2 ++ raw.take 4
  else raw

/-- `_key_order` -/
def keyOrder (conn : Connection) : TaskId → List ℕ :=
  if conn.mariadbUuid then mariadbUuidOrder else uuidBytes

/-- `sorted(ids, key=_key_order(alias))` -/
def inKeyOrder (conn : Connection) (ids : List TaskId) : List TaskId :=
  ids.insertionSort fun a b => keyOrder conn a ≤ keyOrder conn b

/-- A row a caller pins to an epoch, where it names one. -/
def pin (row : Item × ℤ) : Option (TaskId × ℤ) :=
  (pk row.1).map fun id => (id, row.2)

/-- `seen.setdefault(pk, int(epoch))` for each of the rows. -/
def firstEpochs (rows : List (Item × ℤ)) : Dict TaskId ℤ :=
  (rows.filterMap pin).foldl (fun seen p => seen.setDefault p.1 p.2) Dict.empty

/-- `_pinned`: each id with the first epoch given for it, and how many distinct malformed ids. -/
def pinned (conn : Connection) (rows : List (Item × ℤ)) : List (TaskId × ℤ) × ℕ :=
  ((firstEpochs rows).items.insertionSort fun a b => keyOrder conn a.1 ≤ keyOrder conn b.1,
    (rows.filterMap fun row => malformedText row.1).toFinset.card)

end DjangoOx
