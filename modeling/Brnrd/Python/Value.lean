import Mathlib.Algebra.Order.Ring.Rat
import Mathlib.Data.List.Infix
import Mathlib.Data.Prod.Lex

/-! The JSON values a fact carries, and the few built-in conversions of the
interpreter the ledger applies to them. -/
namespace Brnrd.Python

/-- What ranges over a text is decided along the text, not over all characters. -/
instance (priority := 1100) decidableAllText (p : Char → Prop) [DecidablePred p] (text : List Char) :
    Decidable (∀ c, c ∈ text → p c) :=
  List.decidableBAll p text

-- named, so that membership among texts makes no proof of its own in each module
instance lawfulText : LawfulBEq (List Char) :=
  inferInstance

/-- What `json.loads` returns. A float is kept by its printed text and by what
`int` makes of it, which is `none` for an infinity and for NaN. A dict is the
list of its items in key order, so that equal dicts are equal lists. -/
inductive Value where
  | null
  | bool (b : Bool)
  | int (n : Int)
  | float (text : String) (trunc : Option Int)
  | str (s : String)
  | arr (items : List Value)
  | obj (fields : List (String × Value))

abbrev Dict := List (String × Value)

namespace Value

mutual
def beq : Value → Value → Bool
  | null, null => true
  | bool a, bool b => a == b
  | int a, int b => a == b
  | float a n, float b m => a == b && n == m
  | str a, str b => a == b
  | arr a, arr b => beqItems a b
  | obj a, obj b => beqFields a b
  | _, _ => false

def beqItems : List Value → List Value → Bool
  | [], [] => true
  | x :: xs, y :: ys => beq x y && beqItems xs ys
  | _, _ => false

def beqFields : Dict → Dict → Bool
  | [], [] => true
  | (k, x) :: xs, (l, y) :: ys => k == l && (beq x y && beqFields xs ys)
  | _, _ => false
end

mutual
theorem beq_iff : ∀ a b : Value, beq a b = true ↔ a = b
  | null, b => by cases b <;> simp [beq]
  | bool _, b => by cases b <;> simp [beq]
  | int _, b => by cases b <;> simp [beq]
  | float .., b => by cases b <;> simp [beq]
  | str _, b => by cases b <;> simp [beq]
  | arr xs, b => by cases b <;> simp [beq, beqItems_iff xs]
  | obj xs, b => by cases b <;> simp [beq, beqFields_iff xs]

theorem beqItems_iff : ∀ xs ys : List Value, beqItems xs ys = true ↔ xs = ys
  | [], ys => by cases ys <;> simp [beqItems]
  | x :: xs, ys => by cases ys <;> simp [beqItems, beq_iff x, beqItems_iff xs]

theorem beqFields_iff : ∀ xs ys : Dict, beqFields xs ys = true ↔ xs = ys
  | [], ys => by cases ys <;> simp [beqFields]
  | (k, x) :: xs, ys => by
      cases ys <;> simp [beqFields, beq_iff x, beqFields_iff xs, and_assoc, Prod.ext_iff]
end

instance : DecidableEq Value := fun a b => decidable_of_iff _ (beq_iff a b)

instance : Inhabited Value := ⟨null⟩

/-- `bool(value)`. -/
def truthy : Value → Bool
  | null => false
  | bool b => b
  | int n => n != 0
  | float text _ => text != "0.0" && text != "-0.0"
  | str s => s != ""
  | arr items => !items.isEmpty
  | obj fields => !fields.isEmpty

/-- Whether the value can be a dict key or a set member. -/
def hashable : Value → Bool
  | arr _ | obj _ => false
  | _ => true

/-- `left or right`. -/
def orElse (left right : Value) : Value :=
  if left.truthy then left else right

end Value

/-- A dict kept as a list in which a later item shadows an earlier one. -/
theorem lookup_cons_if {κ ν : Type*} [BEq κ] [LawfulBEq κ] [DecidableEq κ] (key other : κ) (value : ν)
    (items : List (κ × ν)) :
    ((key, value) :: items).lookup other = if other = key then some value else items.lookup other := by
  by_cases h : other = key
  · simp [h]
  · simp [List.lookup_cons, h, beq_eq_false_iff_ne.mpr h]

/-- `data.get(key)`: an absent key reads as `None`. -/
def Dict.get (data : Dict) (key : String) : Value :=
  (data.lookup key).getD .null

/-- `key in data`. -/
def Dict.has (data : Dict) (key : String) : Bool :=
  (data.lookup key).isSome

/-- `text.startswith(head)`. -/
def startsWith (text head : String) : Bool :=
  head.toList.isPrefixOf text.toList

/-- `text.removeprefix(head)`. -/
def removePrefix (text head : String) : String :=
  if startsWith text head then String.ofList (text.toList.drop head.toList.length) else text

/-- What the interpreter and the machine it runs on decide:
`datetime.fromisoformat(at).timestamp()` in the local time zone, in seconds and
as `int(timestamp * 1000)`, each `none` where the text is no timestamp; the
printed form of a list or a dict; and `json.loads` of one line, `none` where it
raises. No result depends on which functions these are. -/
structure Host where
  seconds : String → Option ℚ
  millis : String → Option Int
  repr : Value → String
  loads : List Char → Option Value

/-- `str(value)`. -/
def Value.toStr (host : Host) : Value → String
  | .null => "None"
  | .bool b => if b then "True" else "False"
  | .int n => toString n
  | .float text _ => text
  | .str s => s
  | v => host.repr v

/-- The code points `str.isspace` accepts. -/
def spaces : List Nat :=
  [0x9, 0xa, 0xb, 0xc, 0xd, 0x1c, 0x1d, 0x1e, 0x1f, 0x20, 0x85, 0xa0, 0x1680, 0x2000, 0x2001,
    0x2002, 0x2003, 0x2004, 0x2005, 0x2006, 0x2007, 0x2008, 0x2009, 0x200a, 0x2028, 0x2029,
    0x202f, 0x205f, 0x3000]

def isSpace (c : Char) : Bool :=
  spaces.contains c.toNat

/-- `text.strip()`. -/
def strip (text : List Char) : List Char :=
  ((text.dropWhile isSpace).reverse.dropWhile isSpace).reverse

/-- The zeros of the decimal digit blocks. -/
def zeros : List Nat :=
  [0x30, 0x660, 0x6f0, 0x7c0, 0x966, 0x9e6, 0xa66, 0xae6, 0xb66, 0xbe6, 0xc66, 0xce6, 0xd66,
    0xde6, 0xe50, 0xed0, 0xf20, 0x1040, 0x1090, 0x17e0, 0x1810, 0x1946, 0x19d0, 0x1a80, 0x1a90,
    0x1b50, 0x1bb0, 0x1c40, 0x1c50, 0xa620, 0xa8d0, 0xa900, 0xa9d0, 0xa9f0, 0xaa50, 0xabf0,
    0xff10, 0x104a0, 0x10d30, 0x11066, 0x110f0, 0x11136, 0x111d0, 0x112f0, 0x11450, 0x114d0,
    0x11650, 0x116c0, 0x11730, 0x118e0, 0x11950, 0x11c50, 0x11d50, 0x11da0, 0x16a60, 0x16ac0,
    0x16b50, 0x1d7ce, 0x1d7d8, 0x1d7e2, 0x1d7ec, 0x1d7f6, 0x1e140, 0x1e2f0, 0x1e950, 0x1fbf0]

def digit (c : Char) : Option Nat :=
  (zeros.find? fun z => decide (z ≤ c.toNat ∧ c.toNat < z + 10)).map fun z => c.toNat - z

/-- The digits of an integer literal, single underscores between them. -/
def digits : List Char → Nat → Option Nat
  | [], _ => none
  | [c], acc => (digit c).map fun d => acc * 10 + d
  | c :: '_' :: rest, acc => (digit c).bind fun d => digits rest (acc * 10 + d)
  | c :: rest, acc => (digit c).bind fun d => digits rest (acc * 10 + d)

/-- `int(text)`, `none` where it raises `ValueError`. -/
def parseInt (text : String) : Option Int :=
  match strip text.toList with
  | '-' :: rest => (digits rest 0).map fun n => -(n : Int)
  | '+' :: rest => (digits rest 0).map fun n => (n : Int)
  | rest => (digits rest 0).map fun n => (n : Int)

/-- `int(value)`, `none` where it raises. -/
def Value.toInt : Value → Option Int
  | .bool b => some (if b then 1 else 0)
  | .int n => some n
  | .float _ trunc => trunc
  | .str s => parseInt s
  | .null | .arr _ | .obj _ => none

example : parseInt " -1_0 " = some (-10) := by decide

end Brnrd.Python

/-! The classes of characters: what ASCII is in them, and a table for the rest. -/
namespace Brnrd.Python

def asciiLetter (c : Char) : Bool :=
  'a' ≤ c && c ≤ 'z' || 'A' ≤ c && c ≤ 'Z'

def asciiDigit (c : Char) : Bool :=
  '0' ≤ c && c ≤ '9'

/-- What `str.isalpha`, `str.isalnum` and `str.isdigit` say of a character that is
not ASCII. -/
structure Alphabet where
  alpha : Char → Bool
  alnum : Char → Bool
  digit : Char → Bool

/-- No letter and no digit is beyond ASCII. -/
def asciiOnly : Alphabet := ⟨fun _ => false, fun _ => false, fun _ => false⟩

variable (alphabet : Alphabet)

def isalpha (c : Char) : Bool :=
  if c.toNat < 128 then asciiLetter c else alphabet.alpha c

def isalnum (c : Char) : Bool :=
  if c.toNat < 128 then asciiLetter c || asciiDigit c else alphabet.alnum c

def isdigit (c : Char) : Bool :=
  if c.toNat < 128 then asciiDigit c else alphabet.digit c

/-- `\w` of a regular expression. -/
def isWord (c : Char) : Bool :=
  isalnum alphabet c || c = '_'

end Brnrd.Python
