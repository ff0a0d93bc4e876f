import SchemaAtlas.Decimal.Binary64
import SchemaAtlas.Entries

/-!
# JSON values

A number keeps the form it was written in: integers of 64 bits, signed or unsigned, are
exact, all others are binary floating point, so `1` and `1.0` are different values. The
members of an object are kept in key order, one for each key. Equality is that of the
content; it tells the two forms of a number apart and holds between the two zeros.
-/

namespace SchemaAtlas

inductive Number where
  | integer (value : Int)
  | float (value : Binary64)
  deriving DecidableEq, Repr, Inhabited

namespace Number

def equals : Number → Number → Bool
  | .integer i, .integer j => i == j
  | .float x, .float y => x.equals y
  | _, _ => false

/-- The nearest floating point number. -/
def toBinary64 : Number → Binary64
  | .integer i => .ofInt i
  | .float x => x

@[simp] theorem equals_self (n : Number) : n.equals n = true := by
  cases n <;> simp [equals]

end Number

inductive Json where
  | null
  | bool (value : Bool)
  | number (value : Number)
  | string (value : String)
  | array (elements : List Json)
  | object (members : List (String × Json))
  deriving Inhabited

namespace Json

/-- The object with the given members, the last one of each key. -/
def ofMembers (members : List (String × Json)) : Json := .object (Entries.ofList members)

def ofNat (n : Nat) : Json := .number (.integer n)

def ofOption {α : Type} (f : α → Json) : Option α → Json
  | none => .null
  | some a => f a

def strings (texts : List String) : Json := .array (texts.map .string)

def member? (key : String) : Json → Option Json
  | .object members => Entries.get? key members
  | _ => none

def string? : Json → Option String
  | .string s => some s
  | _ => none

def bool? : Json → Option Bool
  | .bool b => some b
  | _ => none

def number? : Json → Option Number
  | .number n => some n
  | _ => none

def elements? : Json → Option (List Json)
  | .array elements => some elements
  | _ => none

def members? : Json → Option (List (String × Json))
  | .object members => some members
  | _ => none

/-- A number that is a natural number in integer form. -/
def nat? : Json → Option Nat
  | .number (.integer (.ofNat n)) => some n
  | _ => none

mutual

/-- The number of values in a document, itself included. -/
def size : Json → Nat
  | .array elements => 1 + sizeElements elements
  | .object members => 1 + sizeMembers members
  | _ => 1

def sizeElements : List Json → Nat
  | [] => 0
  | e :: rest => e.size + sizeElements rest

def sizeMembers : List (String × Json) → Nat
  | [] => 0
  | (_, e) :: rest => e.size + sizeMembers rest

end

mutual

def equals : Json → Json → Bool
  | .null, .null => true
  | .bool a, .bool b => a == b
  | .number a, .number b => a.equals b
  | .string a, .string b => a == b
  | .array a, .array b => equalElements a b
  | .object a, .object b => equalMembers a b
  | _, _ => false

def equalElements : List Json → List Json → Bool
  | [], [] => true
  | x :: xs, y :: ys => equals x y && equalElements xs ys
  | _, _ => false

def equalMembers : List (String × Json) → List (String × Json) → Bool
  | [], [] => true
  | (k, x) :: xs, (l, y) :: ys => k == l && equals x y && equalMembers xs ys
  | _, _ => false

end

instance : BEq Json := ⟨equals⟩

mutual

theorem equals_self : (x : Json) → x.equals x = true
  | .null | .bool _ | .number _ | .string _ => by simp [equals]
  | .array elements => by simp [equals, equalElements_self elements]
  | .object members => by simp [equals, equalMembers_self members]

theorem equalElements_self : (xs : List Json) → equalElements xs xs = true
  | [] => rfl
  | x :: xs => by simp [equalElements, equals_self x, equalElements_self xs]

theorem equalMembers_self : (xs : List (String × Json)) → equalMembers xs xs = true
  | [] => rfl
  | (k, x) :: xs => by simp [equalMembers, equals_self x, equalMembers_self xs]

end

end Json
end SchemaAtlas
