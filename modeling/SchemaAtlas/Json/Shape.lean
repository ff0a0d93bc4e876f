import SchemaAtlas.Json.Basic

/-!
# Shapes

The shape of a value is its type in the vocabulary of the schema language. A number that
is whole has the shape of an integer, however it is written. As an expectation a shape
accepts itself; numbers accept integers, and `any` accepts every shape.
-/

namespace SchemaAtlas

inductive Shape where
  | array
  | boolean
  | integer
  | null
  | number
  | object
  | string
  | any
  deriving DecidableEq, Repr, Inhabited

namespace Shape

/-- Every shape, in the order of their names with `any` last. -/
def all : List Shape := [.array, .boolean, .integer, .null, .number, .object, .string, .any]

def name : Shape → String
  | .array => "array"
  | .boolean => "boolean"
  | .integer => "integer"
  | .null => "null"
  | .number => "number"
  | .object => "object"
  | .string => "string"
  | .any => "any"

instance : ToString Shape := ⟨name⟩

def ofName? (name : String) : Option Shape := all.find? (·.name = name)

/-- The place in the order of sets of shapes. -/
def rank (s : Shape) : Nat := all.idxOf s

instance : LT Shape := ⟨fun a b => a.rank < b.rank⟩

instance : DecidableLT Shape := fun a b => inferInstanceAs (Decidable (a.rank < b.rank))

def ofNumber : Number → Shape
  | .integer _ => .integer
  | .float x => if x.isWhole then .integer else .number

/-- The shape of a value. -/
def of : Json → Shape
  | .null => .null
  | .bool _ => .boolean
  | .number n => ofNumber n
  | .string _ => .string
  | .array _ => .array
  | .object _ => .object

def accepts (expected actual : Shape) : Bool :=
  expected = .any || expected = actual || (expected = .number && actual = .integer)

@[simp] theorem accepts_self (s : Shape) : s.accepts s = true := by simp [accepts]

theorem ofName?_name (s : Shape) : ofName? s.name = some s := by cases s <;> rfl

end Shape
end SchemaAtlas
