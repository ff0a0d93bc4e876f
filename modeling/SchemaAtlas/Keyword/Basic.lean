import SchemaAtlas.Json.Shape
import SchemaAtlas.Keyword.Kind

/-!
# Keywords

The value of a keyword once it has been read, over any type of nested schemas. Maps and
sets are lists in key order; a reader who replaces the nested schemas uses `map`.
-/

namespace SchemaAtlas

/-- A bound with its inclusive and its exclusive form. -/
structure Limit where
  inclusive : Option Number
  exclusive : Option Number
  deriving DecidableEq, Repr, Inhabited

namespace Limit

def empty : Limit := ⟨none, none⟩

def isEmpty (l : Limit) : Bool := l.inclusive.isNone && l.exclusive.isNone

def sameBound : Option Number → Option Number → Bool
  | none, none => true
  | some a, some b => a.equals b
  | _, _ => false

def equals (a b : Limit) : Bool :=
  sameBound a.inclusive b.inclusive && sameBound a.exclusive b.exclusive

end Limit

/-- What a property depends on. -/
inductive Dependency (σ : Type) where
  | schema (schema : σ)
  | properties (names : List String)
  deriving Inhabited

inductive Keyword (σ : Type) where
  | schema (schema : σ)
  | schemaList (list : List σ)
  | schemaMap (entries : List (String × σ))
  /-- One schema for every element of an array. -/
  | items (schema : σ)
  /-- A schema for each element of an array. -/
  | tuple (list : List σ)
  | dependencies (entries : List (String × Dependency σ))
  | string (text : String)
  /-- A URI reference as written. -/
  | uri (text : String)
  | number (value : Number)
  | count (value : Nat)
  | boolean (value : Bool)
  | names (set : List String)
  | types (set : List Shape)
  /-- Names of types beside schemas. -/
  | union (types : List Shape) (schemas : List σ)
  | limit (limit : Limit)
  | json (value : Json)
  | jsonList (values : List Json)
  deriving Inhabited

namespace Dependency

variable {σ τ : Type}

def map (f : σ → τ) : Dependency σ → Dependency τ
  | .schema s => .schema (f s)
  | .properties names => .properties names

def mapM {m : Type → Type} [Monad m] (f : σ → m τ) : Dependency σ → m (Dependency τ)
  | .schema s => return .schema (← f s)
  | .properties names => return .properties names

end Dependency

namespace Keyword

variable {σ τ : Type}

def map (f : σ → τ) : Keyword σ → Keyword τ
  | .schema s => .schema (f s)
  | .schemaList list => .schemaList (list.map f)
  | .schemaMap entries => .schemaMap (Entries.mapValues f entries)
  | .items s => .items (f s)
  | .tuple list => .tuple (list.map f)
  | .dependencies entries => .dependencies (Entries.mapValues (Dependency.map f) entries)
  | .string text => .string text
  | .uri text => .uri text
  | .number n => .number n
  | .count n => .count n
  | .boolean b => .boolean b
  | .names set => .names set
  | .types shapes => .types shapes
  | .union shapes list => .union shapes (list.map f)
  | .limit l => .limit l
  | .json v => .json v
  | .jsonList vs => .jsonList vs

section

variable {m : Type → Type} [Monad m]

/-- Puts what an action makes of a schema in place of every schema, in order. -/
def mapM (f : σ → m τ) : Keyword σ → m (Keyword τ)
  | .schema s => return .schema (← f s)
  | .schemaList list => return .schemaList (← list.mapM f)
  | .schemaMap entries =>
    return .schemaMap (← entries.mapM fun (name, s) => return (name, ← f s))
  | .items s => return .items (← f s)
  | .tuple list => return .tuple (← list.mapM f)
  | .dependencies entries =>
    return .dependencies (← entries.mapM fun (name, d) => return (name, ← d.mapM f))
  | .union shapes list => return .union shapes (← list.mapM f)
  | .string text => return .string text
  | .uri text => return .uri text
  | .number n => return .number n
  | .count n => return .count n
  | .boolean b => return .boolean b
  | .names set => return .names set
  | .types shapes => return .types shapes
  | .limit l => return .limit l
  | .json v => return .json v
  | .jsonList vs => return .jsonList vs

end

def schema? : Keyword σ → Option σ
  | .schema s => some s
  | _ => none

def schemaList? : Keyword σ → Option (List σ)
  | .schemaList list => some list
  | _ => none

def schemaMap? : Keyword σ → Option (List (String × σ))
  | .schemaMap entries => some entries
  | _ => none

def text? : Keyword σ → Option String
  | .string text | .uri text => some text
  | _ => none

def count? : Keyword σ → Option Nat
  | .count n => some n
  | _ => none

def boolean? : Keyword σ → Option Bool
  | .boolean b => some b
  | _ => none

def limit? : Keyword σ → Option Limit
  | .limit l => some l
  | _ => none

/-- Schemas with their indices as segments. -/
def indexed (list : List σ) : List (Option String × σ) :=
  list.zipIdx.map fun (s, i) => (some (toString i), s)

/-- The nested schemas, each with the segment below the key that leads to it, if any. -/
def subschemas : Keyword σ → List (Option String × σ)
  | .schema s | .items s => [(none, s)]
  | .schemaList list | .tuple list | .union _ list => indexed list
  | .schemaMap entries => entries.map fun (name, s) => (some name, s)
  | .dependencies entries => entries.filterMap fun
    | (name, .schema s) => some (some name, s)
    | (_, .properties _) => none
  | _ => []

end Keyword
end SchemaAtlas
