import SchemaAtlas.Draft
import SchemaAtlas.Json.Basic
import SchemaAtlas.Location

/-!
# Finding the target of a reference

A URI names a place in a document by a path, or the node that declares an identifier.
`Lookup.locate` finds the value and the location that the node has when the document is
read from its root, before its own identifier is applied.
-/

namespace SchemaAtlas

/-- How far a reference has come. -/
inductive ReferenceState where
  | unresolved
  | resolvingInDocument
  | resolvingRemote
  | resolved
  | failed
  deriving DecidableEq, Repr, Inhabited

namespace ReferenceState

def name : ReferenceState → String
  | .unresolved => "unresolved"
  | .resolvingInDocument => "resolving-in-document"
  | .resolvingRemote => "resolving-remote"
  | .resolved => "resolved"
  | .failed => "failed"

def all : List ReferenceState :=
  [.unresolved, .resolvingInDocument, .resolvingRemote, .resolved, .failed]

def ofName? (name : String) : Option ReferenceState := all.find? (·.name = name)

def isTerminal (s : ReferenceState) : Bool := s = .resolved || s = .failed

end ReferenceState

namespace Lookup

/-- The identifier that an object declares under one of the keys, the first that holds a
string. A reference declares none. -/
def declaredId? (keys : List String) : Json → Option String
  | .object members =>
    if Entries.contains "$ref" members then none
    else keys.findSome? fun key => (Entries.get? key members).bind Json.string?
  | _ => none

/-- The location inside a value: in the scope of its identifier, if that is a URI. -/
def rescope (keys : List String) (location : Location) (value : Json) : Location :=
  match declaredId? keys value with
  | some id =>
    match location.withId id with
    | .ok inner => inner
    | .error _ => location
  | none => location

/-! ## Paths -/

/-- The index that a segment writes: digits, perhaps after a plus sign. -/
def index? (segment : String) : Option Nat :=
  let digits := match segment.toList with
    | '+' :: rest => rest
    | cs => cs
  if digits.isEmpty || !digits.all Char.isDigit then none
  else
    let n := digits.foldl (fun n c => 10 * n + (c.toNat - 48)) 0
    if n < Nat.pow 2 64 then some n else none

/-- The value one segment below another. -/
def step? (segment : String) : Json → Option Json
  | .object members => Entries.get? segment members
  | .array elements => (index? segment).bind fun i => elements[i]?
  | _ => none

/-- Follows segments down from a value; every object on the way may start a scope. -/
def navigate (keys : List String) (location : Location) (value : Json) :
    List String → Option (Location × Json)
  | [] => some (location, value)
  | segment :: rest =>
    match step? segment value with
    | some next => navigate keys ((rescope keys location value).child segment) next rest
    | none => none

/-! ## Identifiers -/

/-- Keys whose values are data in which nothing declares an identifier. -/
def dataKeys : List String := ["enum", "const", "default", "examples"]

mutual

/-- The first value, in the order of the document, that declares an identifier with the
scope `target`. -/
def findIdentified (keys : List String) (target : Uri) (location : Location) :
    Json → Option (Location × Json)
  | .object members =>
    let inner := rescope keys location (.object members)
    if (declaredId? keys (.object members)).isSome && inner.scope = target then
      some (location, .object members)
    else findInMembers keys target inner members
  | .array elements => findInElements keys target location 0 elements
  | _ => none

def findInMembers (keys : List String) (target : Uri) (inner : Location) :
    List (String × Json) → Option (Location × Json)
  | [] => none
  | (key, value) :: rest =>
    if dataKeys.contains key then findInMembers keys target inner rest
    else
      match findIdentified keys target (inner.child key) value with
      | some found => some found
      | none => findInMembers keys target inner rest

def findInElements (keys : List String) (target : Uri) (location : Location) (index : Nat) :
    List Json → Option (Location × Json)
  | [] => none
  | value :: rest =>
    match findIdentified keys target (location.childIndex index) value with
    | some found => some found
    | none => findInElements keys target location (index + 1) rest

end

/-- The path that a URI's fragment writes, if it is one. -/
def path? (uri : Uri) : Option Pointer :=
  match uri.fragment with
  | some fragment =>
    if fragment.front = '/' then (Pointer.readFragment fragment).toOption else none
  | none => none

/-- The value that a URI names in the document at `root`: the whole document, the value at
a path, or the one with an identifier. Inside a resource that is embedded in the document
paths start at the value that declares its identifier. -/
def locate (keys : List String) (root : Location) (document : Json) (uri : Uri) :
    Option (Location × Json) :=
  let target := uri.normalized
  let base := target.withoutFragment
  if base = root.document then
    match target.fragment, path? target with
    | none, _ => some (root, document)
    | some _, some path => navigate keys root document path.segments
    | some _, none => findIdentified keys target root document
  else
    match findIdentified keys target root document with
    | some found => some found
    | none =>
      match path? target with
      | some path =>
        match findIdentified keys base root document with
        | some (location, value) => navigate keys location value path.segments
        | none => none
      | none => none

theorem navigate_append (keys : List String) (location : Location) (value : Json)
    (p q : List String) :
    navigate keys location value (p ++ q) =
      (navigate keys location value p).bind fun (l, v) => navigate keys l v q := by
  induction p generalizing location value with
  | nil => rfl
  | cons segment rest ih =>
    simp only [List.cons_append, navigate]
    split
    · exact ih _ _
    · rfl

theorem navigate_value {keys : List String} {location l : Location} {value v : Json}
    {segments : List String} (h : navigate keys location value segments = some (l, v)) :
    segments.foldlM (fun v segment => step? segment v) value = some v := by
  induction segments generalizing location value with
  | nil => simp_all [navigate]
  | cons segment rest ih =>
    simp only [navigate] at h
    split at h
    · rename_i next hs
      simpa [List.foldlM, hs] using ih h
    · simp at h

end Lookup
end SchemaAtlas
