import SchemaAtlas.Pointer
import SchemaAtlas.Uri.Reader

/-!
# Locations

A location says where a schema node stands: in which document, at which place of it, and
under which scope its references resolve. An identifier starts a new scope, and the
location counts the path from the node that did so beside the path from the root.
-/

namespace SchemaAtlas

structure Location where
  document : Uri
  scope : Uri
  path : Pointer
  scopePath : Pointer
  deriving DecidableEq, Repr, Inhabited

namespace Location

/-- The root of a document. -/
def ofDocument (uri : Uri) : Location :=
  { document := uri.normalized, scope := uri.normalized, path := .root, scopePath := .root }

def child (l : Location) (segment : String) : Location :=
  { l with path := l.path.child segment, scopePath := l.scopePath.child segment }

def childIndex (l : Location) (index : Nat) : Location := l.child (toString index)

/-- The place below a keyword. -/
def below (l : Location) (keyword : String) (segments : List String) : Location :=
  segments.foldl child (l.child keyword)

/-- The URI with a path in it as its fragment, or without a fragment at the root. -/
def withPath (uri : Uri) (path : Pointer) : Uri :=
  if path.isRoot then uri.withoutFragment
  else uri.withFragment (String.ofList path.fragmentChars)

/-- The document with the path as its fragment. -/
def pointerUri (l : Location) : Uri := withPath l.document l.path

/-- The canonical URI. A node that declared a plain name is known by it; the nodes below
such a node are known by their place in the document, as are those below a scope whose
fragment is not a path. All others extend the scope by the path walked since it began. -/
def uri (l : Location) : Uri :=
  match l.scope.fragment with
  | none => withPath l.scope l.scopePath
  | some fragment =>
    if fragment.isEmpty then withPath l.scope l.scopePath
    else if fragment.front = '/' then
      match Pointer.readFragment fragment with
      | .ok base => withPath l.scope (base ++ l.scopePath)
      | .error _ => l.pointerUri
    else if l.scopePath.isRoot then l.scope
    else l.pointerUri

/-- The URI that a reference at this place names. -/
def resolve (l : Location) (reference : String) : Except UriFault Uri :=
  (l.scope.join reference).map Uri.normalized

/-- The node with an identifier, which starts a new scope. -/
def withId (l : Location) (id : String) : Except UriFault Location :=
  (l.resolve id).map fun scope => { l with scope, scopePath := .root }

/-- The node as the root of another document. -/
def withDocument (l : Location) (reference : String) : Except UriFault Location :=
  (l.resolve reference).map ofDocument

def debugText (l : Location) : String :=
  "SchemaLocation \x7b document: " ++ quoted l.document.text ++ ", scope: " ++
    quoted l.scope.text ++ ", path: " ++ l.path.debugText ++ " \x7d"

@[simp] theorem child_document (l : Location) (s : String) : (l.child s).document = l.document :=
  rfl

@[simp] theorem child_scope (l : Location) (s : String) : (l.child s).scope = l.scope := rfl

@[simp] theorem child_path (l : Location) (s : String) : (l.child s).path = l.path.child s := rfl

theorem withId_path {l l' : Location} {id : String} (h : l.withId id = .ok l') :
    l'.document = l.document ∧ l'.path = l.path ∧ l'.scopePath = .root := by
  unfold withId at h
  cases hr : l.resolve id with
  | error e => simp [hr, Except.map] at h
  | ok scope =>
    simp only [hr, Except.map, Except.ok.injEq] at h
    subst h
    exact ⟨rfl, rfl, rfl⟩

end Location
end SchemaAtlas
