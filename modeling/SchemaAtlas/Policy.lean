import SchemaAtlas.Draft

/-!
# Loading policies

A policy says how strict a load is, which drafts it understands where a document does not
say, and how many references it follows in a row.
-/

namespace SchemaAtlas

structure Policy where
  /-- Unknown keywords and malformed values are errors. -/
  strict : Bool
  /-- The draft of a document that names none. -/
  defaultDraft : Draft
  /-- The drafts whose keywords such a document may use. -/
  drafts : DraftSet
  /-- The greatest number of references in a row. -/
  maxHops : Nat
  deriving DecidableEq, Repr, Inhabited

namespace Policy

def standard : Policy :=
  { strict := false, defaultDraft := .latest, drafts := .all, maxHops := 10 }

/-- The policy that understands one draft. -/
def ofDraft (draft : Draft) : Policy :=
  { standard with defaultDraft := draft, drafts := .only draft }

/-- The drafts of a document from its `$schema`: the draft it is read as, the drafts whose
keywords it may use, and the `$schema` if no draft is known by it. -/
def draftsOf (policy : Policy) (metaSchema : Option String) : Draft × DraftSet × Option String :=
  match metaSchema with
  | none => (policy.defaultDraft, policy.drafts, none)
  | some uri =>
    match Draft.ofMetaSchema? uri with
    | some draft => (draft, .only draft, none)
    | none => (policy.defaultDraft, policy.drafts, some uri)

end Policy
end SchemaAtlas
