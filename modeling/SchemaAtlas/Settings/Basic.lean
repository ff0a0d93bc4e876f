import SchemaAtlas.Policy
import SchemaAtlas.Settings.Tree

/-!
# Settings

How schemas are loaded, how they are printed and where the documents come from that they
refer to. Settings are written section by section with their fields in a fixed order;
reading a section back gives every field, and one that is missing has its standard value.
-/

namespace SchemaAtlas

/-- How schemas are printed. -/
inductive Layout where
  | pretty
  | compact
  deriving DecidableEq, Repr, Inhabited

namespace Layout

def all : List Layout := [.pretty, .compact]

def name : Layout → String
  | .pretty => "pretty"
  | .compact => "compact"

def ofName? (name : String) : Option Layout := all.find? (·.name = name)

end Layout

structure LoaderSettings where
  strict : Bool
  defaultDraft : Draft
  /-- The drafts of documents that name none, in any order; none stands for all. -/
  drafts : List Draft
  maxHops : Nat
  deriving DecidableEq, Repr, Inhabited

structure OutputSettings where
  layout : Layout
  withExtra : Bool
  /-- The draft to print; each schema has its own if there is none. -/
  draft : Option Draft
  deriving DecidableEq, Repr, Inhabited

structure DocumentSettings where
  /-- The directory whose documents may be referred to. -/
  directory : Option String
  /-- The URI under which the directory is published. -/
  baseUri : Option String
  deriving DecidableEq, Repr, Inhabited

structure Settings where
  loader : LoaderSettings
  output : OutputSettings
  documents : DocumentSettings
  deriving DecidableEq, Repr, Inhabited

namespace Settings

def standard : Settings where
  loader :=
    { strict := Policy.standard.strict, defaultDraft := Policy.standard.defaultDraft
      drafts := Draft.all, maxHops := Policy.standard.maxHops }
  output := { layout := .pretty, withExtra := true, draft := none }
  documents := { directory := none, baseUri := none }

def policy (s : Settings) : Policy :=
  let drafts := DraftSet.ofList s.loader.drafts
  { strict := s.loader.strict, defaultDraft := s.loader.defaultDraft
    drafts := if drafts.isEmpty then .all else drafts, maxHops := s.loader.maxHops }

def isPretty (s : Settings) : Bool := s.output.layout = .pretty

theorem policy_standard : standard.policy = Policy.standard := by decide

/-! ## Writing -/

def ofOption {α : Type} (f : α → Setting) : Option α → Setting
  | none => .absent
  | some a => f a

/-- The sections and their fields, in the order in which they are written. -/
def sections (s : Settings) : List (String × List (String × Setting)) :=
  let draft (d : Draft) : Setting := .text d.name
  [("loader",
      [("strict", .boolean s.loader.strict), ("default_draft", draft s.loader.defaultDraft),
        ("drafts", .list (s.loader.drafts.map draft)),
        ("max_ref_hops", .integer s.loader.maxHops)]),
    ("output",
      [("format", .text s.output.layout.name),
        ("include_extra_properties", .boolean s.output.withExtra),
        ("draft", ofOption draft s.output.draft)]),
    ("documents",
      [("directory", ofOption .text s.documents.directory),
        ("base_uri", ofOption .text s.documents.baseUri)])]

def toJson (s : Settings) : Json :=
  .ofMembers (s.sections.map fun (name, fields) => (name, (Setting.table fields).toJson))

end Settings
end SchemaAtlas
