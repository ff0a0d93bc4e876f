import SchemaAtlas.Settings.Basic

/-!
# Reading settings

A tree becomes settings by one of two conventions. The exact one takes every field in the
form in which it is written. The lenient one, for files that people write and for the
environment, also takes numbers for flags, words for numbers and names in any case. In
both, a section is a table or the list of its fields, and names that mean nothing are
passed over.
-/

namespace SchemaAtlas

/-- How the values of fields are read. -/
structure Convention where
  boolean? : Setting → Option Bool
  natural? : Setting → Option Nat
  text? : Setting → Option String
  /-- One of the given names. -/
  name? : List String → Setting → Option String
  /-- Whether a list may have more elements than the section has fields. -/
  allowsSurplus : Bool

namespace Convention

/-- The greatest natural number of 64 bits. -/
def greatestNatural : Nat := Nat.pow 2 64 - 1

def exactBoolean? : Setting → Option Bool
  | .boolean b => some b
  | _ => none

def exactNatural? : Setting → Option Nat
  | .integer (.ofNat n) => if n ≤ greatestNatural then some n else none
  | _ => none

def exactText? : Setting → Option String
  | .text s => some s
  | _ => none

/-- A name, or a table with the name and nothing. -/
def exactName? (names : List String) : Setting → Option String
  | .text s => names.find? (· = s)
  | .table [(s, .absent)] => names.find? (· = s)
  | _ => none

def exact : Convention :=
  { boolean? := exactBoolean?, natural? := exactNatural?, text? := exactText?
    name? := exactName?, allowsSurplus := false }

/-- A word for a flag. -/
def flagOfWord? (word : String) : Option Bool :=
  match word.toLower with
  | "true" | "on" | "yes" => some true
  | "false" | "off" | "no" => some false
  | _ => none

def lenientBoolean? : Setting → Option Bool
  | .boolean b => some b
  | .integer i => some (i != 0)
  | .float x => some !x.isZero
  | .text "1" => some true
  | .text "0" => some false
  | .text s => flagOfWord? s
  | _ => none

/-- A natural number of 64 bits, which may have a plus sign. -/
def naturalOfText? (s : String) : Option Nat :=
  let digits := match s.toList with
    | '+' :: rest => rest
    | cs => cs
  if digits.isEmpty || !digits.all Char.isDigit then none
  else
    let n := Extended.natOfDigits digits
    if n ≤ greatestNatural then some n else none

def lenientNatural? : Setting → Option Nat
  | .boolean b => some b.toNat
  | .integer i => exactNatural? (.integer i)
  | .float x => some (x.nearestNat greatestNatural)
  | .text s =>
    match flagOfWord? s with
    | some b => some b.toNat
    | none => naturalOfText? s
  | _ => none

def lenientText? : Setting → Option String
  | .boolean b => some (toString b)
  | .integer i => some (toString i)
  | .float x => some x.plainText
  | .text s => some s
  | _ => none

/-- A name in any case, or a table with one entry of that name. -/
def lenientName? (names : List String) : Setting → Option String
  | .text s => names.find? (·.toLower = s.toLower)
  | .table [(s, _)] => names.find? (·.toLower = s.toLower)
  | _ => none

def lenient : Convention :=
  { boolean? := lenientBoolean?, natural? := lenientNatural?, text? := lenientText?
    name? := lenientName?, allowsSurplus := true }

variable (c : Convention)

/-- The fields of a section that are present. -/
def fields? (names : List String) : Setting → Option (List (String × Setting))
  | .table entries => some entries
  | .list elements =>
    if c.allowsSurplus || elements.length ≤ names.length then some (names.zip elements) else none
  | _ => none

def draft? (s : Setting) : Option Draft :=
  (c.name? (Draft.all.map Draft.name) s).bind Draft.ofName?

def layout? (s : Setting) : Option Layout :=
  (c.name? (Layout.all.map Layout.name) s).bind Layout.ofName?

def drafts? : Setting → Option (List Draft)
  | .list elements => elements.mapM c.draft?
  | _ => none

end Convention

namespace Settings

/-- The value of a field, or the one it has when it is missing. -/
def field {α : Type} (fields : List (String × Setting)) (name : String) (standard : α)
    (read : Setting → Option α) : Option α :=
  match Entries.get? name fields with
  | none => some standard
  | some value => read value

/-- A value that may be none. -/
def optional {α : Type} (read : Setting → Option α) : Setting → Option (Option α)
  | .absent => some none
  | value => (read value).map some

variable (c : Convention)

def readLoader (s : Setting) : Option LoaderSettings := do
  let fields ← c.fields? ["strict", "default_draft", "drafts", "max_ref_hops"] s
  return { strict := ← field fields "strict" standard.loader.strict c.boolean?
           defaultDraft := ← field fields "default_draft" standard.loader.defaultDraft c.draft?
           drafts := ← field fields "drafts" standard.loader.drafts c.drafts?
           maxHops := ← field fields "max_ref_hops" standard.loader.maxHops c.natural? }

def readOutput (s : Setting) : Option OutputSettings := do
  let fields ← c.fields? ["format", "include_extra_properties", "draft"] s
  return { layout := ← field fields "format" standard.output.layout c.layout?
           withExtra :=
             ← field fields "include_extra_properties" standard.output.withExtra c.boolean?
           draft := ← field fields "draft" standard.output.draft (optional c.draft?) }

def readDocuments (s : Setting) : Option DocumentSettings := do
  let fields ← c.fields? ["directory", "base_uri"] s
  return { directory :=
             ← field fields "directory" standard.documents.directory (optional c.text?)
           baseUri := ← field fields "base_uri" standard.documents.baseUri (optional c.text?) }

def read (s : Setting) : Option Settings := do
  let fields ← c.fields? ["loader", "output", "documents"] s
  return { loader := ← field fields "loader" standard.loader (readLoader c)
           output := ← field fields "output" standard.output (readOutput c)
           documents := ← field fields "documents" standard.documents (readDocuments c) }

/-- The settings of a JSON value, read exactly. -/
def ofJson (value : Json) : Option Settings := read .exact (.ofJson .integer value)

/-- The settings of trees laid over one another, the first one lowest. -/
def ofLayers (layers : List (List (String × Setting))) : Option Settings :=
  read .lenient (.ofLayers layers)

end Settings
end SchemaAtlas
