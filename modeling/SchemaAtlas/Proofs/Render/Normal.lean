import SchemaAtlas.Keyword.Catalog

/-!
# The normal form of a schema document

What a document looks like after it has been read and written in one draft. Only few values
change: sets lose their order and repetitions, whole numbers and single values take one form,
and what says nothing disappears. `Json.normalize` makes these changes wherever a draft reads a
schema, and leaves data and unknown members alone.
-/

namespace SchemaAtlas

/-- Whether a draft reads values of a shape under a key by the entry. -/
def CatalogEntry.reads (entry : CatalogEntry) (draft : Draft) (key : String) (shape : Shape) :
    Bool :=
  entry.key = key && entry.appliesTo draft && entry.expects.accepts shape

/-- The entry by which a draft reads the value of a key. -/
def Catalog.entryFor? (draft : Draft) (key : String) (value : Json) : Option CatalogEntry :=
  entries.find? (·.reads draft key (Shape.of value))

/-- How a draft reads the value of a key. -/
def Catalog.reading? (draft : Draft) (key : String) (value : Json) : Option Reading :=
  (entryFor? draft key value).map (·.reading)

/-- The integer part of a number. -/
def Number.whole : Number → Int
  | .integer i => i
  | .float x => x.truncate

namespace Json

/-- A set of strings, in order. -/
def normalNames (elements : List Json) : Json :=
  .strings (Members.ofList (elements.filterMap string?))

/-- A count, as an integer. -/
def normalCount (n : Number) : Json := .number (.integer n.whole)

/-- The types that are named in a list. -/
def namedTypes (elements : List Json) : List Shape :=
  elements.filterMap fun value => value.string?.bind Shape.ofName?

/-- The names of types before schemas; a name alone stands for itself. -/
def normalTypes (types : List Shape) (schemas : List Json) : Json :=
  match types, schemas with
  | [shape], [] => .string shape.name
  | types, schemas => .array (types.map (fun shape => .string shape.name) ++ schemas)

mutual

/-- The normal form of a schema in a draft. -/
def normalize (draft : Draft) : Json → Json
  | .object members => .object (normalizeMembers draft members)
  | value => value

def normalizeMembers (draft : Draft) : List (String × Json) → List (String × Json)
  | [] => []
  | (key, value) :: rest =>
    match normalizeValue draft key (Catalog.reading? draft key value) value with
    | some normal => (key, normal) :: normalizeMembers draft rest
    | none => normalizeMembers draft rest

/-- The normal form of what stands under a key, if it says something. -/
def normalizeValue (draft : Draft) (key : String) (reading : Option Reading) : Json → Option Json
  | .object members =>
    match reading with
    | some .schema | some .items => some (.object (normalizeMembers draft members))
    | some .schemaList => some (.array [.object (normalizeMembers draft members)])
    | some .schemaMap => some (.object (normalizeEntries draft members))
    | some .dependencies => some (.object (normalizeDependencies draft members))
    | _ => some (.object members)
  | .array elements =>
    match reading with
    | some .schemaList | some .items => some (.array (normalizeElements draft elements))
    | some .types =>
      some (normalTypes (Members.ofList (namedTypes elements)) (normalizeSchemas draft elements))
    | some .stringSet => if elements.isEmpty then none else some (normalNames elements)
    | _ => some (.array elements)
  | .number n => some (if reading = some .nonNegativeInteger then normalCount n else .number n)
  | .string text => some (.string (if key = "$schema" then draft.metaSchema else text))
  | .bool b => if reading = some .limitFlag && !b then none else some (.bool b)
  | .null => some .null

def normalizeEntries (draft : Draft) : List (String × Json) → List (String × Json)
  | [] => []
  | (name, value) :: rest => (name, normalize draft value) :: normalizeEntries draft rest

def normalizeDependencies (draft : Draft) : List (String × Json) → List (String × Json)
  | [] => []
  | (name, value) :: rest =>
    (name, normalizeDependency draft value) :: normalizeDependencies draft rest

/-- A schema, or a set of properties, which a single one stands for. -/
def normalizeDependency (draft : Draft) : Json → Json
  | .object members => .object (normalizeMembers draft members)
  | .array elements => normalNames elements
  | .string property => .strings [property]
  | value => value

def normalizeElements (draft : Draft) : List Json → List Json
  | [] => []
  | value :: rest => normalize draft value :: normalizeElements draft rest

/-- The schemas in a list of types. -/
def normalizeSchemas (draft : Draft) : List Json → List Json
  | [] => []
  | .object members :: rest =>
    .object (normalizeMembers draft members) :: normalizeSchemas draft rest
  | _ :: rest => normalizeSchemas draft rest

end

variable {draft : Draft}

theorem normalizeElements_eq (elements : List Json) :
    normalizeElements draft elements = elements.map (normalize draft) := by
  induction elements with
  | nil => rfl
  | cons value rest ih => simp [normalizeElements, ih]

/-- A text is left alone wherever it does not name the draft. -/
theorem normalizeValue_string {key text : String} {reading : Option Reading}
    (h : key ≠ "$schema") :
    normalizeValue draft key reading (.string text) = some (.string text) := by
  rw [normalizeValue, if_neg h]

/-- Members lose their place only when nothing is left of them. -/
theorem keys_normalizeMembers (members : List (String × Json)) :
    (Entries.keys (normalizeMembers draft members)).Sublist (Entries.keys members) := by
  induction members with
  | nil => exact .slnil
  | cons member rest ih =>
    obtain ⟨key, value⟩ := member
    rw [normalizeMembers]
    split
    · exact ih.cons_cons key
    · exact ih.cons key

theorem sorted_normalizeMembers {members : List (String × Json)} (h : Entries.Sorted members) :
    Entries.Sorted (normalizeMembers draft members) :=
  List.pairwise_map.mp ((List.pairwise_map.mpr h).sublist (keys_normalizeMembers members))

theorem get?_normalizeMembers {members : List (String × Json)} (h : (Entries.keys members).Nodup)
    (key : String) :
    Entries.get? key (normalizeMembers draft members) = (Entries.get? key members).bind
      fun value => normalizeValue draft key (Catalog.reading? draft key value) value := by
  induction members with
  | nil => rfl
  | cons member rest ih =>
    obtain ⟨other, value⟩ := member
    obtain ⟨hnew, hrest⟩ := List.nodup_cons.mp h
    have ih := ih hrest
    rw [normalizeMembers]
    by_cases hkey : key = other
    · subst hkey
      rw [Entries.get?_eq_none.mpr hnew, Option.bind_none] at ih
      cases hvalue : normalizeValue draft key (Catalog.reading? draft key value) value with
      | none => simpa [Entries.get?, hvalue] using ih
      | some normal => simp [Entries.get?, hvalue]
    · cases hvalue : normalizeValue draft other (Catalog.reading? draft other value) value with
      | none => simpa [Entries.get?, hkey] using ih
      | some normal => simpa [Entries.get?, hkey] using ih

end Json
end SchemaAtlas
