import SchemaAtlas.Proofs.Spelling.Alike

/-!
# Keywords of objects that respell each other

The keywords of two objects that differ in the spelling of references only are read alike, if
the schemas inside are: one lemma for each function that reads a part of an object.
-/

namespace SchemaAtlas

open Json

/-! ## Results -/

variable {α : Type}

/-- Builders of objects with keywords that look the same. -/
structure Builder.Resembles (view : Schema → α) (b c : Builder) : Prop where
  location : b.location = c.location
  draft : b.draft = c.draft
  keywords : Entries.Related (Same (Keyword.sketch view)) b.keywords c.keywords
  plain : b.reference = none ∧ b.boolean = none
  plain' : c.reference = none ∧ c.boolean = none

namespace Builder.Resembles

variable {view : Schema → α} {b c : Builder} (h : b.Resembles view c)

include h

theorem put (kind : KeywordKind) {k l : Keyword Schema} (hk : k.sketch view = l.sketch view) :
    (b.put kind k).Resembles view (c.put kind l) where
  location := h.location
  draft := h.draft
  keywords := h.keywords.insert kind hk
  plain := ⟨h.plain.1, by simp [Builder.put, h.plain.2]⟩
  plain' := ⟨h.plain'.1, by simp [Builder.put, h.plain'.2]⟩

theorem putExtra (key : String) (v w : Json) :
    (b.putExtra key v).Resembles view (c.putExtra key w) :=
  ⟨h.location, h.draft, h.keywords, h.plain, h.plain'⟩

theorem limit (kind : KeywordKind) :
    (b.keyword? kind).bind Keyword.limit? = (c.keyword? kind).bind Keyword.limit? := by
  have hfound := h.keywords.get? kind
  unfold Builder.keyword?
  revert hfound
  generalize Entries.get? kind b.keywords = found
  generalize Entries.get? kind c.keywords = found'
  rintro (hk | _)
  · exact (Keyword.limit?_sketch view _).symm.trans
      ((congrArg Keyword.limit? hk).trans (Keyword.limit?_sketch view _))
  · rfl

theorem body : b.body.sketch view = c.body.sketch view := by
  simp only [Builder.body, h.plain, h.plain', Body.sketch_object, h.keywords.mapValues_eq]

end Builder.Resembles

namespace Comparison

variable (C : Comparison α)

/-- A node that looks the same, if there is one. -/
abbrev schema? : Option Schema → Option Schema → Prop := Option.Rel (Same C.view)

/-- A keyword that looks the same, if there is one. -/
abbrev keyword? : Option (Keyword Schema) → Option (Keyword Schema) → Prop :=
  Option.Rel (Same (Keyword.sketch C.view))

abbrev builder : Builder → Builder → Prop := Builder.Resembles C.view

end Comparison

namespace Digest

open LoadM

variable {C : Comparison α}

/-! ## Plain values -/

theorem alike_checkPattern {location : Location} {pattern : String} :
    Alike C Eq (checkPattern location pattern) (checkPattern location pattern) := by
  unfold checkPattern
  split
  · exact .pure rfl
  · exact .issue

theorem alike_names (location : Location) (index : Nat) {xs ys : List Json}
    (h : RespellsElements xs ys) :
    Alike C Eq (names location index xs) (names location index ys) := by
  induction h using RespellsElements.along generalizing index with
  | nil => exact .pure rfl
  | cons h _ ih =>
    have hrest := ih (index + 1)
    unfold names
    cases h with
    | string => exact hrest.map fun heq => congrArg _ heq
    | null | bool | number | array | object => exact Alike.malformed.bind fun _ => hrest

theorem alike_uriText {entry : CatalogEntry} {v w : Json} {ms ns : List (String × Json)}
    {location : Location} {text : String} :
    Alike C Eq (uriText ⟨entry, v, ms, location⟩ text) (uriText ⟨entry, w, ns, location⟩ text) := by
  unfold uriText
  dsimp only
  cases location.resolve text with
  | ok uri => exact .pure rfl
  | error fault => exact Alike.malformed.bind fun _ => .pure rfl

theorem alike_positiveNumber {site site' : Site} {n : Number} :
    Alike C C.keyword? (positiveNumber site n) (positiveNumber site' n) := by
  unfold positiveNumber
  split
  · exact .pure (.some rfl)
  · exact Alike.malformed.bind fun _ => .pure .none

theorem alike_count {site site' : Site} {n : Number} :
    Alike C C.keyword? (count site n) (count site' n) := by
  unfold count
  cases n.count? with
  | some k => exact .pure (.some rfl)
  | none => exact Alike.malformed.bind fun _ => .pure .none

theorem alike_limitFlag {entry : CatalogEntry} {v w : Json} {ms ns : List (String × Json)}
    {location : Location} (h : RespellsMembers ms ns) :
    Alike C Eq (limitFlag ⟨entry, v, ms, location⟩) (limitFlag ⟨entry, w, ns, location⟩) := by
  have hkey : boundKey entry.kind ≠ "$ref" := by
    unfold boundKey
    split <;> decide
  unfold limitFlag
  dsimp only
  rw [(h.found _).bind hkey Respells.number?]
  split
  · exact .pure rfl
  · exact .malformed

theorem limitWith_respelled {active : DraftSet} {entry : CatalogEntry} {v w : Json}
    {ms ns : List (String × Json)} {location : Location} (h : RespellsMembers ms ns)
    (limit : Limit) (n : Number) :
    limitWith active ⟨entry, v, ms, location⟩ limit n =
      limitWith active ⟨entry, w, ns, location⟩ limit n := by
  have hkey : exclusiveKey entry.kind ≠ "$ref" := by
    unfold exclusiveKey
    split <;> decide
  unfold limitWith
  dsimp only
  rw [(h.found _).bind hkey Respells.bool?]

/-! ## Schemas -/

theorem typePlaces_related (location : Location) : {xs ys : List Json} → (index : Nat) →
    RespellsElements xs ys → Entries.Related Json.Respells
      ((xs.zipIdx index).map fun (value, i) => (location.childIndex i, value))
      ((ys.zipIdx index).map fun (value, i) => (location.childIndex i, value))
  | _, _, _, .nil => .nil
  | _, _, index, .cons h hs => .cons ⟨rfl, h⟩ (typePlaces_related location (index + 1) hs)

/-- Loaders that read alike what resembles each other. -/
def LoadsAlike (C : Comparison α) (load other : Loader) : Prop :=
  ∀ (location : Location) {v w : Json}, Resembles v w →
    Alike C C.schema? (load location v) (other location w)

section

variable {load other : Loader} (hload : LoadsAlike C load other) {v w : Json}
variable {xs ys : List Json} {ms ns : List (String × Json)} {entry : CatalogEntry}
variable {location : Location}

include hload

theorem alike_schemas (location : Location) (index : Nat) {xs ys : List Json}
    (h : RespellsElements xs ys) : Alike C (Option.Rel (Same (List.map C.view)))
      (schemas load location index xs) (schemas other location index ys) := by
  induction h using RespellsElements.along generalizing index with
  | nil => exact .pure (.some rfl)
  | cons h _ ih =>
    have hrest := ih (index + 1)
    refine (hload _ (.respells h)).bind ?_
    rintro _ _ (hab | _)
    · refine hrest.map ?_
      rintro _ _ (hlist | _)
      · exact .some (congrArg₂ List.cons hab hlist)
      · exact .none
    · exact .pure .none

/-- One schema that becomes a keyword. -/
theorem alike_one (form : Schema → Keyword Schema)
    (hform : ∀ {a b}, Same C.view a b → Same (Keyword.sketch C.view) (form a) (form b))
    (h : Resembles v w) :
    Alike C C.keyword? (do return (← load location v).map form)
      (do return (← other location w).map form) := by
  refine (hload _ h).map ?_
  rintro _ _ (hab | _)
  · exact .some (hform hab)
  · exact .none

/-- Schemas that become a keyword as a whole. -/
theorem alike_all (form : List Schema → Keyword Schema)
    (hform : ∀ {a b : List Schema}, a.map C.view = b.map C.view →
      (form a).sketch C.view = (form b).sketch C.view) (h : RespellsElements xs ys) :
    Alike C C.keyword?
      (do return (← schemas load location 0 xs).map form)
      (do return (← schemas other location 0 ys).map form) := by
  refine (alike_schemas hload location 0 h).map ?_
  rintro _ _ (hab | _)
  · exact .some (hform hab)
  · exact .none

theorem alike_schemaList (h : v.Respells w) :
    Alike C C.keyword? (schemaList load ⟨entry, v, ms, location⟩)
      (schemaList other ⟨entry, w, ns, location⟩) := by
  unfold schemaList
  cases h with
  | array h => exact alike_all hload .schemaList (congrArg Keyword.schemaList) h
  | object h =>
    exact alike_one hload (fun s => .schemaList [s]) (congrArg fun s => Keyword.schemaList [s])
      (.respells (.object h))
  | null | bool | number | string => exact .pure .none

theorem alike_items (h : v.Respells w) :
    Alike C C.keyword? (items load ⟨entry, v, ms, location⟩)
      (items other ⟨entry, w, ns, location⟩) := by
  have hone : Alike C C.keyword?
      (do return (← load location v).map Keyword.items)
      (do return (← other location w).map Keyword.items) :=
    alike_one hload .items (congrArg Keyword.items) (.respells h)
  unfold items
  cases h with
  | array h => exact alike_all hload .tuple (congrArg Keyword.tuple) h
  | null | bool | number | string | object => exact hone

theorem alike_schemaEntries (h : Entries.Related Resembles ms ns) {v w : Json}
    {object object' : List (String × Json)} :
    Alike C (Entries.Related (Same C.view))
      (schemaEntries load ⟨entry, v, object, location⟩ ms)
      (schemaEntries other ⟨entry, w, object', location⟩ ns) := by
  induction h with
  | nil => exact .pure .nil
  | @cons member member' rest rest' hmember _ ih =>
    obtain ⟨name, value⟩ := member
    obtain ⟨name', value'⟩ := member'
    obtain ⟨hname, hvalue⟩ := hmember
    cases hname
    have hentry : ∀ {f g : Option Schema → LoadM (List (String × Schema))},
        Alike C (Entries.Related (Same C.view)) (f none) (g none) →
        (∀ {a b}, Same C.view a b →
          Alike C (Entries.Related (Same C.view)) (f (some a)) (g (some b))) →
        Alike C (Entries.Related (Same C.view)) (load (location.child name) value >>= f)
          (other (location.child name) value' >>= g) := by
      intro f g hnone hsome
      refine (hload _ hvalue).bind ?_
      rintro _ _ (hab | _)
      · exact hsome hab
      · exact hnone
    have hnamed : ∀ {a b}, Same C.view a b → Alike C (Entries.Related (Same C.view))
        (do return (name, a) :: (← schemaEntries load ⟨entry, v, object, location⟩ rest))
        (do return (name, b) :: (← schemaEntries other ⟨entry, w, object', location⟩ rest')) :=
      fun hab => ih.map fun hrest => .cons ⟨rfl, hab⟩ hrest
    unfold schemaEntries
    split
    · exact Alike.malformed.bind fun _ => ih
    · dsimp only
      split
      · exact alike_checkPattern.bind fun _ => hentry ih hnamed
      · exact hentry ih hnamed

theorem alike_dependency {name : String} (h : Resembles v w) :
    Alike C (Option.Rel (Same (Dependency.sketch C.view))) (dependency load location name v)
      (dependency other location name w) := by
  have hschema : Alike C (Option.Rel (Same (Dependency.sketch C.view)))
      (do return (← load location v).map Dependency.schema)
      (do return (← other location w).map Dependency.schema) := by
    refine (hload _ h).map ?_
    rintro _ _ (hab | _)
    · exact .some (congrArg Dependency.schema hab)
    · exact .none
  unfold dependency
  cases h with
  | strings => exact .pure (.some rfl)
  | respells h =>
    cases h with
    | array h => exact (alike_names location 0 h).map fun _ => .some rfl
    | string => exact .pure (.some rfl)
    | bool | object => exact hschema
    | null | number => exact Alike.malformed.bind fun _ => .pure .none

theorem alike_dependencyEntries (h : Entries.Related Resembles ms ns) :
    Alike C (Entries.Related (Same (Dependency.sketch C.view))) (dependencyEntries load location ms)
      (dependencyEntries other location ns) := by
  induction h with
  | nil => exact .pure .nil
  | @cons member member' rest rest' hmember _ ih =>
    obtain ⟨name, value⟩ := member
    obtain ⟨name', value'⟩ := member'
    obtain ⟨hname, hvalue⟩ := hmember
    cases hname
    unfold dependencyEntries
    refine (alike_dependency hload hvalue).bind ?_
    rintro _ _ (hab | _)
    · exact ih.map fun hrest => .cons ⟨rfl, hab⟩ hrest
    · exact ih

/-- The same types beside schemas that look the same. -/
def TypesAlike (C : Comparison α) (a b : List Shape × List Schema) : Prop :=
  a.1 = b.1 ∧ a.2.map C.view = b.2.map C.view

theorem alike_typeEntries {thirdDraft : Bool} {entries entries' : List (Location × Json)}
    (h : Entries.Related Json.Respells entries entries') :
    Alike C (TypesAlike C) (typeEntries load thirdDraft entries)
      (typeEntries other thirdDraft entries') := by
  induction h with
  | nil => exact .pure ⟨rfl, rfl⟩
  | @cons place place' rest rest' hplace _ ih =>
    obtain ⟨location, value⟩ := place
    obtain ⟨location', value'⟩ := place'
    obtain ⟨hlocation, hvalue⟩ := hplace
    cases hlocation
    unfold typeEntries
    rw [(Resembles.respells hvalue).shape, hvalue.string?]
    split
    · refine (hload _ (.respells hvalue)).bind fun {a b} hab => ih.bind ?_
      rintro ⟨shapes, schemas⟩ ⟨shapes', schemas'⟩ ⟨hshapes, hschemas⟩
      refine .pure ⟨hshapes, ?_⟩
      rw [List.map_append, List.map_append, hschemas]
      cases hab with
      | none => rfl
      | some hab => exact congrArg (· :: _) hab
    · cases (value'.string?.bind Shape.ofName?).filter fun t => t ≠ .any || thirdDraft with
      | some shape =>
        refine ih.bind ?_
        rintro ⟨shapes, schemas⟩ ⟨shapes', schemas'⟩ ⟨hshapes, hschemas⟩
        exact .pure ⟨congrArg (shape :: ·) hshapes, hschemas⟩
      | none => exact Alike.malformed.bind fun _ => ih

theorem alike_types {active : DraftSet} (h : v.Respells w) :
    Alike C C.keyword? (types load active ⟨entry, v, ms, location⟩)
      (types other active ⟨entry, w, ns, location⟩) := by
  have hread : ∀ {entries entries' : List (Location × Json)},
      Entries.Related Json.Respells entries entries' →
      Alike C C.keyword? (do
        let read ← typeEntries load (active.contains .draft3) entries
        return some (if read.2.isEmpty then .types (Members.ofList read.1)
          else .union (Members.ofList read.1) read.2)) (do
        let read ← typeEntries other (active.contains .draft3) entries'
        return some (if read.2.isEmpty then .types (Members.ofList read.1)
          else .union (Members.ofList read.1) read.2)) := by
    intro entries entries' hentries
    refine (alike_typeEntries hload hentries).bind ?_
    rintro ⟨shapes, schemas⟩ ⟨shapes', schemas'⟩ ⟨hshapes, hschemas⟩
    cases hshapes
    refine .pure (.some ?_)
    cases schemas with
    | nil =>
      cases schemas' with
      | nil => rfl
      | cons => cases hschemas
    | cons =>
      cases schemas' with
      | nil => cases hschemas
      | cons => exact congrArg (Keyword.union (Members.ofList shapes)) hschemas
  unfold types
  cases h with
  | array h => exact hread (typePlaces_related location 0 h)
  | null => exact hread (.cons ⟨rfl, .null⟩ .nil)
  | bool b => exact hread (.cons ⟨rfl, .bool b⟩ .nil)
  | number n => exact hread (.cons ⟨rfl, .number n⟩ .nil)
  | string s => exact hread (.cons ⟨rfl, .string s⟩ .nil)
  | object h => exact hread (.cons ⟨rfl, .object h⟩ .nil)

theorem alike_keyword {active : DraftSet} {b c : Builder} (hb : C.builder b c)
    (h : v.Respells w) (hms : RespellsMembers ms ns) :
    Alike C C.keyword? (keyword load active b ⟨entry, v, ms, location⟩)
      (keyword other active c ⟨entry, w, ns, location⟩) := by
  have hone : Alike C C.keyword?
      (do return (← load location v).map Keyword.schema)
      (do return (← other location w).map Keyword.schema) :=
    alike_one hload .schema (congrArg Keyword.schema) (.respells h)
  have hnone : Alike C C.keyword? (pure none) (pure none) := .pure .none
  unfold keyword
  dsimp only
  cases entry.reading with
  | schema =>
    cases h with
    | bool b =>
      dsimp only
      split
      · refine Alike.map (R := Same C.view) (.onStore fun hs => ?_)
          fun hab => .some (congrArg Keyword.schema hab)
        rw [hb.draft]
        exact C.boolean hs location c.draft _
      · exact hone
    | null | number | string | array | object => exact hone
  | schemaList => exact alike_schemaList hload h
  | schemaMap =>
    cases h with
    | object h =>
      exact (alike_schemaEntries hload h.related).map fun hab =>
        .some (congrArg Keyword.schemaMap hab.mapValues_eq)
    | null | bool | number | string | array => exact hnone
  | items => exact alike_items hload h
  | dependencies =>
    cases h with
    | object h =>
      refine (alike_dependencyEntries hload h.related).map fun hab => .some ?_
      rw [Same, Keyword.sketch_dependencies, Keyword.sketch_dependencies, hab.mapValues_eq]
    | null | bool | number | string | array => exact hnone
  | string =>
    cases h with
    | string text => exact .pure (.some rfl)
    | null | bool | number | array | object => exact hnone
  | pattern =>
    cases h with
    | string text => exact alike_checkPattern.bind fun _ => .pure (.some rfl)
    | null | bool | number | array | object => exact hnone
  | uri =>
    cases h with
    | string text => exact alike_uriText.map fun hab => .some (congrArg (Keyword.sketch C.view) hab)
    | null | bool | number | array | object => exact hnone
  | positiveNumber =>
    cases h with
    | number n => exact alike_positiveNumber
    | null | bool | string | array | object => exact hnone
  | nonNegativeInteger =>
    cases h with
    | number n => exact alike_count
    | null | bool | string | array | object => exact hnone
  | boolean =>
    cases h with
    | bool b => exact .pure (.some rfl)
    | null | number | string | array | object => exact hnone
  | stringSet =>
    cases h with
    | array h =>
      exact (alike_names location 0 h).map fun hab =>
        .some (congrArg (fun list => (Keyword.names (Members.ofList list)).sketch C.view) hab)
    | null | bool | number | string | object => exact hnone
  | types => exact alike_types hload h
  | limitValue =>
    cases h with
    | number n =>
      dsimp only
      rw [hb.limit, limitWith_respelled hms]
      exact .pure (.some rfl)
    | null | bool | string | array | object => exact hnone
  | limitFlag => exact (alike_limitFlag hms).bind fun _ => hnone
  | json => exact .pure (.some rfl)
  | jsonList =>
    cases h with
    | array h => exact .pure (.some rfl)
    | null | bool | number | string | object => exact hnone

theorem alike_tryCandidates {active : DraftSet} {b c : Builder} (hb : C.builder b c)
    (h : v.Respells w) (hms : RespellsMembers ms ns) (candidates : List CatalogEntry) :
    Alike C C.builder (tryCandidates load active ms location v b candidates)
      (tryCandidates other active ns location w c candidates) := by
  induction candidates with
  | nil => exact .pure hb
  | cons entry rest ih =>
    unfold tryCandidates
    refine (alike_keyword hload hb h hms).bind ?_
    rintro _ _ (hab | _)
    · exact .pure (hb.put entry.kind hab)
    · exact ih

theorem alike_member {active : DraftSet} {b c : Builder} (hb : C.builder b c)
    (h : v.Respells w) (hms : RespellsMembers ms ns) (key : String) :
    Alike C C.builder (member load active ms key v b) (member other active ns key w c) := by
  unfold member
  rw [hb.location, (Resembles.respells h).shape]
  dsimp only
  split
  · refine .get_bind fun hs => ?_
    rw [C.policy hs]
    split
    · exact Alike.issue.bind fun _ => .pure hb
    · exact .pure (hb.putExtra key v w)
  · split
    · have hreports : ∀ entries : List CatalogEntry, Alike C Eq
          (entries.forM fun entry => LoadM.malformed .typeMismatch (c.location.child key)
            s!"'{key}' expects {entry.expects}, found {Shape.of w}")
          (entries.forM fun entry => LoadM.malformed .typeMismatch (c.location.child key)
            s!"'{key}' expects {entry.expects}, found {Shape.of w}") := by
        intro entries
        induction entries with
        | nil => exact .pure rfl
        | cons entry rest ih => exact Alike.malformed.bind fun _ => ih
      exact (hreports _).bind fun _ => .pure hb
    · exact alike_tryCandidates hload hb h hms _

/-- The members of objects that are no references are read alike. -/
theorem alike_members {active : DraftSet} {object object' : List (String × Json)}
    (hobject : RespellsMembers object object') {ms ns : List (String × Json)}
    (h : RespellsMembers ms ns) (href : Entries.get? "$ref" ms = none) {b c : Builder}
    (hb : C.builder b c) :
    Alike C C.builder (members load active object ms b) (members other active object' ns c) := by
  induction h using RespellsMembers.along generalizing b c with
  | nil => exact .pure hb
  | @cons key _ _ ms _ h _ ih =>
    have hrest : Entries.get? "$ref" ms = none := by
      simp only [Entries.get?] at href
      split at href
      · cases href
      · exact href
    exact (alike_member hload hb h hobject key).bind fun hab => ih hrest hab
  | reference => cases href

end

end Digest
end SchemaAtlas
