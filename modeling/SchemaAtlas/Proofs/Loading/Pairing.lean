import SchemaAtlas.Proofs.Loading.Keywords
import SchemaAtlas.Proofs.Spelling.Keywords

/-!
# Reading an object in two loads

The members of one object are read in two loads, with a loader of nested schemas each. Two
readings correspond if they take the same data from the object, and nested schemas that look the
same. `Pairing` lists what a relation between two readings needs for this to follow of the
reading of a value from the readings of the schemas inside: one lemma for each function that
reads a part of an object.
-/

namespace SchemaAtlas

variable {γ : Type}

/-! ## Reflexive relations -/

section

variable {α β κ : Type} (f : α → β) (R : α → α → Prop)

instance Same.instRefl : Std.Refl (Same f) := ⟨fun _ => rfl⟩

instance instReflOptionRel [Std.Refl R] : Std.Refl (Option.Rel R) where
  refl
    | none => .none
    | some a => .some (Std.Refl.refl a)

instance Entries.Related.instRefl [Std.Refl R] :
    Std.Refl (Entries.Related R : List (κ × α) → List (κ × α) → Prop) :=
  ⟨fun _ => List.forall₂_same.mpr fun entry _ => ⟨rfl, Std.Refl.refl entry.2⟩⟩

end

/-! ## Builders -/

/-- Builders of a node with the same data and keywords whose schemas look the same. -/
structure Builder.Matches (view : Schema → γ) (location : Location) (draft draft' : Draft)
    (b c : Builder) : Prop where
  location : b.location = location ∧ c.location = location
  draft : b.draft = draft ∧ c.draft = draft'
  keywords : Entries.Related (Same (Keyword.map view)) b.keywords c.keywords
  extra : b.extra = c.extra
  reference : b.reference = none ∧ c.reference = none
  boolean : b.boolean = none ∧ c.boolean = none

namespace Builder.Matches

variable {view : Schema → γ} {location : Location} {draft draft' : Draft} {b c : Builder}

theorem new : Matches view location draft draft' (.new location draft) (.new location draft') :=
  ⟨⟨rfl, rfl⟩, ⟨rfl, rfl⟩, .nil, rfl, ⟨rfl, rfl⟩, ⟨rfl, rfl⟩⟩

variable (h : b.Matches view location draft draft' c)

include h

theorem put (kind : KeywordKind) {k l : Keyword Schema} (hk : Same (Keyword.map view) k l) :
    (b.put kind k).Matches view location draft draft' (c.put kind l) where
  location := h.location
  draft := h.draft
  keywords := h.keywords.insert kind hk
  extra := h.extra
  reference := h.reference
  boolean := by simp [Builder.put, h.boolean]

theorem putExtra (key : String) (value : Json) :
    (b.putExtra key value).Matches view location draft draft' (c.putExtra key value) :=
  ⟨h.location, h.draft, h.keywords, congrArg (Entries.insert key value) h.extra, h.reference,
    h.boolean⟩

theorem limit (kind : KeywordKind) :
    (b.keyword? kind).bind Keyword.limit? = (c.keyword? kind).bind Keyword.limit? := by
  have hlimit : ∀ k : Keyword Schema, (k.map view).limit? = k.limit? := fun k => by cases k <;> rfl
  refine bind_eq_of_rel (h.keywords.get? kind) fun k l _ _ hkl => ?_
  exact (hlimit k).symm.trans ((congrArg Keyword.limit? hkl).trans (hlimit l))

theorem body : b.body.map view = c.body.map view := by
  simp only [Builder.body, h.reference, h.boolean, h.extra, Body.map, h.keywords.mapValues_eq]

end Builder.Matches

namespace Digest

open LoadM

/-- The same types beside schemas that look the same. -/
def TypesMatch (view : Schema → γ) (a b : List Shape × List Schema) : Prop :=
  a.1 = b.1 ∧ Same (List.map view) a.2 b.2

instance TypesMatch.instRefl (view : Schema → γ) : Std.Refl (TypesMatch view) := ⟨fun _ => ⟨rfl, rfl⟩⟩

/-- The entries of a list of types, which a single one may stand for. -/
def typePlaces (site : Site) : List (Location × Json) :=
  match site.value with
  | .array elements => elementPlaces site.location 0 elements
  | value => [(site.location, value)]

/-- In the third draft the entries that are objects are schemas. -/
theorem mem_nestedIn_types {active : DraftSet} {site : Site} {place : Location × Json}
    (hthird : active.contains .draft3 = true) (hp : place ∈ typePlaces site)
    (hshape : Shape.of place.2 = .object) :
    place ∈ nestedIn active .types site.location site.value := by
  unfold typePlaces at hp
  cases hv : site.value with
  | array elements =>
    rw [hv] at hp
    simp only [nestedIn, hthird, if_true]
    exact List.mem_filter.mpr ⟨hp, by simpa using hshape⟩
  | null | bool | number | string | object =>
    rw [hv] at hp
    have hplace := List.mem_singleton.mp hp
    subst hplace
    simp only at hshape
    simp [nestedIn, hthird, hshape]

/-- What a relation between the readings of two loads needs. The places in `asked` are those at
which schemas may be loaded. -/
structure Pairing (view : Schema → γ)
    (R : (α : Type) → (α → α → Prop) → LoadM α → LoadM α → Prop) (load other : Loader)
    (draft draft' : Draft) (asked : Location → Json → Prop) : Prop where
  pure : ∀ {α : Type} {P : α → α → Prop} {a b : α}, P a b → R α P (pure a) (pure b)
  bind : ∀ {α β : Type} {P : α → α → Prop} [Std.Refl P] {Q : β → β → Prop} {x y : LoadM α}
    {f g : α → LoadM β}, R α P x y → (∀ {a b}, P a b → R β Q (f a) (g b)) →
    R β Q (x >>= f) (y >>= g)
  issue : ∀ {severity : Severity} {kind : IssueKind} {location : Location} {message : String},
    R Unit Eq (issue severity kind location message) (issue severity kind location message)
  malformed : ∀ {kind : IssueKind} {location : Location} {message : String},
    R Unit Eq (malformed kind location message) (malformed kind location message)
  boolean : ∀ {location : Location} {b : Bool},
    R Schema (Same view) (onStore fun store => store.add location draft (.boolean b))
      (onStore fun store => store.add location draft' (.boolean b))
  load : ∀ {location : Location} {value : Json}, asked location value →
    R (Option Schema) (Option.Rel (Same view)) (load location value) (other location value)

namespace Pairing

variable {view : Schema → γ} {R : (α : Type) → (α → α → Prop) → LoadM α → LoadM α → Prop}
variable {load other : Loader} {draft draft' : Draft} {asked : Location → Json → Prop}
variable {α β : Type} {P : α → α → Prop} {Q : β → β → Prop} {x y : LoadM α}
variable {location inner : Location} {site : Site} {active active' : DraftSet} {b c : Builder}
variable (hR : Pairing view R load other draft draft' asked)

include hR

/-- A reading that is followed by a computation without steps. -/
theorem map [Std.Refl P] {f g : α → β} (h : R α P x y) (hf : ∀ {a b}, P a b → Q (f a) (g b)) :
    R β Q (do return f (← x)) (do return g (← y)) :=
  hR.bind h fun hab => hR.pure (hf hab)

/-! ## Plain values -/

theorem checkPattern {pattern : String} :
    R Unit Eq (checkPattern location pattern) (checkPattern location pattern) := by
  unfold Digest.checkPattern
  split
  · exact hR.pure rfl
  · exact hR.issue

theorem names {index : Nat} {elements : List Json} :
    R _ Eq (names location index elements) (names location index elements) := by
  induction elements generalizing index with
  | nil => exact hR.pure rfl
  | cons value rest ih =>
    unfold Digest.names
    cases value with
    | string name => exact hR.map ih fun heq => congrArg (name :: ·) heq
    | null | bool | number | array | object => exact hR.bind hR.malformed fun _ => ih

theorem uriText {text : String} :
    R _ (Same (Keyword.map view)) (uriText site text) (uriText site text) := by
  unfold Digest.uriText
  cases site.location.resolve text with
  | ok uri => exact hR.pure rfl
  | error fault => exact hR.bind hR.malformed fun _ => hR.pure rfl

theorem positiveNumber {n : Number} :
    R _ (Option.Rel (Same (Keyword.map view))) (positiveNumber site n) (positiveNumber site n) := by
  unfold Digest.positiveNumber
  split
  · exact hR.pure (.some rfl)
  · exact hR.bind hR.malformed fun _ => hR.pure .none

theorem count {n : Number} :
    R _ (Option.Rel (Same (Keyword.map view))) (count site n) (count site n) := by
  unfold Digest.count
  cases n.count? with
  | some k => exact hR.pure (.some rfl)
  | none => exact hR.bind hR.malformed fun _ => hR.pure .none

theorem limitFlag : R Unit Eq (limitFlag site) (limitFlag site) := by
  unfold Digest.limitFlag
  dsimp only
  split
  · exact hR.pure rfl
  · exact hR.malformed

theorem forM_malformed {kind : IssueKind} {message : CatalogEntry → String}
    (entries : List CatalogEntry) :
    R Unit Eq (entries.forM fun entry => LoadM.malformed kind location (message entry))
      (entries.forM fun entry => LoadM.malformed kind location (message entry)) := by
  induction entries with
  | nil => exact hR.pure rfl
  | cons entry rest ih => exact hR.bind hR.malformed fun _ => ih

/-! ## Schemas -/

theorem schemas {index : Nat} {elements : List Json}
    (ha : ∀ place ∈ elementPlaces location index elements, asked place.1 place.2) :
    R _ (Option.Rel (Same (List.map view))) (schemas load location index elements)
      (schemas other location index elements) := by
  induction elements generalizing index with
  | nil => exact hR.pure (.some rfl)
  | cons value rest ih =>
    rw [elementPlaces_cons] at ha
    refine hR.bind (hR.load (ha _ List.mem_cons_self)) ?_
    rintro _ _ (hab | _)
    · refine hR.map (ih fun place hp => ha place (List.mem_cons_of_mem _ hp)) ?_
      rintro _ _ (hlist | _)
      · exact .some (congrArg₂ List.cons hab hlist)
      · exact .none
    · exact hR.pure .none

/-- One schema that becomes a keyword. -/
theorem one {value : Json} (form : Schema → Keyword Schema)
    (hform : ∀ {s t}, Same view s t → Same (Keyword.map view) (form s) (form t))
    (ha : asked location value) :
    R _ (Option.Rel (Same (Keyword.map view))) (do return (← load location value).map form)
      (do return (← other location value).map form) := by
  refine hR.map (hR.load ha) ?_
  rintro _ _ (hab | _)
  · exact .some (hform hab)
  · exact .none

/-- Schemas that become a keyword as a whole. -/
theorem all {elements : List Json} (form : List Schema → Keyword Schema)
    (hform : ∀ {ss ts}, Same (List.map view) ss ts → Same (Keyword.map view) (form ss) (form ts))
    (ha : ∀ place ∈ elementPlaces location 0 elements, asked place.1 place.2) :
    R _ (Option.Rel (Same (Keyword.map view)))
      (do return (← Digest.schemas load location 0 elements).map form)
      (do return (← Digest.schemas other location 0 elements).map form) := by
  refine hR.map (hR.schemas ha) ?_
  rintro _ _ (hab | _)
  · exact .some (hform hab)
  · exact .none

theorem schemaList
    (ha : ∀ place ∈ nestedIn active .schemaList site.location site.value,
      asked place.1 place.2) :
    R _ (Option.Rel (Same (Keyword.map view))) (schemaList load site) (schemaList other site) := by
  unfold Digest.schemaList
  cases hv : site.value with
  | array elements =>
    rw [hv] at ha
    exact hR.all .schemaList (congrArg Keyword.schemaList) ha
  | object members =>
    rw [hv] at ha
    exact hR.one (fun s => .schemaList [s]) (congrArg fun s => Keyword.schemaList [s])
      (ha _ List.mem_cons_self)
  | null | bool | number | string => exact hR.pure .none

theorem items
    (ha : ∀ place ∈ nestedIn active .items site.location site.value, asked place.1 place.2) :
    R _ (Option.Rel (Same (Keyword.map view))) (items load site) (items other site) := by
  unfold Digest.items
  cases hv : site.value with
  | array elements =>
    rw [hv] at ha
    exact hR.all .tuple (congrArg Keyword.tuple) ha
  | object | bool | null | number | string =>
    rw [hv] at ha
    exact hR.one .items (congrArg Keyword.items) (ha _ List.mem_cons_self)

theorem schemaEntries {members : List (String × Json)}
    (ha : ∀ place ∈ memberPlaces site.location (members.filter (! ·.1.isEmpty)),
      asked place.1 place.2) :
    R _ (Entries.Related (Same view)) (schemaEntries load site members)
      (schemaEntries other site members) := by
  induction members with
  | nil => exact hR.pure .nil
  | cons member rest ih =>
    obtain ⟨name, value⟩ := member
    unfold Digest.schemaEntries
    by_cases hn : name.isEmpty
    · simp only [hn, if_true]
      exact hR.bind hR.malformed fun _ => ih (by simpa [hn] using ha)
    · have hrest := ih fun place hp => ha place (by
        simp only [memberPlaces, List.filter_cons, hn] at hp ⊢
        exact List.mem_cons_of_mem _ hp)
      have hhere : asked (site.location.child name) value :=
        ha (site.location.child name, value) (by simp [memberPlaces, hn])
      have hentry : ∀ {f g : Option Schema → LoadM (List (String × Schema))},
          R _ (Entries.Related (Same view)) (f none) (g none) →
          (∀ {a b}, Same view a b →
            R _ (Entries.Related (Same view)) (f (some a)) (g (some b))) →
          R _ (Entries.Related (Same view)) (load (site.location.child name) value >>= f)
            (other (site.location.child name) value >>= g) := by
        intro f g hnone hsome
        refine hR.bind (hR.load hhere) ?_
        rintro _ _ (hab | _)
        · exact hsome hab
        · exact hnone
      have hnamed : ∀ {a b}, Same view a b → R _ (Entries.Related (Same view))
          (do return (name, a) :: (← Digest.schemaEntries load site rest))
          (do return (name, b) :: (← Digest.schemaEntries other site rest)) :=
        fun hab => hR.map hrest fun hlist => .cons ⟨rfl, hab⟩ hlist
      simp only [hn, Bool.false_eq_true, if_false]
      split
      · exact hR.bind hR.checkPattern fun _ => hentry hrest hnamed
      · exact hentry hrest hnamed

theorem dependency {name : String} {value : Json}
    (ha : isSchemaDependency value → asked location value) :
    R _ (Option.Rel (Same (Dependency.map view))) (dependency load location name value)
      (dependency other location name value) := by
  have hone (hv : isSchemaDependency value) : R _ (Option.Rel (Same (Dependency.map view)))
      (do return (← load location value).map Dependency.schema)
      (do return (← other location value).map Dependency.schema) := by
    refine hR.map (hR.load (ha hv)) ?_
    rintro _ _ (hab | _)
    · exact .some (congrArg Dependency.schema hab)
    · exact .none
  unfold Digest.dependency
  cases value with
  | array elements =>
    refine hR.map hR.names ?_
    rintro found _ rfl
    exact .some rfl
  | string property => exact hR.pure (.some rfl)
  | object | bool => exact hone rfl
  | null | number => exact hR.bind hR.malformed fun _ => hR.pure .none

theorem dependencyEntries {members : List (String × Json)}
    (ha : ∀ place ∈ memberPlaces location
      (members.filter fun entry => isSchemaDependency entry.2), asked place.1 place.2) :
    R _ (Entries.Related (Same (Dependency.map view))) (dependencyEntries load location members)
      (dependencyEntries other location members) := by
  induction members with
  | nil => exact hR.pure .nil
  | cons member rest ih =>
    obtain ⟨name, value⟩ := member
    unfold Digest.dependencyEntries
    have hhere : isSchemaDependency value → asked (location.child name) value :=
      fun hv => ha (location.child name, value) (by simp [memberPlaces, hv])
    have hrest := ih (by
      intro place hp
      apply ha place
      simp only [memberPlaces, List.filter_cons] at hp ⊢
      split
      · exact List.mem_cons_of_mem _ hp
      · exact hp)
    refine hR.bind (hR.dependency hhere) ?_
    rintro _ _ (hab | _)
    · exact hR.map hrest fun hlist => .cons ⟨rfl, hab⟩ hlist
    · exact hrest

theorem typeEntries {thirdDraft : Bool} {entries : List (Location × Json)}
    (ha : ∀ place ∈ entries, thirdDraft → Shape.of place.2 = .object → asked place.1 place.2) :
    R _ (TypesMatch view) (typeEntries load thirdDraft entries)
      (typeEntries other thirdDraft entries) := by
  induction entries with
  | nil => exact hR.pure ⟨rfl, rfl⟩
  | cons place rest ih =>
    obtain ⟨location, value⟩ := place
    have hrest := ih fun place hp => ha place (List.mem_cons_of_mem _ hp)
    unfold Digest.typeEntries
    split
    · rename_i hv
      simp only [Bool.and_eq_true, decide_eq_true_eq] at hv
      refine hR.bind (hR.load (ha (location, value) List.mem_cons_self hv.1 hv.2)) fun hab => ?_
      refine hR.map hrest fun hfound => ⟨hfound.1, ?_⟩
      cases hab with
      | none => exact hfound.2
      | some hab => exact congrArg₂ List.cons hab hfound.2
    · split
      · rename_i shape _
        exact hR.map hrest fun hfound => ⟨congrArg (shape :: ·) hfound.1, hfound.2⟩
      · exact hR.bind hR.malformed fun _ => hrest

/-- The types of a keyword, if their entries are read alike in the drafts of both loads. -/
theorem types
    (h : R _ (TypesMatch view) (Digest.typeEntries load (active.contains .draft3) (typePlaces site))
      (Digest.typeEntries other (active'.contains .draft3) (typePlaces site))) :
    R _ (Option.Rel (Same (Keyword.map view))) (types load active site)
      (types other active' site) := by
  refine hR.map h ?_
  rintro ⟨shapes, schemas⟩ ⟨_, schemas'⟩ ⟨rfl, hschemas⟩
  refine .some ?_
  cases schemas with
  | nil =>
    cases schemas' with
    | nil => rfl
    | cons => cases hschemas
  | cons =>
    cases schemas' with
    | nil => cases hschemas
    | cons => exact congrArg (Keyword.union _) hschemas

theorem keyword (hb : b.Matches view inner draft draft' c)
    (htypes : site.entry.reading = .types → R _ (Option.Rel (Same (Keyword.map view)))
      (Digest.types load active site) (Digest.types other active' site))
    (hlimit : ∀ limit n, limitWith active site limit n = limitWith active' site limit n)
    (ha : ∀ place ∈ nestedIn active site.entry.reading site.location site.value,
      asked place.1 place.2) :
    R _ (Option.Rel (Same (Keyword.map view))) (keyword load active b site)
      (keyword other active' c site) := by
  have hschema (hr : site.entry.reading = .schema) : R _ (Option.Rel (Same (Keyword.map view)))
      (do return (← load site.location site.value).map Keyword.schema)
      (do return (← other site.location site.value).map Keyword.schema) := by
    rw [hr] at ha
    exact hR.one .schema (congrArg Keyword.schema) (ha _ List.mem_cons_self)
  unfold Digest.keyword
  split
  · rename_i bool hr hv
    split
    · rw [hb.draft.1, hb.draft.2]
      exact hR.map hR.boolean fun hab => .some (congrArg Keyword.schema hab)
    · exact hschema hr
  · rename_i hr _
    exact hschema hr
  · rename_i hr
    rw [hr] at ha
    exact hR.schemaList ha
  · rename_i members hr hv
    rw [hr, hv] at ha
    exact hR.map (hR.schemaEntries ha) fun hab => .some (congrArg Keyword.schemaMap hab.mapValues_eq)
  · rename_i hr
    rw [hr] at ha
    exact hR.items ha
  · rename_i members hr hv
    rw [hr, hv] at ha
    exact hR.map (hR.dependencyEntries ha) fun hab =>
      .some (congrArg Keyword.dependencies hab.mapValues_eq)
  · exact hR.pure (.some rfl)
  · exact hR.bind hR.checkPattern fun _ => hR.pure (.some rfl)
  · exact hR.map hR.uriText fun hab => .some hab
  · exact hR.positiveNumber
  · exact hR.count
  · exact hR.pure (.some rfl)
  · exact hR.map hR.names fun hab => .some (hab ▸ rfl)
  · rename_i hr
    exact htypes hr
  · simp only [hb.limit, hlimit]
    exact hR.pure (.some rfl)
  · exact hR.bind hR.limitFlag fun _ => hR.pure .none
  · exact hR.pure (.some rfl)
  · exact hR.pure (.some rfl)
  · exact hR.pure .none

/-! ## Members -/

theorem tryCandidates {object : List (String × Json)} {value : Json}
    {candidates : List CatalogEntry} (hb : b.Matches view inner draft draft' c)
    (hkeyword : ∀ entry ∈ candidates, R _ (Option.Rel (Same (Keyword.map view)))
      (Digest.keyword load active b ⟨entry, value, object, location⟩)
      (Digest.keyword other active' c ⟨entry, value, object, location⟩)) :
    R _ (Builder.Matches view inner draft draft')
      (tryCandidates load active object location value b candidates)
      (tryCandidates other active' object location value c candidates) := by
  induction candidates with
  | nil => exact hR.pure hb
  | cons entry rest ih =>
    unfold Digest.tryCandidates
    refine hR.bind (hkeyword entry List.mem_cons_self) ?_
    rintro _ _ (hk | _)
    · exact hR.pure (hb.put entry.kind hk)
    · exact ih fun e he => hkeyword e (List.mem_cons_of_mem _ he)

/-- A member that both loads read in the same drafts. What becomes of a key of no keyword is the one
thing that depends on the policy of a session. -/
theorem member {object : List (String × Json)} {key : String} {value : Json}
    (hstrict : ∀ {α : Type} {P : α → α → Prop} {f g : Bool → LoadM α},
      (∀ strict, R α P (f strict) (g strict)) →
        R α P (do f (← get).policy.strict) (do g (← get).policy.strict))
    (ha : ∀ place ∈ nested active inner object, asked place.1 place.2)
    (hm : (key, value) ∈ object) (hb : b.Matches view inner draft draft' c) :
    R _ (Builder.Matches view inner draft draft') (member load active object key value b)
      (member other active object key value c) := by
  unfold Digest.member
  dsimp only
  rw [hb.location.1, hb.location.2]
  split
  · refine @hstrict _ _
      (fun strict => if strict = true then do
        LoadM.issue .error .keywordNotFound (inner.child key)
          s!"'{key}' is not a keyword of {active.debugText}"
        return b else return b.putExtra key value)
      (fun strict => if strict = true then do
        LoadM.issue .error .keywordNotFound (inner.child key)
          s!"'{key}' is not a keyword of {active.debugText}"
        return c else return c.putExtra key value) fun strict => ?_
    cases strict with
    | true => exact hR.bind hR.issue fun _ => hR.pure hb
    | false => exact hR.pure (hb.putExtra key value)
  · split
    · exact hR.bind (hR.forM_malformed _) fun _ => hR.pure hb
    · refine hR.tryCandidates hb fun entry he => ?_
      have hplaces : ∀ place ∈ nestedIn active entry.reading (inner.child key) value,
          asked place.1 place.2 := fun place hp => ha place (mem_nested hm he hp)
      refine hR.keyword hb (fun hr => ?_) (fun _ _ => rfl) hplaces
      rw [hr] at hplaces
      exact hR.types (hR.typeEntries fun place hp hthird hshape =>
        hplaces place (mem_nestedIn_types hthird hp hshape))

end Pairing
end Digest
end SchemaAtlas
