import SchemaAtlas.Proofs.Loading.Keywords

/-!
# Reading keywords with two loaders

The reading of an object's keywords calls the loader of nested schemas at nested places and
uses it in no other way. A relation between readings that holds of these calls, and that
sequences respect, therefore holds of the reading of a whole object; `Congruence.members`
puts this together from one lemma for each function.
-/

namespace SchemaAtlas
namespace Digest

open LoadM

/-- A relation between readings with two loaders that sequences respect. -/
structure Congruence (R : (α : Type) → LoadM α → LoadM α → Prop) (other load : Loader)
    (draft : Draft) (asked : Location → Json → Prop) : Prop where
  silent : ∀ {α : Type} {x : LoadM α} {held : α → List Schema} {lost : α → Prop},
    Gathers load draft (fun _ _ => False) False x [] held lost → R α x x
  boolean : ∀ {location : Location} {b : Bool}, asked location (.bool b) →
    R Schema (onStore fun store => store.add location draft (.boolean b))
      (onStore fun store => store.add location draft (.boolean b))
  load : ∀ {location : Location} {value : Json}, asked location value →
    R (Option Schema) (other location value) (load location value)
  bind : ∀ {α β : Type} {x y : LoadM α} {f g : α → LoadM β}, R α x y →
    (∀ s a s', Runs y s (.ok a) s' → R β (f a) (g a)) → R β (x >>= f) (y >>= g)

namespace Congruence

variable {R : (α : Type) → LoadM α → LoadM α → Prop} {other load : Loader} {draft : Draft}
variable {asked : Location → Json → Prop} (hR : Congruence R other load draft asked)

include hR

theorem pure {α : Type} (a : α) : R α (pure a) (pure a) := by
  have hg : Gathers load draft (fun _ _ => False) False (Pure.pure a : LoadM α) []
      (fun _ => []) (fun _ => False) := gathers_pure (by simp) (by simp)
  exact hR.silent hg

/-- A reading that is followed by a computation without steps. -/
theorem map {α β : Type} {x y : LoadM α} {f : α → β} (h : R α x y) :
    R β (do return f (← x)) (do return f (← y)) :=
  hR.bind h fun _ a _ _ => hR.pure (f a)

theorem schemas {location : Location} {index : Nat} {elements : List Json}
    (ha : ∀ place ∈ elementPlaces location index elements, asked place.1 place.2) :
    R _ (schemas other location index elements) (schemas load location index elements) := by
  induction elements generalizing index with
  | nil => exact hR.pure _
  | cons value rest ih =>
    rw [elementPlaces_cons] at ha
    refine hR.bind (hR.load (ha _ List.mem_cons_self)) ?_
    rintro _ (_ | schema) _ _
    · exact hR.pure _
    · exact hR.map (ih fun place hp => ha place (List.mem_cons_of_mem _ hp))

theorem schemaList {active : DraftSet} {site : Site}
    (ha : ∀ place ∈ nestedIn active .schemaList site.location site.value,
      asked place.1 place.2) : R _ (schemaList other site) (schemaList load site) := by
  unfold Digest.schemaList
  cases hv : site.value with
  | array elements =>
    rw [hv] at ha
    exact hR.map (hR.schemas ha)
  | object members =>
    rw [hv] at ha
    exact hR.map (hR.load (ha _ List.mem_cons_self))
  | null | bool | number | string => exact hR.pure none

theorem items {active : DraftSet} {site : Site}
    (ha : ∀ place ∈ nestedIn active .items site.location site.value, asked place.1 place.2) :
    R _ (items other site) (items load site) := by
  unfold Digest.items
  cases hv : site.value with
  | array elements =>
    rw [hv] at ha
    exact hR.map (hR.schemas ha)
  | object | bool | null | number | string =>
    rw [hv] at ha
    exact hR.map (hR.load (ha _ List.mem_cons_self))

theorem schemaEntries {site : Site} {members : List (String × Json)}
    (ha : ∀ place ∈ memberPlaces site.location (members.filter (! ·.1.isEmpty)),
      asked place.1 place.2) :
    R _ (schemaEntries other site members) (schemaEntries load site members) := by
  induction members with
  | nil => exact hR.pure _
  | cons member rest ih =>
    obtain ⟨name, value⟩ := member
    unfold Digest.schemaEntries
    by_cases hn : name.isEmpty
    · simp only [hn, if_true]
      refine hR.bind (hR.silent (gathers_malformed rfl)) ?_
      intro _ _ _ _
      apply ih
      simpa [hn] using ha
    · simp only [hn, Bool.false_eq_true, if_false]
      have hhere : asked (site.location.child name) value :=
        ha (site.location.child name, value) (by simp [memberPlaces, hn])
      have hrest := ih fun place hp => ha place (by
        simp only [memberPlaces, List.filter_cons, hn] at hp ⊢
        exact List.mem_cons_of_mem _ hp)
      have hload : ∀ {f g : Option Schema → LoadM (List (String × Schema))},
          R _ (f none) (g none) → (∀ schema, R _ (f (some schema)) (g (some schema))) →
          R _ (other (site.location.child name) value >>= f)
            (load (site.location.child name) value >>= g) := by
        intro f g hnone hsome
        refine hR.bind (hR.load hhere) ?_
        rintro _ (_ | schema) _ _
        · exact hnone
        · exact hsome schema
      split
      · refine hR.bind (hR.silent checkPattern_gathers) ?_
        intro _ _ _ _
        exact hload hrest fun _ => hR.map hrest
      · exact hload hrest fun _ => hR.map hrest

theorem dependency {location : Location} {name : String} {value : Json}
    (ha : isSchemaDependency value → asked location value) :
    R _ (dependency other location name value) (dependency load location name value) := by
  unfold Digest.dependency
  cases value with
  | array elements => exact hR.map (hR.silent names_gathers)
  | string property => exact hR.pure _
  | object | bool => exact hR.map (hR.load (ha rfl))
  | null | number =>
    exact hR.bind (hR.silent (gathers_malformed rfl)) fun _ _ _ _ => hR.pure none

theorem dependencyEntries {location : Location} {members : List (String × Json)}
    (ha : ∀ place ∈ memberPlaces location
      (members.filter fun entry => isSchemaDependency entry.2), asked place.1 place.2) :
    R _ (dependencyEntries other location members)
      (dependencyEntries load location members) := by
  induction members with
  | nil => exact hR.pure _
  | cons member rest ih =>
    obtain ⟨name, value⟩ := member
    unfold Digest.dependencyEntries
    have hhere : isSchemaDependency value → asked (location.child name) value :=
      fun hv => ha (location.child name, value) (by simp [memberPlaces, hv])
    have hrest := ih (by
      intro place hp
      apply ha place
      simp only [memberPlaces, List.filter_cons] at hp ⊢
      split
      · exact List.mem_cons_of_mem _ hp
      · exact hp)
    refine hR.bind (hR.dependency hhere) ?_
    rintro _ (_ | d) _ _
    · exact hrest
    · exact hR.map hrest

theorem typeEntries {thirdDraft : Bool} {entries : List (Location × Json)}
    (ha : ∀ place ∈ entries, thirdDraft → Shape.of place.2 = .object →
      asked place.1 place.2) :
    R _ (typeEntries other thirdDraft entries) (typeEntries load thirdDraft entries) := by
  induction entries with
  | nil => exact hR.pure _
  | cons place rest ih =>
    obtain ⟨location, value⟩ := place
    have hrest := ih fun place hp => ha place (List.mem_cons_of_mem _ hp)
    unfold Digest.typeEntries
    split
    · rename_i hv
      simp only [Bool.and_eq_true, decide_eq_true_eq] at hv
      exact hR.bind (hR.load (ha (location, value) List.mem_cons_self hv.1 hv.2))
        fun _ _ _ _ => hR.bind hrest fun _ _ _ _ => hR.pure _
    · split
      · exact hR.bind hrest fun _ _ _ _ => hR.pure _
      · exact hR.bind (hR.silent (gathers_malformed rfl)) fun _ _ _ _ => hrest

theorem types {active : DraftSet} {site : Site}
    (ha : ∀ place ∈ nestedIn active .types site.location site.value, asked place.1 place.2) :
    R _ (types other active site) (types load active site) := by
  unfold Digest.types
  refine hR.bind (hR.typeEntries ?_) fun _ _ _ _ => hR.pure _
  intro place hp hthird hshape
  apply ha
  cases hv : site.value with
  | array elements =>
    rw [hv] at hp
    simp only [nestedIn, hthird, if_true]
    exact List.mem_filter.mpr ⟨hp, by simpa using hshape⟩
  | null | bool | number | string | object =>
    rw [hv] at hp
    have hplace := List.mem_singleton.mp hp
    subst hplace
    simp only at hshape
    simp [nestedIn, hthird, hshape]

theorem keyword {active : DraftSet} {builder : Builder} {site : Site}
    (hd : builder.draft = draft)
    (ha : ∀ place ∈ nestedIn active site.entry.reading site.location site.value,
      asked place.1 place.2) :
    R _ (keyword other active builder site) (keyword load active builder site) := by
  have hschema (hr : site.entry.reading = .schema) :
      R _ (do return (← other site.location site.value).map Keyword.schema)
        (do return (← load site.location site.value).map Keyword.schema) := by
    rw [hr] at ha
    exact hR.map (hR.load (ha _ List.mem_cons_self))
  unfold Digest.keyword
  split
  · rename_i b hr hv
    split
    · subst hd
      exact hR.map (hR.boolean (ha (site.location, .bool b) (by simp [hr, hv, nestedIn])))
    · exact hschema hr
  · rename_i hr _
    exact hschema hr
  · rename_i hr
    rw [hr] at ha
    exact hR.schemaList ha
  · rename_i members hr hv
    rw [hr, hv] at ha
    exact hR.map (hR.schemaEntries ha)
  · rename_i hr
    rw [hr] at ha
    exact hR.items ha
  · rename_i members hr hv
    rw [hr, hv] at ha
    exact hR.map (hR.dependencyEntries ha)
  · exact hR.pure _
  · exact hR.bind (hR.silent checkPattern_gathers) fun _ _ _ _ => hR.pure _
  · exact hR.map (hR.silent uriText_gathers)
  · exact hR.silent positiveNumber_gathers
  · exact hR.silent count_gathers
  · exact hR.pure _
  · exact hR.map (hR.silent names_gathers)
  · rename_i hr
    exact hR.types (hr ▸ ha)
  · exact hR.pure _
  · exact hR.bind (hR.silent limitFlag_gathers) fun _ _ _ _ => hR.pure none
  · exact hR.pure _
  · exact hR.pure _
  · exact hR.pure none

theorem tryCandidates {active : DraftSet} {object : List (String × Json)} {location : Location}
    {value : Json} {builder : Builder} {candidates : List CatalogEntry}
    (hd : builder.draft = draft)
    (ha : ∀ entry ∈ candidates, ∀ place ∈ nestedIn active entry.reading location value,
      asked place.1 place.2) :
    R _ (tryCandidates other active object location value builder candidates)
      (tryCandidates load active object location value builder candidates) := by
  induction candidates with
  | nil => exact hR.pure _
  | cons entry rest ih =>
    unfold Digest.tryCandidates
    refine hR.bind (hR.keyword hd (ha entry List.mem_cons_self)) ?_
    rintro _ (_ | k) _ _
    · exact ih fun e he => ha e (List.mem_cons_of_mem _ he)
    · exact hR.pure _

theorem member {active : DraftSet} {object : List (String × Json)} {key : String} {value : Json}
    {builder : Builder} (hd : builder.draft = draft)
    (ha : ∀ place ∈ nested active builder.location [(key, value)], asked place.1 place.2) :
    R _ (member other active object key value builder)
      (member load active object key value builder) := by
  unfold Digest.member
  dsimp only
  split
  · refine hR.bind (hR.silent gathers_get) ?_
    intro _ s _ _
    split
    · exact hR.bind (hR.silent (gathers_issue rfl)) fun _ _ _ _ => hR.pure _
    · exact hR.pure _
  · split
    · exact hR.bind (hR.silent (forM_malformed_gathers _ rfl)) fun _ _ _ _ => hR.pure _
    · apply hR.tryCandidates hd
      intro entry he place hp
      exact ha place (mem_nested List.mem_cons_self he hp)

/-- The readings of an object's members are related if the calls at nested places are. -/
theorem members {active : DraftSet} {object list : List (String × Json)} {builder : Builder}
    (hd : builder.draft = draft)
    (ha : ∀ place ∈ nested active builder.location list, asked place.1 place.2) :
    R _ (members other active object list builder) (members load active object list builder) := by
  induction list generalizing builder with
  | nil => exact hR.pure _
  | cons entry rest ih =>
    obtain ⟨key, value⟩ := entry
    unfold Digest.members
    refine hR.bind (hR.member hd ?_) ?_
    · intro place hp
      exact ha place (by simpa [nested] using Or.inl hp)
    · intro s after s' hr
      have hkeeps := member_keeps hr
      apply ih (hkeeps.draft.trans hd)
      rw [hkeeps.location]
      intro place hp
      exact ha place (by simpa [nested] using Or.inr hp)

end Congruence
end Digest
end SchemaAtlas
