import SchemaAtlas.Proofs.Loading.Keywords
import SchemaAtlas.Proofs.Schema.Ordered

/-!
# What the catalog makes of members

Reading the members of an object changes a builder in two ways: it puts in a keyword that an
entry of the catalog reads, or keeps a member as it is. What both preserve holds of the builder
after all members (`Digest.Preserves.members`). In particular every keyword has the form that
some entry of its kind makes of values, and the keywords are in the order of their kinds.
-/

namespace SchemaAtlas

/-- The readings that make keywords of a form. -/
def Keyword.readings {σ : Type} : Keyword σ → List Reading
  | .schema _ => [.schema]
  | .schemaList _ => [.schemaList]
  | .schemaMap _ => [.schemaMap]
  | .items _ | .tuple _ => [.items]
  | .dependencies _ => [.dependencies]
  | .string _ => [.string, .pattern]
  | .uri _ => [.uri]
  | .number _ => [.positiveNumber]
  | .count _ => [.nonNegativeInteger]
  | .boolean _ => [.boolean]
  | .names _ => [.stringSet]
  | .types _ | .union _ _ => [.types]
  | .limit _ => [.limitValue]
  | .json _ => [.json]
  | .jsonList _ => [.jsonList]

theorem Keyword.readings_map {σ τ : Type} (f : σ → τ) (k : Keyword σ) :
    (k.map f).readings = k.readings := by
  cases k <;> rfl

/-- A keyword as some entry of the catalog makes it. -/
def Keyword.IsCatalogued {σ : Type} (kind : KeywordKind) (k : Keyword σ) : Prop :=
  ∃ entry ∈ Catalog.entries, entry.kind = kind ∧ entry.reading ∈ k.readings

/-- The keywords of a node are in order, and each is as some entry of the catalog makes it. -/
structure Schema.IsCatalogued (s : Schema) : Prop where
  sorted : Entries.Sorted s.keywords
  keyword : ∀ kind k, (kind, k) ∈ s.keywords → k.IsCatalogued kind

namespace Digest

open LoadM

variable {load : Loader} {active : DraftSet} {builder after : Builder} {s s' : Session}

/-! ## Forms -/

/-- What a keyword is made of by a function has the form of that function. -/
theorem form_of_map {α : Type} {x : LoadM (Option α)} {form : α → Keyword Schema}
    {k : Keyword Schema} (h : Runs (do return (← x).map form) s (.ok (some k)) s') :
    ∃ a, k = form a := by
  obtain ⟨found, _, _, h⟩ := runs_bind_ok.mp h
  obtain ⟨a, _, rfl⟩ := Option.map_eq_some_iff.mp (Except.ok.inj (runs_pure.mp h).1).symm
  exact ⟨a, rfl⟩

theorem form_of_some {α : Type} {x : LoadM α} {form : α → Keyword Schema} {k : Keyword Schema}
    (h : Runs (do return some (form (← x))) s (.ok (some k)) s') : ∃ a, k = form a := by
  obtain ⟨a, _, _, h⟩ := runs_bind_ok.mp h
  cases (runs_pure.mp h).1
  exact ⟨a, rfl⟩

theorem form_of_schemaList {site : Site} {k : Keyword Schema}
    (h : Runs (schemaList load site) s (.ok (some k)) s') : ∃ list, k = .schemaList list := by
  unfold schemaList at h
  split at h
  · exact form_of_map h
  · obtain ⟨schema, rfl⟩ := form_of_map h
    exact ⟨[schema], rfl⟩
  · cases (runs_pure.mp h).1

theorem form_of_items {site : Site} {k : Keyword Schema}
    (h : Runs (items load site) s (.ok (some k)) s') :
    (∃ list, k = .tuple list) ∨ ∃ schema, k = .items schema := by
  unfold items at h
  split at h
  · exact Or.inl (form_of_map h)
  · exact Or.inr (form_of_map h)

theorem form_of_types {site : Site} {k : Keyword Schema}
    (h : Runs (types load active site) s (.ok (some k)) s') :
    (∃ set, k = .types set) ∨ ∃ set schemas, k = .union set schemas := by
  unfold types at h
  dsimp only at h
  obtain ⟨⟨shapes, schemas⟩, _, _, h⟩ := runs_bind_ok.mp h
  rw [Option.some.inj (Except.ok.inj (runs_pure.mp h).1)]
  split
  · exact Or.inl ⟨_, rfl⟩
  · exact Or.inr ⟨_, _, rfl⟩

theorem form_of_uriText {site : Site} {text : String} {k : Keyword Schema}
    (h : Runs (uriText site text) s (.ok k) s') : k = .uri text := by
  unfold uriText at h
  split at h
  · cases (runs_pure.mp h).1
    rfl
  · obtain ⟨_, _, _, h⟩ := runs_bind_ok.mp h
    cases (runs_pure.mp h).1
    rfl

theorem form_of_positiveNumber {site : Site} {n : Number} {k : Keyword Schema}
    (h : Runs (positiveNumber site n) s (.ok (some k)) s') : k = .number n := by
  unfold positiveNumber at h
  split at h
  · cases (runs_pure.mp h).1
    rfl
  · obtain ⟨_, _, _, h⟩ := runs_bind_ok.mp h
    cases (runs_pure.mp h).1

theorem form_of_count {site : Site} {n : Number} {k : Keyword Schema}
    (h : Runs (count site n) s (.ok (some k)) s') : ∃ c, k = .count c := by
  unfold count at h
  split at h
  · cases (runs_pure.mp h).1
    exact ⟨_, rfl⟩
  · obtain ⟨_, _, _, h⟩ := runs_bind_ok.mp h
    cases (runs_pure.mp h).1

/-- A keyword has a form that the reading of its entry makes. -/
theorem reading_of_keyword {site : Site} {k : Keyword Schema}
    (h : Runs (keyword load active builder site) s (.ok (some k)) s') :
    site.entry.reading ∈ k.readings := by
  unfold keyword at h
  split at h
  · rename_i hr _
    rw [hr]
    split at h
    · obtain ⟨schema, rfl⟩ := form_of_some h
      exact List.mem_cons_self
    · obtain ⟨schema, rfl⟩ := form_of_map h
      exact List.mem_cons_self
  · rename_i hr _
    obtain ⟨schema, rfl⟩ := form_of_map h
    exact hr ▸ List.mem_cons_self
  · rename_i hr
    obtain ⟨list, rfl⟩ := form_of_schemaList h
    exact hr ▸ List.mem_cons_self
  · rename_i hr _
    obtain ⟨entries, rfl⟩ := form_of_some h
    exact hr ▸ List.mem_cons_self
  · rename_i hr
    rcases form_of_items h with ⟨list, rfl⟩ | ⟨schema, rfl⟩ <;> exact hr ▸ List.mem_cons_self
  · rename_i hr _
    obtain ⟨entries, rfl⟩ := form_of_some h
    exact hr ▸ List.mem_cons_self
  · rename_i hr _
    cases (runs_pure.mp h).1
    exact hr ▸ List.mem_cons_self
  · rename_i hr _
    obtain ⟨_, _, _, h⟩ := runs_bind_ok.mp h
    cases (runs_pure.mp h).1
    exact hr ▸ List.mem_cons_of_mem _ List.mem_cons_self
  · rename_i hr _
    obtain ⟨_, _, hk, h⟩ := runs_bind_ok.mp h
    cases (runs_pure.mp h).1
    rw [form_of_uriText hk]
    exact hr ▸ List.mem_cons_self
  · rename_i hr _
    rw [form_of_positiveNumber h]
    exact hr ▸ List.mem_cons_self
  · rename_i hr _
    obtain ⟨c, rfl⟩ := form_of_count h
    exact hr ▸ List.mem_cons_self
  · rename_i hr _
    cases (runs_pure.mp h).1
    exact hr ▸ List.mem_cons_self
  · rename_i hr _
    obtain ⟨names, _, _, h⟩ := runs_bind_ok.mp h
    rw [Option.some.inj (Except.ok.inj (runs_pure.mp h).1)]
    exact hr ▸ List.mem_cons_self
  · rename_i hr
    rcases form_of_types h with ⟨set, rfl⟩ | ⟨set, schemas, rfl⟩ <;>
      exact hr ▸ List.mem_cons_self
  · rename_i hr _
    rw [Option.some.inj (Except.ok.inj (runs_pure.mp h).1)]
    exact hr ▸ List.mem_cons_self
  · obtain ⟨_, _, _, h⟩ := runs_bind_ok.mp h
    cases (runs_pure.mp h).1
  · rename_i hr
    cases (runs_pure.mp h).1
    exact hr ▸ List.mem_cons_self
  · rename_i hr _
    cases (runs_pure.mp h).1
    exact hr ▸ List.mem_cons_self
  · cases (runs_pure.mp h).1

/-! ## Builders -/

/-- A property of builders that no step of the reading of members takes away. -/
structure Preserves (load : Loader) (active : DraftSet) (I : Builder → Prop) : Prop where
  put : ∀ {builder key site k s s'}, site.entry ∈ Catalog.applicable key active →
    Runs (keyword load active builder site) s (.ok (some k)) s' → I builder →
    I (builder.put site.entry.kind k)
  extra : ∀ {builder} key value, I builder → I (builder.putExtra key value)

namespace Preserves

variable {I : Builder → Prop} {object : List (String × Json)} {key : String} {value : Json}

theorem tryCandidates (hI : Preserves load active I) {location : Location}
    {candidates : List CatalogEntry}
    (hc : ∀ entry ∈ candidates, entry ∈ Catalog.applicable key active) (hb : I builder)
    (h : Runs (tryCandidates load active object location value builder candidates) s
      (.ok after) s') : I after := by
  induction candidates generalizing s with
  | nil =>
    cases (runs_pure.mp h).1
    exact hb
  | cons entry rest ih =>
    obtain ⟨found, s₁, hk, hr⟩ := runs_bind_ok.mp h
    cases found with
    | none => exact ih (fun e he => hc e (List.mem_cons_of_mem _ he)) hr
    | some k =>
      cases (runs_pure.mp hr).1
      exact hI.put (hc entry List.mem_cons_self) hk hb

theorem member (hI : Preserves load active I) (hb : I builder)
    (h : Runs (member load active object key value builder) s (.ok after) s') : I after := by
  unfold Digest.member at h
  dsimp only at h
  split at h
  · obtain ⟨_, _, _, h⟩ := runs_bind_ok.mp h
    split at h
    · obtain ⟨_, _, _, h⟩ := runs_bind_ok.mp h
      cases (runs_pure.mp h).1
      exact hb
    · cases (runs_pure.mp h).1
      exact hI.extra key value hb
  · split at h
    · obtain ⟨_, _, _, h⟩ := runs_bind_ok.mp h
      cases (runs_pure.mp h).1
      exact hb
    · exact hI.tryCandidates (fun entry he => (List.mem_filter.mp he).1) hb h

/-- What every step preserves holds after all members. -/
theorem members (hI : Preserves load active I) {list : List (String × Json)} (hb : I builder)
    (h : Runs (members load active object list builder) s (.ok after) s') : I after := by
  induction list generalizing builder s with
  | nil =>
    cases (runs_pure.mp h).1
    exact hb
  | cons entry rest ih =>
    obtain ⟨next, s₁, hm, h⟩ := runs_bind_ok.mp h
    exact ih (hI.member hb hm) h

end Preserves

/-- The keywords of an object are in order, and each is as some entry of the catalog makes it. -/
theorem catalogued_of_members {object list : List (String × Json)} {location : Location}
    {draft : Draft}
    (h : Runs (members load active object list (.new location draft)) s (.ok after) s') :
    Entries.Sorted after.keywords ∧
      ∀ kind k, (kind, k) ∈ after.keywords → k.IsCatalogued kind := by
  have hI : Preserves load active fun b => Entries.Sorted b.keywords ∧
      ∀ kind k, (kind, k) ∈ b.keywords → k.IsCatalogued kind := by
    constructor
    · rintro b key site k s s' he hk ⟨hsorted, hb⟩
      refine ⟨hsorted.insert _ _, fun kind other hm => ?_⟩
      rcases Entries.mem_insert hm with heq | hold
      · cases heq
        exact ⟨site.entry, (mem_applicable he).1, rfl, reading_of_keyword hk⟩
      · exact hb kind other hold
    · exact fun key value hb => hb
  have hnew : Entries.Sorted (Builder.new location draft).keywords ∧
      ∀ kind k, (kind, k) ∈ (Builder.new location draft).keywords → k.IsCatalogued kind :=
    ⟨.nil, fun _ _ hm => absurd hm List.not_mem_nil⟩
  exact hI.members hnew h

end Digest
end SchemaAtlas
