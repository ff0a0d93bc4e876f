import SchemaAtlas.Proofs.Loading.Throughout
import SchemaAtlas.Proofs.Render.Identity

/-!
# Renderings keep to their draft

The catalog is used twice: on the way in it says which values are read under which keys, on the
way out a draft is written from rules for each kind. Whatever was loaded in whatever drafts, all
that a draft is written with are keys that it knows, with values of a shape that they take there,
with one exception: an empty set of types under `disallow`, which the third draft writes as
`null`. The schemas that the draft reads in what is written are those nested in the schema, so
this holds at every depth.
-/

namespace SchemaAtlas

/-! ## What a draft takes -/

namespace Catalog

/-- Whether a draft has a keyword of the key that takes values of the shape. -/
def offers (draft : Draft) (key : String) (shape : Shape) : Bool :=
  (candidates key).any fun entry => entry.appliesTo draft && entry.expects.accepts shape

end Catalog

/-- The shapes in which a draft is written schemas. -/
def Draft.schemaShapes (draft : Draft) : List Shape :=
  if draft.allowsBooleanSchemas then [.object, .boolean] else [.object]

/-- The shapes in which a draft is written keywords that are read like this. -/
def Reading.writes (draft : Draft) : Reading → List Shape
  | .schema => draft.schemaShapes
  | .items => .array :: draft.schemaShapes
  | .schemaMap | .dependencies => [.object]
  | .schemaList | .stringSet | .jsonList => [.array]
  | .string | .pattern | .uri => [.string]
  | .positiveNumber | .limitValue => [.integer, .number]
  | .nonNegativeInteger => [.integer]
  | .boolean | .limitFlag => [.boolean]
  | .types => [.string, .array]
  | .json => Shape.all

namespace Catalog

/-- What the catalog says about the keys that the drafts are written with. -/
structure Writable : Prop where
  /-- The key of a kind takes what the keywords of the kind are written as. -/
  value : ∀ entry ∈ entries, ∀ draft ∈ Draft.all, (draftsOf entry.kind).contains draft →
    entry.kind.isSpecial = false → ∀ shape ∈ entry.reading.writes draft,
      offers draft (Schema.keyIn draft entry.kind) shape
  /-- What is written under it is read as it was. -/
  reading : ∀ entry ∈ entries, ∀ draft ∈ Draft.all, (draftsOf entry.kind).contains draft →
    entry.kind.isSpecial = false → ∀ other ∈ entries, other.key = Schema.keyIn draft entry.kind →
      other.appliesTo draft → other.reading = entry.reading
  /-- Values that are booleans in every draft. -/
  raw : ∀ draft ∈ Draft.all, ∀ kind ∈ [KeywordKind.additionalProperties, .additionalItems],
    offers draft (Schema.keyIn draft kind) .boolean
  schema : ∀ draft ∈ Draft.all, offers draft "$schema" .string
  /-- The place of a constant in drafts without constants. -/
  enum : ∀ draft ∈ Draft.all, offers draft "enum" .array
  bound : ∀ draft ∈ Draft.all, ∀ kind ∈ bounds, ∀ shape ∈ [Shape.integer, .number],
    offers draft (Digest.boundKey kind) shape
  exclusive : ∀ draft ∈ Draft.all, ∀ kind ∈ bounds,
    ∀ shape ∈ if draft.hasFlaggedLimits then [Shape.boolean] else [.integer, .number],
      offers draft (Digest.exclusiveKey kind) shape
  /-- The keys of the kinds with rules of their own hold no schemas. -/
  flat : ∀ entry ∈ entries, entry.kind.isSpecial ∨ entry.key = "enum" →
    Digest.holdsSchemas entry.reading = false
  disallow : ∀ draft ∈ Draft.all, (draftsOf .disallow).contains draft → draft = .draft3
  /-- The forms of a boolean schema in drafts without them. -/
  third : offers .draft3 "disallow" .array
  negation : ∀ draft ∈ Draft.all, draft ≠ .draft3 → draft.allowsBooleanSchemas = false →
    offers draft "not" .object
  types : ∀ entry ∈ entries, entry.key = "disallow" → entry.reading = .types
  negated : ∀ entry ∈ entries, entry.key = "not" → entry.reading = .schema
  reference : ∀ entry ∈ entries, entry.key ≠ "$ref"

theorem writable : Writable where
  value := by decide +kernel
  reading := by decide +kernel
  raw := by decide +kernel
  schema := by decide +kernel
  enum := by decide +kernel
  bound := by decide +kernel
  exclusive := by decide +kernel
  flat := by decide +kernel
  disallow := by decide +kernel
  third := by decide +kernel
  negation := by decide +kernel
  types := by decide +kernel
  negated := by decide +kernel
  reference := by decide +kernel

end Catalog

namespace Digest

/-- Values that hold no schemas have no places for them. -/
theorem nestedIn_of_plain {active : DraftSet} {reading : Reading} (h : holdsSchemas reading = false)
    (location : Location) (value : Json) : nestedIn active reading location value = [] := by
  cases reading <;> first | exact absurd h (by decide) | simp [nestedIn]

/-- In a list of types, only objects are schemas. -/
theorem mem_of_mem_nestedIn_types {active : DraftSet} {location : Location} {elements : List Json}
    {place : Location × Json}
    (h : place ∈ nestedIn active .types location (.array elements)) :
    place.2 ∈ elements ∧ Shape.of place.2 = .object := by
  simp only [nestedIn] at h
  split at h
  · obtain ⟨hp, hshape⟩ := List.mem_filter.mp h
    obtain ⟨i, hi, _⟩ := mem_elementPlaces hp
    exact ⟨List.mem_of_getElem? hi, of_decide_eq_true hshape⟩
  · cases h

end Digest

/-! ## Shapes of what is written -/

variable {draft : Draft}

theorem Shape.of_number (n : Number) : Shape.of (.number n) ∈ [Shape.integer, .number] := by
  cases n with
  | integer => exact List.mem_cons_self
  | float x => by_cases hx : x.isWhole <;> simp [Shape.of, Shape.ofNumber, hx]

namespace Schema

/-- A schema with what it is written as without other members. -/
def written (draft : Draft) (s : Schema) : Schema × Json := (s, s.render draft false)

theorem render_eq_renderBody (draft : Draft) (s : Schema) :
    s.render draft false = renderBody draft false (s.body.map (written draft)) :=
  descend_node _ s

theorem shape_of_render (draft : Draft) (s : Schema) :
    Shape.of (s.render draft false) ∈ draft.schemaShapes := by
  have hobject : Shape.object ∈ draft.schemaShapes := by
    rw [Draft.schemaShapes]
    split <;> exact List.mem_cons_self
  rw [render_eq_renderBody]
  obtain ⟨id, location, own, body⟩ := s
  cases body with
  | object => exact hobject
  | reference => exact hobject
  | boolean value =>
    rw [body, Body.map, renderBody, renderBoolean]
    by_cases hd : draft.allowsBooleanSchemas = true
    · simp [hd, Shape.of, Draft.schemaShapes]
    · rw [if_neg hd]
      split
      · exact hobject
      · split <;> exact hobject

theorem renderTypes_eq_none {types : List Shape} (h : renderTypes .draft3 types = none) :
    types = [] := by
  unfold renderTypes at h
  split at h
  · rename_i hnil
    simpa using hnil
  · cases h
  · cases h

theorem shape_of_renderTypes {types : List Shape} {json : Json}
    (h : renderTypes draft types = some json) : Shape.of json ∈ [Shape.string, .array] := by
  unfold renderTypes at h
  split at h
  · cases h
  · rename_i name hname
    cases h
    have hm : json ∈ (types.filter fun t => t ≠ .any || draft = .draft3).map fun t =>
        Json.string t.name := hname ▸ List.mem_cons_self
    obtain ⟨t, _, rfl⟩ := List.mem_map.mp hm
    exact List.mem_cons_self
  · cases h
    exact List.mem_cons_of_mem _ List.mem_cons_self

/-- Names of types hold no schemas. -/
theorem nestedIn_renderTypes {types : List Shape} {json : Json}
    (h : renderTypes draft types = some json) {active : DraftSet} (location : Location) :
    Digest.nestedIn active .types location json = [] := by
  have hname : ∀ value ∈ (types.filter fun t => t ≠ .any || draft = .draft3).map fun t =>
      Json.string t.name, Shape.of value = .string := by
    intro value hv
    obtain ⟨t, _, rfl⟩ := List.mem_map.mp hv
    rfl
  unfold renderTypes at h
  split at h
  · cases h
  · rename_i name heq
    cases h
    have hshape := hname json (heq ▸ List.mem_cons_self)
    cases json <;> simp_all [Digest.nestedIn, Shape.of]
  · rename_i names _ _
    cases h
    apply List.eq_nil_iff_forall_not_mem.mpr
    intro place hp
    obtain ⟨hm, hshape⟩ := Digest.mem_of_mem_nestedIn_types hp
    rw [hname _ hm] at hshape
    cases hshape

end Schema

namespace Keyword

/-- What a keyword of a kind without rules of its own may be written as, under the key of the
kind. -/
inductive WrittenAs (draft : Draft) (kind : KeywordKind) (k : Keyword (Schema × Json)) :
    Json → Prop
  | value : (∀ types, k ≠ .types types) → (∀ types list, k = .union types list → draft = .draft3) →
      WrittenAs draft kind k (Schema.renderValue draft k)
  | raw (s : Schema) (json : Json) (b : Bool) : k = .schema (s, json) →
      kind ∈ [KeywordKind.additionalProperties, .additionalItems] →
      WrittenAs draft kind k (.bool b)
  | names {types : List Shape} {json : Json} :
      (k = .types types ∨ ∃ list, k = .union types list) →
      Schema.renderTypes draft types = some json → WrittenAs draft kind k json
  | nothing {types : List Shape} : k = .types types → kind ≠ .type →
      Schema.renderTypes draft types = none → WrittenAs draft kind k .null

variable {kind : KeywordKind} {k : Keyword (Schema × Json)} {member : String × Json}

theorem writtenAs_of_mem (hs : kind.isSpecial = false)
    (h : member ∈ Schema.keywordMembers draft kind k) :
    member.1 = Schema.keyIn draft kind ∧ k.WrittenAs draft kind member.2 := by
  have hvalue : (∀ types, k ≠ .types types) →
      (∀ types list, k = .union types list → draft = .draft3) →
      member ∈ [(Schema.keyIn draft kind, Schema.renderValue draft k)] →
      member.1 = Schema.keyIn draft kind ∧ k.WrittenAs draft kind member.2 := by
    intro ht hu hm
    rw [List.mem_singleton.mp hm]
    exact ⟨rfl, .value ht hu⟩
  have hnames : ∀ types, (k = .types types ∨ ∃ list, k = .union types list) →
      member ∈ (Schema.renderTypes draft types).toList.map (fun json =>
        (Schema.keyIn draft kind, json)) →
      member.1 = Schema.keyIn draft kind ∧ k.WrittenAs draft kind member.2 := by
    intro types hk hm
    obtain ⟨json, hjson, rfl⟩ := List.mem_map.mp hm
    exact ⟨rfl, .names hk (Option.mem_toList.mp hjson)⟩
  have hraw : ∀ s json, k = .schema (s, json) →
      kind ∈ [KeywordKind.additionalProperties, .additionalItems] →
      member ∈ [(Schema.keyIn draft kind, (s.boolean?.map Json.bool).getD json)] →
      member.1 = Schema.keyIn draft kind ∧ k.WrittenAs draft kind member.2 := by
    intro s json hk hkind hm
    cases hb : s.boolean? with
    | none =>
      subst hk
      rw [hb] at hm
      exact hvalue (fun _ h => nomatch h) (fun _ _ h => nomatch h) hm
    | some b =>
      rw [hb] at hm
      rw [List.mem_singleton.mp hm]
      exact ⟨rfl, .raw s json b hk hkind⟩
  unfold Schema.keywordMembers at h
  dsimp only at h
  split at h
  · cases hs
  · cases hs
  · cases hs
  · cases hs
  · cases hs
  · exact hraw _ _ rfl (by decide) h
  · exact hraw _ _ rfl (by decide) h
  · cases h
  · exact hnames _ (Or.inl rfl) h
  · split at h
    · rename_i hd
      exact hvalue (fun _ h => nomatch h) (fun _ _ _ => hd) h
    · exact hnames _ (Or.inr ⟨_, rfl⟩) h
  · rename_i hunion _ _ _ _ _ htype
    by_cases ht : ∃ types, k = .types types
    · obtain ⟨types, rfl⟩ := ht
      rw [List.mem_singleton.mp h]
      refine ⟨rfl, ?_⟩
      change WrittenAs draft kind _ ((Schema.renderTypes draft types).getD .null)
      cases hr : Schema.renderTypes draft types with
      | none => exact .nothing rfl (fun hk => htype types hk rfl) hr
      | some json => exact .names (Or.inl rfl) hr
    · exact hvalue (fun types hk => ht ⟨types, hk⟩)
        (fun types list hk => (hunion types list hk).elim) h

/-- A value that is written for a keyword has a shape in which what made the keyword is
written. -/
theorem shape_of_renderValue {reading : Reading} (hr : reading ∈ k.readings)
    (hn : ∀ node ∈ k.nodes, Shape.of node.2 ∈ draft.schemaShapes)
    (ht : ∀ types, k ≠ .types types) (hl : ∀ limit, k ≠ .limit limit) :
    Shape.of (Schema.renderValue draft k) ∈ reading.writes draft := by
  cases k with
  | types types => exact absurd rfl (ht types)
  | limit limit => exact absurd rfl (hl limit)
  | schema node =>
    rw [List.mem_singleton.mp hr]
    exact hn node List.mem_cons_self
  | items node =>
    rw [List.mem_singleton.mp hr]
    exact List.mem_cons_of_mem _ (hn node List.mem_cons_self)
  | number n =>
    rw [List.mem_singleton.mp hr]
    exact Shape.of_number n
  | json value =>
    rw [List.mem_singleton.mp hr]
    exact Shape.mem_all _
  | string text =>
    rcases List.mem_pair.mp hr with rfl | rfl <;> exact List.mem_cons_self
  | union types list =>
    rw [List.mem_singleton.mp hr]
    exact List.mem_cons_of_mem _ List.mem_cons_self
  | schemaList | schemaMap | tuple | dependencies | uri | count | boolean | names | jsonList =>
    rw [List.mem_singleton.mp hr]
    exact List.mem_cons_self

/-- The schemas that a draft reads in what is written for a keyword are written for the schemas
of the keyword. -/
theorem node_of_mem_nestedIn {reading : Reading} (hr : reading ∈ k.readings)
    (hn : ∀ node ∈ k.nodes, Shape.of node.2 ∈ draft.schemaShapes)
    (ht : ∀ types, k ≠ .types types) {location : Location} {place : Location × Json} (hp : place ∈
      Digest.nestedIn (.only draft) reading location (Schema.renderValue draft k)) :
    ∃ node ∈ k.nodes, place.2 = node.2 := by
  have helement : ∀ {list : List (Schema × Json)},
      place ∈ Digest.elementPlaces location 0 (list.map Prod.snd) →
      ∃ node ∈ list, place.2 = node.2 := by
    intro list hp
    obtain ⟨i, hi, _⟩ := Digest.mem_elementPlaces hp
    obtain ⟨node, hnode, heq⟩ := List.mem_map.mp (List.mem_of_getElem? hi)
    exact ⟨node, hnode, heq.symm⟩
  cases k with
  | types types => exact absurd rfl (ht types)
  | string =>
    rcases List.mem_pair.mp hr with rfl | rfl <;> exact absurd hp List.not_mem_nil
  | uri | number | count | boolean | names | limit | json | jsonList =>
    rw [List.mem_singleton.mp hr] at hp
    exact absurd hp List.not_mem_nil
  | schema node =>
    rw [List.mem_singleton.mp hr] at hp
    exact ⟨node, List.mem_cons_self, congrArg Prod.snd (List.mem_singleton.mp hp)⟩
  | items node =>
    rw [List.mem_singleton.mp hr] at hp
    refine ⟨node, List.mem_cons_self, ?_⟩
    rcases Digest.nestedIn_cases hp with rfl | ⟨elements, harray, _⟩ | ⟨_, _, hmap, _⟩
    · rfl
    · have hshape := hn node List.mem_cons_self
      have hlist : Shape.of node.2 = .array := congrArg Shape.of harray
      rw [hlist, Draft.schemaShapes] at hshape
      split at hshape <;> simp at hshape
    · simp at hmap
  | schemaList list | tuple list =>
    rw [List.mem_singleton.mp hr] at hp
    obtain ⟨node, hnode, heq⟩ := helement hp
    exact ⟨node, by simpa only [nodes_schemaList, nodes_tuple] using hnode, heq⟩
  | schemaMap entries =>
    rw [List.mem_singleton.mp hr] at hp
    obtain ⟨name, hm, _⟩ := Digest.mem_memberPlaces hp
    obtain ⟨⟨other, node⟩, hnode, heq⟩ := List.mem_map.mp (List.mem_filter.mp hm).1
    exact ⟨node, mem_nodes_schemaMap.mpr ⟨other, hnode⟩, (congrArg Prod.snd heq).symm⟩
  | dependencies entries =>
    rw [List.mem_singleton.mp hr] at hp
    obtain ⟨name, hm, _⟩ := Digest.mem_memberPlaces hp
    obtain ⟨hm, hschema⟩ := List.mem_filter.mp hm
    obtain ⟨⟨other, d⟩, hd, heq⟩ := List.mem_map.mp hm
    cases d with
    | properties names =>
      have hnames : place.2 = .strings names := (congrArg Prod.snd heq).symm
      rw [hnames] at hschema
      cases hschema
    | schema node =>
      exact ⟨node, mem_nodes_dependencies.mpr ⟨other, hd⟩, (congrArg Prod.snd heq).symm⟩
  | union types list =>
    rw [List.mem_singleton.mp hr] at hp
    obtain ⟨hm, hshape⟩ := Digest.mem_of_mem_nestedIn_types hp
    rcases List.mem_append.mp hm with hname | hnode
    · obtain ⟨name, _, heq⟩ := List.mem_map.mp hname
      rw [← heq] at hshape
      cases hshape
    · obtain ⟨node, hnode, heq⟩ := List.mem_map.mp hnode
      exact ⟨node, by simpa [nodes, subschemas] using hnode, heq.symm⟩

/-! ## Members -/

theorem isSpecial_of_bound (hb : kind ∈ Catalog.bounds) : kind.isSpecial = true := by
  rcases List.mem_pair.mp hb with rfl | rfl <;> rfl

section

open Catalog

variable {entry : CatalogEntry} (he : entry ∈ entries) (hr : entry.reading ∈ k.readings)
  {hasEnum : Bool} (hm : member ∈ Schema.membersIn draft hasEnum entry.kind k)

include he hr

/-- A bound is made by its numbers only. -/
theorem eq_limit_of_bound (hb : entry.kind ∈ bounds) : ∃ limit, k = .limit limit := by
  rcases (bounded.mem entry he).mp hb with hlimit | hflag
  · rw [hlimit] at hr
    cases k <;> simp [readings] at hr
    exact ⟨_, rfl⟩
  · rw [hflag] at hr
    cases k <;> simp [readings] at hr

include hm

/-- What is written for a keyword: a constant in the form of an enumeration, the name of the
draft, a bound, or a value under the key of the kind. -/
theorem cases_of_mem_membersIn :
    (∃ value, member = ("enum", .array [value])) ∨
    (draftsOf entry.kind).contains draft ∧
      (entry.kind = .schema ∧ member = ("$schema", .string draft.metaSchema) ∨
      (entry.kind ∈ bounds ∧
        ((∃ n, member = (Digest.boundKey entry.kind, .number n)) ∨
          if draft.hasFlaggedLimits then member = (Digest.exclusiveKey entry.kind, .bool true)
          else ∃ n, member = (Digest.exclusiveKey entry.kind, .number n))) ∨
      (entry.kind.isSpecial = false ∧ member.1 = Schema.keyIn draft entry.kind ∧
        k.WrittenAs draft entry.kind member.2)) := by
  unfold Schema.membersIn at hm
  split at hm
  · split at hm
    · split at hm
      · cases hm
      · exact Or.inl ⟨_, List.mem_singleton.mp hm⟩
    · cases hm
  · split at hm
    · rename_i hd
      refine Or.inr ⟨hd, ?_⟩
      by_cases hb : entry.kind ∈ bounds
      · obtain ⟨limit, rfl⟩ := eq_limit_of_bound he hr hb
        have hlimit : member ∈ limit.members (Digest.boundKey entry.kind)
            (Digest.exclusiveKey entry.kind) (entry.kind = .minimum) draft := by
          rw [← Schema.keywordMembers_bound hb]
          exact hm
        exact Or.inr (Or.inl ⟨hb, Limit.form_of_mem_members hlimit⟩)
      · by_cases hs : entry.kind = .schema
        · rw [hs] at hm
          exact Or.inl ⟨hs, List.mem_singleton.mp hm⟩
        · have hspecial : entry.kind.isSpecial = false := by
            simp only [bounds, List.mem_cons, List.not_mem_nil, or_false, not_or] at hb
            simp [KeywordKind.isSpecial, hs, hb.1, hb.2]
          exact Or.inr (Or.inr ⟨hspecial, writtenAs_of_mem hspecial hm⟩)
    · cases hm

variable (hn : ∀ node ∈ k.nodes, Shape.of node.2 ∈ draft.schemaShapes)

include hn

/-- What is written for a keyword, the draft takes under its key, unless it is no type at all
under `disallow`. -/
theorem offers_of_mem_membersIn : offers draft member.1 (Shape.of member.2) = true ∨
    draft = .draft3 ∧ entry.kind = .disallow ∧ k = .types [] := by
  have hw := writable
  have hdraft := Draft.mem_all draft
  rcases cases_of_mem_membersIn he hr hm with ⟨value, rfl⟩ | ⟨hd, ⟨hs, rfl⟩ | ⟨hb, hlimit⟩ |
    ⟨hspecial, hkey, hwritten⟩⟩
  · exact Or.inl (hw.enum draft hdraft)
  · exact Or.inl (hw.schema draft hdraft)
  · left
    have hexclusive := hw.exclusive draft hdraft entry.kind hb
    rcases hlimit with ⟨n, rfl⟩ | hlimit
    · exact hw.bound draft hdraft entry.kind hb _ (Shape.of_number n)
    · split at hlimit <;> rename_i hflags
      · rw [if_pos hflags] at hexclusive
        rw [hlimit]
        exact hexclusive _ List.mem_cons_self
      · rw [if_neg hflags] at hexclusive
        obtain ⟨n, rfl⟩ := hlimit
        exact hexclusive _ (Shape.of_number n)
  · rw [hkey]
    have hoffers : Shape.of member.2 ∈ entry.reading.writes draft →
        offers draft (Schema.keyIn draft entry.kind) (Shape.of member.2) = true :=
      hw.value entry he draft hdraft hd hspecial _
    generalize member.2 = json at hwritten hoffers ⊢
    cases hwritten with
    | value htypes _ =>
      left
      refine hoffers (shape_of_renderValue hr hn htypes ?_)
      rintro limit rfl
      have hb := (bounded.mem entry he).mpr (Or.inl (List.mem_singleton.mp hr))
      rw [isSpecial_of_bound hb] at hspecial
      cases hspecial
    | raw s json b _ hkind => exact Or.inl (hw.raw draft hdraft entry.kind hkind)
    | names hk hjson =>
      have htypes : entry.reading = .types := by
        rcases hk with rfl | ⟨list, rfl⟩ <;> exact List.mem_singleton.mp hr
      left
      apply hoffers
      rw [htypes]
      exact Schema.shape_of_renderTypes hjson
    | nothing hk hkind hnone =>
      subst hk
      have hdisallow : entry.kind = .disallow :=
        (regular.types entry he (List.mem_singleton.mp hr)).resolve_left hkind
      have hthird : draft = .draft3 := hw.disallow draft hdraft (hdisallow ▸ hd)
      subst hthird
      exact Or.inr ⟨rfl, hdisallow, congrArg Keyword.types (Schema.renderTypes_eq_none hnone)⟩

/-- The schemas that a draft reads in what is written for a keyword are written for the schemas
of the keyword, or are booleans. -/
theorem node_of_mem_membersIn {other : CatalogEntry} (ho : other ∈ entries)
    (hkey : other.key = member.1) (hd : other.appliesTo draft) {location : Location}
    {place : Location × Json}
    (hp : place ∈ Digest.nestedIn (.only draft) other.reading location member.2) :
    (∃ node ∈ k.nodes, place.2 = node.2) ∨ ∃ b, place.2 = .bool b := by
  have hw := writable
  have hdraft := Draft.mem_all draft
  have hflat : other.kind.isSpecial ∨ other.key = "enum" → False := by
    intro hspecial
    rw [Digest.nestedIn_of_plain (hw.flat other ho hspecial)] at hp
    cases hp
  have hbound : entry.kind ∈ bounds → kindIn? draft member.1 = some entry.kind → False := by
    intro hb hkind
    have hother := (hkey ▸ kindIn?_of_mem ho hd : kindIn? draft member.1 = some other.kind)
    have heq : other.kind = entry.kind := Option.some.inj (hother.symm.trans hkind)
    exact hflat (Or.inl (heq ▸ isSpecial_of_bound hb))
  rcases cases_of_mem_membersIn he hr hm with ⟨value, heq⟩ | ⟨hknown, ⟨_, heq⟩ | ⟨hb, hlimit⟩ |
    ⟨hspecial, hwritten, hform⟩⟩
  · exact (hflat (Or.inr (hkey.trans (congrArg Prod.fst heq)))).elim
  · have hschema := (regular.schema other ho).mpr (hkey.trans (congrArg Prod.fst heq))
    exact (hflat (Or.inl (by rw [hschema]; rfl))).elim
  · obtain ⟨hplain, hexclusive⟩ := bounded.kind draft hdraft entry.kind hb
    rcases hlimit with ⟨n, heq⟩ | hlimit
    · exact (hbound hb (by rw [heq]; exact hplain)).elim
    · split at hlimit
      · exact (hbound hb (by rw [hlimit]; exact hexclusive)).elim
      · obtain ⟨n, heq⟩ := hlimit
        exact (hbound hb (by rw [heq]; exact hexclusive)).elim
  · rw [hw.reading entry he draft hdraft hknown hspecial other ho (hkey.trans hwritten) hd] at hp
    generalize member.2 = json at hform hp
    cases hform with
    | value htypes _ => exact Or.inl (node_of_mem_nestedIn hr hn htypes hp)
    | raw s json b hk _ =>
      subst hk
      rw [List.mem_singleton.mp hr] at hp
      exact Or.inr ⟨b, congrArg Prod.snd (List.mem_singleton.mp hp)⟩
    | names hk hjson =>
      have htypes : entry.reading = .types := by
        rcases hk with rfl | ⟨list, rfl⟩ <;> exact List.mem_singleton.mp hr
      rw [htypes, Schema.nestedIn_renderTypes hjson] at hp
      cases hp
    | nothing hk =>
      subst hk
      rw [List.mem_singleton.mp hr] at hp
      simp [Digest.nestedIn, Shape.of] at hp

end

end Keyword

end SchemaAtlas
