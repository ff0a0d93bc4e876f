import SchemaAtlas.Proofs.Render.Offered
import Mathlib.Data.List.Induction

/-!
# A rendering is a document of its draft

Reading a rendering in the draft that it was written in, one finds the renderings of the nested
schemas, booleans, and the empty schema of a negation, and nothing else (`Schema.part_of_schemas`).
So it is enough to look at one node: its members come from its keywords, and what is written for
a keyword is taken by the draft, but for the types of `disallow` when there are none.
-/

namespace SchemaAtlas

variable {draft : Draft}

/-! ## The members of an object -/

namespace Schema

open Catalog

variable {s t : Schema} {members : List (String × Json)}

theorem mem_putAll {member : String × Json} {members object : List (String × Json)}
    (h : member ∈ putAll members object) : member ∈ members ∨ member ∈ object := by
  induction members generalizing object with
  | nil => exact Or.inr h
  | cons first rest ih =>
    rcases ih h with hrest | hobject
    · exact Or.inl (List.mem_cons_of_mem _ hrest)
    · rcases Entries.mem_insert hobject with rfl | hold
      · exact Or.inl List.mem_cons_self
      · exact Or.inr hold

theorem mem_putPieces {member : String × Json}
    {pieces : List (KeywordKind × List (String × Json))} {object : List (String × Json)}
    (h : member ∈ putPieces pieces object) :
    (∃ piece ∈ pieces, member ∈ piece.2) ∨ member ∈ object := by
  induction pieces generalizing object with
  | nil => exact Or.inr h
  | cons first rest ih =>
    rcases ih h with ⟨piece, hpiece, hm⟩ | hobject
    · exact Or.inl ⟨piece, List.mem_cons_of_mem _ hpiece, hm⟩
    · rcases mem_putAll hobject with hm | hold
      · exact Or.inl ⟨first, List.mem_cons_self, hm⟩
      · exact Or.inr hold

/-- What a draft is written with for each keyword of a node. -/
def pieces (draft : Draft) (s : Schema) : List (KeywordKind × List (String × Json)) :=
  s.keywords.map fun entry => (entry.1, membersIn draft (Entries.contains .enum s.keywords) entry.1
    (entry.2.map (written draft)))

theorem render_of_object {id : Nat} {location : Location} {own : Draft}
    {keywords : List (KeywordKind × Keyword Schema)} {extra : List (String × Json)} :
    (Schema.node id location own (.object keywords extra)).render draft false =
      .object (putPieces (pieces draft (.node id location own (.object keywords extra))) []) := by
  have henum : Entries.contains .enum (Entries.mapValues (Keyword.map (written draft)) keywords) =
      Entries.contains .enum keywords := by
    simp [Entries.contains, Entries.get?_mapValues]
  rw [render_eq_renderBody, body, Body.map, renderBody, henum, if_neg Bool.false_ne_true, pieces,
    putPieces, List.foldl_map, Entries.mapValues, List.foldl_map]
  rfl

theorem shape_of_written (draft : Draft) (k : Keyword Schema) :
    ∀ node ∈ (k.map (written draft)).nodes, Shape.of node.2 ∈ draft.schemaShapes := by
  intro node hnode
  rw [Keyword.nodes_map] at hnode
  obtain ⟨child, _, rfl⟩ := List.mem_map.mp hnode
  exact shape_of_render draft child

/-- The drafts without boolean schemas are written negations. -/
theorem cases_of_renderBoolean {b : Bool} (h : renderBoolean draft b = .object members) :
    members = [] ∨ draft = .draft3 ∧ members = [("disallow", .strings ["any"])] ∨
      draft ≠ .draft3 ∧ draft.allowsBooleanSchemas = false ∧
        members = [("not", .object [])] := by
  unfold renderBoolean at h
  split at h
  · cases h
  · rename_i hd
    split at h
    · cases h
      exact Or.inl rfl
    · split at h
      · cases h
        exact Or.inr (Or.inl ⟨‹_›, rfl⟩)
      · cases h
        exact Or.inr (Or.inr ⟨‹_›, by simpa using hd, rfl⟩)

/-- What a draft is written with for a node: nothing but the reference, a negation, or members
from keywords that some entry of the catalog made. -/
theorem cases_of_render (ht : t.IsCatalogued) (h : t.render draft false = .object members) :
    (t.keywords = [] ∧ ∃ text, members = [("$ref", .string text)]) ∨
    (t.keywords = [] ∧ ∃ b, renderBoolean draft b = .object members) ∨
    members = putPieces (pieces draft t) [] ∧ ∀ member ∈ members, ∃ entry ∈ entries, ∃ k,
      (entry.kind, k) ∈ t.keywords ∧ entry.reading ∈ (k.map (written draft)).readings ∧
        member ∈ membersIn draft (Entries.contains .enum t.keywords) entry.kind
          (k.map (written draft)) := by
  obtain ⟨id, location, own, body⟩ := t
  cases body with
  | reference r =>
    rw [render_eq_renderBody] at h
    cases h
    exact Or.inl ⟨rfl, r.written, rfl⟩
  | boolean b =>
    rw [render_eq_renderBody] at h
    exact Or.inr (Or.inl ⟨rfl, b, h⟩)
  | object keywords extra =>
    rw [render_of_object] at h
    cases h
    refine Or.inr (Or.inr ⟨rfl, fun member hm => ?_⟩)
    rcases mem_putPieces hm with ⟨piece, hpiece, hm⟩ | hm
    · obtain ⟨⟨kind, k⟩, hk, rfl⟩ := List.mem_map.mp hpiece
      obtain ⟨entry, he, rfl, hr⟩ := ht.keyword kind k hk
      exact ⟨entry, he, k, hk, by rw [Keyword.readings_map]; exact hr, hm⟩
    · cases hm

/-! ## Schemas in a rendering -/

/-- A value that is written in the place of a schema: for a schema nested in another, for a
boolean alone, or for the schema that a negation holds. -/
inductive Part (draft : Draft) (s : Schema) : Json → Prop
  | node {t : Schema} : s.Nests t → Part draft s (t.render draft false)
  | boolean (b : Bool) : Part draft s (.bool b)
  | negated : Part draft s (.object [])

/-- The schemas that a draft reads in what is written for a node. -/
theorem part_of_nested (hs : s.Nests t) (ht : t.IsCatalogued)
    (h : t.render draft false = .object members) {location : Location} {place : Location × Json}
    (hp : place ∈ Digest.nested (.only draft) location members) : s.Part draft place.2 := by
  have hw := writable
  obtain ⟨⟨key, value⟩, hm, hp⟩ := List.mem_flatMap.mp hp
  obtain ⟨other, hmatching, hp⟩ := List.mem_flatMap.mp hp
  have happlicable := (List.mem_filter.mp hmatching).1
  have happlies : other.appliesTo draft := by
    have hintersects := (List.mem_filter.mp happlicable).2
    rwa [intersects_only] at hintersects
  obtain ⟨ho, hkey⟩ := Digest.mem_applicable happlicable
  rcases cases_of_render ht h with ⟨_, text, rfl⟩ | ⟨_, b, hb⟩ | ⟨_, hmembers⟩
  · cases List.mem_singleton.mp hm
    exact absurd hkey (hw.reference other ho)
  · rcases cases_of_renderBoolean hb with rfl | ⟨_, rfl⟩ | ⟨_, _, rfl⟩
    · cases hm
    · cases List.mem_singleton.mp hm
      rw [hw.types other ho hkey] at hp
      obtain ⟨hname, hshape⟩ := Digest.mem_of_mem_nestedIn_types hp
      rw [List.mem_singleton.mp hname] at hshape
      cases hshape
    · cases List.mem_singleton.mp hm
      rw [hw.negated other ho hkey] at hp
      rw [List.mem_singleton.mp hp]
      exact .negated
  · obtain ⟨entry, he, k, hk, hr, hm⟩ := hmembers _ hm
    have hshape := shape_of_written draft k
    rcases Keyword.node_of_mem_membersIn he hr hm hshape ho hkey happlies hp with
      ⟨node, hnode, heq⟩ | ⟨b, heq⟩
    · rw [Keyword.nodes_map] at hnode
      obtain ⟨child, hc, rfl⟩ := List.mem_map.mp hnode
      rw [heq]
      exact .node (hs.inside hk hc)
    · rw [heq]
      exact .boolean b

/-- All schemas in the rendering of a loaded schema are written for schemas nested in it. -/
theorem part_of_schemas (hs : s.Throughout IsCatalogued) {value : Json}
    (h : Json.Schemas draft (s.render draft false) value) : s.Part draft value := by
  induction h with
  | root => exact .node .self
  | @nested members location place _ hp ih =>
    generalize hv : Json.object members = v at ih
    cases ih with
    | node ht => exact part_of_nested ht (hs _ ht) hv.symm hp
    | boolean => cases hv
    | negated =>
      cases hv
      cases hp

/-! ## The exception -/

/-- Under a key that some pieces write with the same member, and no others do, stands that
member. -/
theorem get?_putPieces_of_alone {key : String} {value : Json}
    {pieces : List (KeywordKind × List (String × Json))} {object : List (String × Json)}
    (h : ∀ piece ∈ pieces, piece.2 = [(key, value)] ∨ ∀ member ∈ piece.2, member.1 ≠ key)
    (hp : ∃ piece ∈ pieces, piece.2 = [(key, value)]) :
    Entries.get? key (putPieces pieces object) = some value := by
  induction pieces using List.reverseRecOn with
  | nil =>
    obtain ⟨_, hm, _⟩ := hp
    cases hm
  | append_singleton front last ih =>
    have hput : putPieces (front ++ [last]) object = putAll last.2 (putPieces front object) := by
      simp [putPieces]
    rw [hput, get?_putAll]
    rcases h last (List.mem_append_right _ List.mem_cons_self) with hlast | hlast
    · simp [hlast, Entries.get?]
    · have hnone : Entries.get? key last.2.reverse = none := by
        rw [Entries.get?_eq_none]
        intro hin
        obtain ⟨member, hm, heq⟩ := List.mem_map.mp hin
        exact hlast member (List.mem_reverse.mp hm) heq
      rw [hnone, Option.none_or]
      apply ih fun piece hpiece => h piece (List.mem_append_left _ hpiece)
      obtain ⟨piece, hpiece, heq⟩ := hp
      rcases List.mem_append.mp hpiece with hpiece | hpiece
      · exact ⟨piece, hpiece, heq⟩
      · rw [List.mem_singleton.mp hpiece] at heq
        exact absurd rfl (hlast (key, value) (heq ▸ List.mem_cons_self))

/-- No keyword but one of its own kind is written under `disallow`. -/
theorem kind_of_mem_membersIn {entry : CatalogEntry} (he : entry ∈ entries)
    {k : Keyword (Schema × Json)} (hr : entry.reading ∈ k.readings) {hasEnum : Bool}
    {member : String × Json} (hm : member ∈ membersIn draft hasEnum entry.kind k)
    (hkey : member.1 = "disallow") : entry.kind = .disallow := by
  have hbounds : ∀ kind ∈ bounds,
      Digest.boundKey kind ≠ "disallow" ∧ Digest.exclusiveKey kind ≠ "disallow" := by
    decide +kernel
  have hkeys : ∀ entry ∈ entries, ∀ draft ∈ Draft.all, keyIn draft entry.kind = "disallow" →
      entry.kind = .disallow := by
    decide +kernel
  rcases Keyword.cases_of_mem_membersIn he hr hm with ⟨value, rfl⟩ | ⟨_, ⟨_, rfl⟩ | ⟨hb, hlimit⟩ |
    ⟨_, hwritten, _⟩⟩
  · simp at hkey
  · simp at hkey
  · obtain ⟨hplain, hexclusive⟩ := hbounds _ hb
    rcases hlimit with ⟨n, rfl⟩ | hlimit
    · exact absurd hkey hplain
    · split at hlimit
      · rw [hlimit] at hkey
        exact absurd hkey hexclusive
      · obtain ⟨n, rfl⟩ := hlimit
        exact absurd hkey hexclusive
  · exact hkeys entry he draft (Draft.mem_all draft) (hwritten ▸ hkey)

/-- No type at all under `disallow` is written as a value that the third draft does not take. -/
theorem not_offers_of_nothing (ht : t.IsCatalogued) (h : t.render .draft3 false = .object members)
    (hk : t.keyword? .disallow = some (.types [])) :
    ("disallow", Json.null) ∈ members ∧ offers .draft3 "disallow" .null = false := by
  refine ⟨?_, by decide +kernel⟩
  have hmem : (KeywordKind.disallow, Keyword.types []) ∈ t.keywords := Entries.mem_of_get? hk
  have hone : ∀ hasEnum, membersIn .draft3 hasEnum .disallow
      ((Keyword.types []).map (written .draft3)) = [("disallow", .null)] := by
    intro hasEnum
    have hkind : ¬(KeywordKind.disallow = .const ∧ Draft.draft3 < .draft6) := by decide
    have hdraft : (draftsOf .disallow).contains .draft3 = true := by decide +kernel
    simp only [membersIn, hkind, hdraft, if_false, if_true]
    rfl
  rcases cases_of_render ht h with ⟨hnone, _⟩ | ⟨hnone, _⟩ | ⟨hmembers, _⟩
  · rw [hnone] at hmem
    cases hmem
  · rw [hnone] at hmem
    cases hmem
  · apply Entries.mem_of_get?
    rw [hmembers]
    apply get?_putPieces_of_alone
    · intro piece hpiece
      obtain ⟨⟨kind, k⟩, hm, rfl⟩ := List.mem_map.mp hpiece
      obtain ⟨entry, he, rfl, hr⟩ := ht.keyword kind k hm
      by_cases hkind : entry.kind = .disallow
      · have hsame := (Entries.get?_of_mem ht.sorted.nodup hm).symm.trans (hkind ▸ hk)
        cases hsame
        left
        rw [hkind]
        exact hone (Entries.contains .enum t.keywords)
      · right
        intro member hm hkey
        rw [← Keyword.readings_map (written .draft3)] at hr
        exact hkind (kind_of_mem_membersIn he hr hm hkey)
    · exact ⟨_, List.mem_map_of_mem hmem, hone (Entries.contains .enum t.keywords)⟩

/-- The members that a draft is written with for a node are keywords of the draft, with values
that these take, unless the draft is the third and the node disallows no type at all. -/
theorem offers_iff (ht : t.IsCatalogued) (h : t.render draft false = .object members)
    (href : Entries.get? "$ref" members = none) :
    (∀ member ∈ members, offers draft member.1 (Shape.of member.2) = true) ↔
      ¬(draft = .draft3 ∧ t.keyword? .disallow = some (.types [])) := by
  constructor
  · rintro hall ⟨rfl, hk⟩
    obtain ⟨hm, hrefused⟩ := not_offers_of_nothing ht h hk
    have hoffers : offers .draft3 "disallow" .null = true := hall _ hm
    rw [hrefused] at hoffers
    cases hoffers
  · intro hnot member hm
    rcases cases_of_render ht h with ⟨_, text, rfl⟩ | ⟨_, b, hb⟩ | ⟨_, hmembers⟩
    · cases href
    · rcases cases_of_renderBoolean hb with rfl | ⟨rfl, rfl⟩ | ⟨hthird, hallows, rfl⟩
      · cases hm
      · rw [List.mem_singleton.mp hm]
        exact writable.third
      · rw [List.mem_singleton.mp hm]
        exact writable.negation draft (Draft.mem_all draft) hthird hallows
    · obtain ⟨entry, he, k, hk, hr, hm⟩ := hmembers member hm
      refine (Keyword.offers_of_mem_membersIn he hr hm (shape_of_written draft k)).resolve_right ?_
      rintro ⟨hthird, hkind, htypes⟩
      have hnothing : k = .types [] := by
        cases k <;> cases htypes
        rfl
      rw [hkind, hnothing] at hk
      exact hnot ⟨hthird, Entries.get?_of_mem ht.sorted.nodup hk⟩

end Schema

open Catalog Schema

/-- An object in what a draft is written with for a loaded schema, be it read as a schema by the
draft or written for a nested schema, consists of keywords of the draft with values that these
take, unless the draft is the third and the object is written for a nested schema that disallows
no type at all. -/
theorem offers_of_given {st : Store} {given : Schema → Prop} {s : Schema} {draft : Draft}
    {members : List (String × Json)} (h : Gave st given) (hs : given s)
    (hm : Json.Schemas draft (s.render draft false) (.object members) ∨
      ∃ t, s.Nests t ∧ t.render draft false = .object members)
    (href : Entries.get? "$ref" members = none) :
    (∀ member ∈ members, offers draft member.1 (Shape.of member.2) = true) ↔
      ¬(draft = .draft3 ∧ ∃ t, s.Nests t ∧ t.render draft false = .object members ∧
        t.keyword? .disallow = some (.types [])) := by
  have hthroughout := h.throughout Loading.gives_isCatalogued s hs
  constructor
  · rintro hall ⟨hthird, t, ht, hrender, hk⟩
    exact (offers_iff (hthroughout t ht) hrender href).mp hall ⟨hthird, hk⟩
  · intro hnot
    have hnode : ∀ t, s.Nests t → t.render draft false = .object members →
        ∀ member ∈ members, offers draft member.1 (Shape.of member.2) = true := by
      intro t ht hrender
      rw [offers_iff (hthroughout t ht) hrender href]
      rintro ⟨hthird, hk⟩
      exact hnot ⟨hthird, t, ht, hrender, hk⟩
    rcases hm with hm | ⟨t, ht, hrender⟩
    · have hpart := part_of_schemas hthroughout hm
      generalize hv : Json.object members = v at hpart
      cases hpart with
      | node ht => exact hnode _ ht hv.symm
      | boolean => cases hv
      | negated =>
        cases hv
        intro member hm
        cases hm
    · exact hnode t ht hrender

theorem Json.eq_object_of_members? {v : Json} {members : List (String × Json)}
    (h : v.members? = some members) : v = .object members := by
  cases v with
  | object => exact congrArg Json.object (Option.some.inj h)
  | _ => cases h

/-- A schema of the seventh draft with keywords that the third one writes otherwise. -/
def Request.modern : Request :=
  .named ⟨"http", some "e.com", .segments ["a.json"], none, none⟩
    (.object [("const", .null), ("contains", .bool true),
      ("exclusiveMinimum", .number (.integer 2)), ("items", .bool false),
      ("multipleOf", .number (.integer 3))])

theorem offers_of_modern : ∃ s w' members, Request.modern.run .standard .empty = (.ok s, w') ∧
    s.render .draft3 false = .object members ∧
    Entries.keys members = ["divisibleBy", "enum", "exclusiveMinimum", "items", "minimum"] ∧
    ∀ member ∈ members, offers .draft3 member.1 (Shape.of member.2) = true := by
  have hcheck : (Request.modern.run .standard .empty).1.toOption.any (fun s =>
      (s.render .draft3 false).members?.any fun members => Entries.keys members =
        ["divisibleBy", "enum", "exclusiveMinimum", "items", "minimum"]) = true := by
    decide +kernel
  obtain ⟨s, w', hr, hs⟩ := Request.exists_of_any_run hcheck
  obtain ⟨members, hobject, hkeys⟩ := (Option.any_eq_true _ _).mp hs
  have hrender := Json.eq_object_of_members? hobject
  have hkeys := of_decide_eq_true hkeys
  have hgave := Gave.request (w := .empty) Request.modern .standard (.nothing Store.empty)
    fun _ _ h => by cases h
  have hs : False ∨ (Request.modern.run .standard .empty).1 = .ok s ∨
      ∃ uri, (Request.modern.run .standard .empty).2.cache.get? uri = some s :=
    Or.inr (Or.inl (congrArg Prod.fst hr))
  have href : Entries.get? "$ref" members = none := by
    rw [Entries.get?_eq_none, hkeys]
    decide
  refine ⟨s, w', members, hr, hrender, hkeys, ?_⟩
  rw [offers_of_given hgave hs (Or.inl (hrender ▸ .root)) href]
  rintro ⟨_, t, ht, hwritten, hk⟩
  have hthroughout := hgave.throughout Loading.gives_isCatalogued s hs
  have hin := List.mem_map_of_mem (f := (·.1))
    (not_offers_of_nothing (hthroughout t ht) hwritten hk).1
  rw [Entries.keys] at hkeys
  rw [hkeys] at hin
  revert hin
  decide

/-- A schema that disallows no type at all. -/
def Request.permissive : Request :=
  .named ⟨"http", some "e.com", .segments ["r.json"], none, none⟩
    (.object [("disallow", .array [])])

theorem not_offers_of_permissive : ∃ s w' members,
    Request.permissive.run (.ofDraft .draft3) .empty = (.ok s, w') ∧ s.isReference = false ∧
    s.render .draft3 false = .object members ∧
    ∃ member ∈ members, offers .draft3 member.1 (Shape.of member.2) = false := by
  have hcheck : (Request.permissive.run (.ofDraft .draft3) .empty).1.toOption.any (fun s =>
      !s.isReference && (s.render .draft3 false).members?.any fun members =>
        members.any fun member => !offers .draft3 member.1 (Shape.of member.2)) = true := by
    decide +kernel
  obtain ⟨s, w', hr, hs⟩ := Request.exists_of_any_run hcheck
  obtain ⟨hobject, hrefuses⟩ := Bool.and_eq_true_iff.mp hs
  obtain ⟨members, hrender, hmembers⟩ := (Option.any_eq_true _ _).mp hrefuses
  obtain ⟨member, hm, hrefused⟩ := List.any_eq_true.mp hmembers
  exact ⟨s, w', members, hr, by simpa using hobject, Json.eq_object_of_members? hrender, member, hm,
    by simpa using hrefused⟩

end SchemaAtlas
