import SchemaAtlas.Proofs.Loading.Nested
import SchemaAtlas.Proofs.Render.Normal
import SchemaAtlas.Schema.Render

/-!
# What a keyword is written as

In one draft a key and a shape leave one candidate at most, and a kind has one key, the bounds
apart. So a keyword that was read under a key is written under it again, as one member or, when
it says nothing, as none. `Keyword.Writes` states this, with one lemma for each way to read a
value.
-/

namespace SchemaAtlas

theorem Draft.mem_all (draft : Draft) : draft ∈ Draft.all := by
  cases draft <;> decide

theorem Shape.mem_all (shape : Shape) : shape ∈ Shape.all := by
  cases shape <;> decide

theorem Shape.of_ne_any (value : Json) : Shape.of value ≠ .any := by
  cases value with
  | number n =>
    rw [Shape.of]
    unfold Shape.ofNumber
    split
    · simp
    · split <;> simp
  | null | bool | string | array | object => simp [Shape.of]

/-- The kinds that are written by rules of their own, whatever the keyword is. -/
def KeywordKind.isSpecial (kind : KeywordKind) : Bool :=
  [.schema, .minimum, .maximum].contains kind

/-- Neither a bound nor a URI is read like this. -/
def Reading.isPlain : Reading → Bool
  | .uri | .limitValue | .limitFlag => false
  | _ => true

/-! ## Candidates in one draft -/

namespace Catalog

variable {draft : Draft}

/-- What the catalog says about the keys and kinds of its entries. -/
structure Regular : Prop where
  /-- No two entries read the same value under the same key in the same draft. -/
  apart : entries.Pairwise fun a b => ¬(a.key = b.key ∧ ∃ draft ∈ Draft.all,
    a.appliesTo draft ∧ b.appliesTo draft ∧ ∃ shape ∈ Shape.all, shape ≠ .any ∧
      a.expects.accepts shape ∧ b.expects.accepts shape)
  kind_of_key : ∀ a ∈ entries, ∀ b ∈ entries, a.key = b.key → ∀ draft ∈ Draft.all,
    a.appliesTo draft → b.appliesTo draft → a.kind = b.kind
  key_of_kind : ∀ entry ∈ entries, ∀ draft ∈ Draft.all, entry.appliesTo draft →
    entry.reading ≠ .limitValue → entry.reading ≠ .limitFlag →
    Schema.keyIn draft entry.kind = entry.key
  draftsOf : ∀ entry ∈ entries, ∀ draft ∈ Draft.all, entry.appliesTo draft →
    (draftsOf entry.kind).contains draft
  plain : ∀ entry ∈ entries, entry.reading.isPlain → !entry.kind.isSpecial
  schema : ∀ entry ∈ entries, entry.kind = .schema ↔ entry.key = "$schema"
  uri : ∀ entry ∈ entries, entry.reading = .uri → entry.kind = .schema ∨ entry.kind = .id
  stringSet : ∀ entry ∈ entries, entry.reading = .stringSet → entry.kind = .required
  types : ∀ entry ∈ entries, entry.reading = .types → entry.kind = .type ∨ entry.kind = .disallow
  /-- What reads a boolean as a schema stands in a draft that has boolean schemas, or under a key
  that has always taken one. -/
  boolean : ∀ entry ∈ entries, entry.reading = .schema → entry.expects = .boolean →
    ∀ draft ∈ Draft.all, entry.appliesTo draft → entry.kind = .additionalProperties ∨
      entry.kind = .additionalItems ∨ draft.allowsBooleanSchemas

theorem regular : Regular where
  apart := by decide +kernel
  kind_of_key := by decide +kernel
  key_of_kind := by decide +kernel
  draftsOf := by decide +kernel
  plain := by decide +kernel
  schema := by decide +kernel
  uri := by decide +kernel
  stringSet := by decide +kernel
  types := by decide +kernel
  boolean := by decide +kernel

/-- The kind that a key stands for in a draft. -/
def kindIn? (draft : Draft) (key : String) : Option KeywordKind :=
  (entries.find? fun entry => entry.key = key && entry.appliesTo draft).map (·.kind)

theorem kindIn?_of_mem {entry : CatalogEntry} (he : entry ∈ entries)
    (hd : entry.appliesTo draft) : kindIn? draft entry.key = some entry.kind := by
  unfold kindIn?
  cases hf : entries.find? fun other => other.key = entry.key && other.appliesTo draft with
  | none => simpa [hd] using List.find?_eq_none.mp hf entry he
  | some other =>
    have hother := List.find?_some
      (p := fun other : CatalogEntry => other.key = entry.key && other.appliesTo draft) hf
    obtain ⟨hkey, hother⟩ := Bool.and_eq_true_iff.mp hother
    exact congrArg some (regular.kind_of_key other (List.mem_of_find?_eq_some hf) entry he
      (of_decide_eq_true hkey) draft (Draft.mem_all draft) hother hd)

theorem kindIn?_eq_none {key : String} :
    kindIn? draft key = none ↔ ∀ entry ∈ entries, entry.key = key → ¬ entry.appliesTo draft := by
  simp [kindIn?, List.find?_eq_none]

theorem insertByDraft_perm (entry : CatalogEntry) (list : List CatalogEntry) :
    (insertByDraft entry list).Perm (entry :: list) := by
  induction list with
  | nil => exact .refl _
  | cons first rest ih =>
    rw [insertByDraft]
    dsimp only
    split
    · exact .refl _
    · exact (ih.cons first).trans (.swap entry first rest)

theorem candidates_perm (key : String) :
    (candidates key).Perm (entries.filter (·.key = key)) := by
  have hsorted : ∀ list sorted : List CatalogEntry,
      (list.foldl (fun sorted entry => insertByDraft entry sorted) sorted).Perm
        (list ++ sorted) := by
    intro list
    induction list with
    | nil => exact fun sorted => .refl _
    | cons first rest ih =>
      intro sorted
      exact (ih _).trans (((insertByDraft_perm first sorted).append_left rest).trans
        List.perm_middle)
  have h := hsorted (entries.filter (·.key = key)) []
  rwa [List.append_nil] at h

theorem intersects_only (drafts : DraftSet) :
    drafts.intersects (.only draft) = drafts.contains draft := by
  rw [Bool.eq_iff_iff, DraftSet.intersects, List.any_eq_true]
  simp only [DraftSet.only, DraftSet.contains_filter, decide_eq_true_eq]
  simp [DraftSet.contains]

theorem applicable_perm (draft : Draft) (key : String) :
    (applicable key (.only draft)).Perm (entries.filter fun entry =>
      entry.key = key && entry.appliesTo draft) := by
  have h := (candidates_perm key).filter fun entry => entry.drafts.intersects (.only draft)
  rw [List.filter_filter] at h
  refine h.trans (.of_eq (List.filter_congr fun entry _ => ?_))
  rw [intersects_only, Bool.and_comm]
  rfl

theorem applicable_eq_nil {key : String} :
    applicable key (.only draft) = [] ↔ kindIn? draft key = none := by
  rw [kindIn?_eq_none]
  constructor
  · intro h
    have hperm := applicable_perm draft key
    rw [h, List.nil_perm, List.filter_eq_nil_iff] at hperm
    simpa using hperm
  · intro h
    refine List.Perm.eq_nil ((applicable_perm draft key).trans (.of_eq ?_))
    exact List.filter_eq_nil_iff.mpr (by simpa using h)

theorem filter_eq_find? {p : CatalogEntry → Bool} {list : List CatalogEntry}
    (h : list.Pairwise fun a b => ¬(p a ∧ p b)) : list.filter p = (list.find? p).toList := by
  induction list with
  | nil => rfl
  | cons first rest ih =>
    obtain ⟨hfirst, hrest⟩ := List.pairwise_cons.mp h
    by_cases hp : p first
    · rw [List.filter_cons_of_pos hp, List.find?_cons_of_pos hp, Option.toList_some,
        List.filter_eq_nil_iff.mpr fun other hother ho => hfirst other hother ⟨hp, ho⟩]
    · rw [List.filter_cons_of_neg hp, List.find?_cons_of_neg hp, ih hrest]

/-- In one draft a value has one candidate at most. -/
theorem matching_eq (key : String) (value : Json) :
    (applicable key (.only draft)).filter (·.expects.accepts (Shape.of value)) =
      (entryFor? draft key value).toList := by
  have hperm := (applicable_perm draft key).filter (·.expects.accepts (Shape.of value))
  have hreads : ((entries.filter fun entry => entry.key = key && entry.appliesTo draft).filter
      (·.expects.accepts (Shape.of value))) =
      entries.filter (·.reads draft key (Shape.of value)) := by
    rw [List.filter_filter]
    exact List.filter_congr fun entry _ => Bool.and_comm _ _
  have hapart : entries.Pairwise fun a b =>
      ¬(a.reads draft key (Shape.of value) ∧ b.reads draft key (Shape.of value)) := by
    refine regular.apart.imp ?_
    intro a b hab hreads
    simp only [CatalogEntry.reads, Bool.and_eq_true, decide_eq_true_eq] at hreads
    obtain ⟨⟨⟨ha, had⟩, has⟩, ⟨hb, hbd⟩, hbs⟩ := hreads
    exact hab ⟨ha.trans hb.symm, draft, Draft.mem_all draft, had, hbd, Shape.of value,
      Shape.mem_all _, Shape.of_ne_any value, has, hbs⟩
  rw [hreads, filter_eq_find? hapart] at hperm
  rw [entryFor?]
  cases h : entries.find? (·.reads draft key (Shape.of value)) with
  | none => simpa [h] using hperm
  | some entry => simpa [h] using hperm

theorem entryFor?_some {key : String} {value : Json} {entry : CatalogEntry}
    (h : entryFor? draft key value = some entry) :
    entry ∈ entries ∧ entry.key = key ∧ entry.appliesTo draft ∧
      entry.expects.accepts (Shape.of value) := by
  have hfound := List.find?_some
    (p := fun entry : CatalogEntry => entry.reads draft key (Shape.of value)) h
  simp only [CatalogEntry.reads, Bool.and_eq_true, decide_eq_true_eq] at hfound
  exact ⟨List.mem_of_find?_eq_some h, hfound.1.1, hfound.1.2, hfound.2⟩

end Catalog

/-! ## Keywords -/

/-- A schema with what it is rendered as. -/
def Schema.rendered (draft : Draft) (s : Schema) : Schema × Json := (s, s.render draft true)

theorem Schema.render_eq (draft : Draft) (s : Schema) :
    s.render draft true = renderBody draft true (s.body.map (rendered draft)) :=
  descend_node _ s

/-- The schema says in a draft what a value says. -/
structure Schema.Copies (draft : Draft) (value : Json) (s : Schema) : Prop where
  render : s.render draft true = value.normalize draft
  boolean? : s.boolean? = value.bool?

namespace Keyword

/-- Whether a keyword of a kind is written as its value is, under the key of the kind. -/
def isPlain {σ : Type} (kind : KeywordKind) (keyword : Keyword σ) : Bool :=
  !kind.isSpecial &&
    match keyword with
    | .schema _ => kind ≠ .additionalProperties && kind ≠ .additionalItems
    | .names set => kind ≠ .required || !set.isEmpty
    | .types _ => kind ≠ .type
    | .union _ _ => false
    | _ => true

theorem keywordMembers_of_isPlain {draft : Draft} {kind : KeywordKind}
    {keyword : Keyword (Schema × Json)} (h : keyword.isPlain kind) :
    Schema.keywordMembers draft kind keyword =
      [(Schema.keyIn draft kind, Schema.renderValue draft keyword)] := by
  unfold Schema.keywordMembers
  split <;> simp_all [isPlain, KeywordKind.isSpecial]

/-- A keyword of a kind is written under a key as one value, or not at all. -/
def Writes (draft : Draft) (kind : KeywordKind) (key : String) (keyword : Keyword Schema)
    (normal : Option Json) : Prop :=
  Schema.keywordMembers draft kind (keyword.map (Schema.rendered draft)) =
    normal.toList.map fun json => (key, json)

section

open Catalog

variable {draft : Draft} {entry : CatalogEntry} (he : entry ∈ entries)
  (hd : entry.appliesTo draft)

include he

theorem key_ne_schema (hr : entry.reading.isPlain) : entry.key ≠ "$schema" := by
  intro hkey
  have hplain := regular.plain entry he hr
  rw [(regular.schema entry he).mpr hkey] at hplain
  exact absurd hplain (by decide)

include hd

/-- A plain keyword is written in the form of its value. -/
theorem writes_of_isPlain {keyword : Keyword Schema} {json : Json} (hr : entry.reading.isPlain)
    (hk : keyword.isPlain entry.kind)
    (hjson : Schema.renderValue draft (keyword.map (Schema.rendered draft)) = json) :
    keyword.Writes draft entry.kind entry.key (some json) := by
  have hmap : (keyword.map (Schema.rendered draft)).isPlain entry.kind := by
    cases keyword <;> exact hk
  have hkey : Schema.keyIn draft entry.kind = entry.key := by
    apply regular.key_of_kind entry he draft (Draft.mem_all draft) hd <;> intro h <;> rw [h] at hr <;>
      exact absurd hr (by decide)
  rw [Writes, keywordMembers_of_isPlain hmap, hjson, hkey]
  rfl

/-- A keyword whose form no kind but the bounds changes. -/
theorem writes_of_value {keyword : Keyword Schema} {value : Json} (hr : entry.reading.isPlain)
    (hk : ∀ kind, keyword.isPlain kind = !kind.isSpecial)
    (hnormal : Json.normalizeValue draft entry.key (some entry.reading) value =
      some (Schema.renderValue draft (keyword.map (Schema.rendered draft)))) :
    keyword.Writes draft entry.kind entry.key
      (Json.normalizeValue draft entry.key (some entry.reading) value) := by
  rw [hnormal]
  exact writes_of_isPlain he hd hr ((hk _).trans (regular.plain entry he hr)) rfl

theorem writes_string {text : String} (hr : entry.reading.isPlain) :
    (Keyword.string text).Writes draft entry.kind entry.key
      (Json.normalizeValue draft entry.key (some entry.reading) (.string text)) := by
  refine writes_of_value he hd hr (fun _ => Bool.and_true _) ?_
  rw [Json.normalizeValue_string (key_ne_schema he hr)]
  rfl

theorem writes_uri {text : String} (hr : entry.reading = .uri) :
    (Keyword.uri text).Writes draft entry.kind entry.key
      (Json.normalizeValue draft entry.key (some entry.reading) (.string text)) := by
  have hkey : Schema.keyIn draft entry.kind = entry.key :=
    regular.key_of_kind entry he draft (Draft.mem_all draft) hd (by simp [hr]) (by simp [hr])
  have hschema := regular.schema entry he
  rw [Json.normalizeValue, Writes, ← hkey]
  rcases regular.uri entry he hr with hkind | hkind
  · rw [if_pos (hkey.trans (hschema.mp hkind)), hkind]
    rfl
  · have hne : entry.key ≠ "$schema" := fun h => by simp [hschema.mpr h] at hkind
    rw [if_neg (hkey ▸ hne), hkind]
    rfl

theorem writes_number {n : Number} (hr : entry.reading = .positiveNumber) :
    (Keyword.number n).Writes draft entry.kind entry.key
      (Json.normalizeValue draft entry.key (some entry.reading) (.number n)) := by
  refine writes_of_value he hd (by rw [hr]; rfl) (fun _ => Bool.and_true _) ?_
  rw [Json.normalizeValue, if_neg (by simp [hr])]
  rfl

omit he hd in
theorem whole_eq_of_count? {n : Number} {count : Nat} (hn : n.count? = some count)
    (hsmall : n.whole < Nat.pow 2 64) : n.whole = count := by
  cases n with
  | integer i =>
    simp only [Number.count?] at hn
    split at hn
    · cases hn
      simp only [Number.whole]
      omega
    · cases hn
  | float x =>
    simp only [Number.count?] at hn
    split at hn
    · rename_i hrange
      cases hn
      have hle : (Binary64.zero false).le x := by
        simp only [Bool.and_eq_true] at hrange
        exact hrange.1.1
      have hunits : 0 ≤ x.units := by simpa [Binary64.le, Binary64.units, Binary64.zero] using hle
      have htruncate : 0 ≤ x.truncate := Int.tdiv_nonneg hunits (by decide)
      simp only [Number.whole] at hsmall ⊢
      omega
    · cases hn

theorem writes_count {n : Number} {count : Nat} (hr : entry.reading = .nonNegativeInteger)
    (hn : n.count? = some count) (hsmall : n.whole < Nat.pow 2 64) :
    (Keyword.count count).Writes draft entry.kind entry.key
      (Json.normalizeValue draft entry.key (some entry.reading) (.number n)) := by
  refine writes_of_value he hd (by rw [hr]; rfl) (fun _ => Bool.and_true _) ?_
  rw [Json.normalizeValue, if_pos (by rw [hr]), Json.normalCount, whole_eq_of_count? hn hsmall]
  rfl

theorem writes_boolean {b : Bool} (hr : entry.reading = .boolean) :
    (Keyword.boolean b).Writes draft entry.kind entry.key
      (Json.normalizeValue draft entry.key (some entry.reading) (.bool b)) := by
  refine writes_of_value he hd (by rw [hr]; rfl) (fun _ => Bool.and_true _) ?_
  rw [Json.normalizeValue, if_neg (by simp [hr])]
  rfl

theorem writes_json {value : Json} (hr : entry.reading = .json) :
    (Keyword.json value).Writes draft entry.kind entry.key
      (Json.normalizeValue draft entry.key (some entry.reading) value) := by
  have hplain : entry.reading.isPlain := by rw [hr]; rfl
  refine writes_of_value he hd hplain (fun _ => Bool.and_true _) ?_
  cases value with
  | string text =>
    rw [Json.normalizeValue_string (key_ne_schema he hplain)]
    rfl
  | null | bool | number | array | object =>
    simp [Json.normalizeValue, hr, Keyword.map, Schema.renderValue]

theorem writes_jsonList {elements : List Json} (hr : entry.reading = .jsonList) :
    (Keyword.jsonList elements).Writes draft entry.kind entry.key
      (Json.normalizeValue draft entry.key (some entry.reading) (.array elements)) := by
  refine writes_of_value he hd (by rw [hr]; rfl) (fun _ => Bool.and_true _) ?_
  rw [hr]
  rfl

/-! ### Sets -/

omit he hd in
theorem ofList_ne_nil {α : Type} [LT α] [DecidableLT α] [DecidableEq α] {list : List α}
    (h : list ≠ []) : Members.ofList list ≠ [] := by
  obtain ⟨x, hx⟩ := List.exists_mem_of_ne_nil list h
  exact List.ne_nil_of_mem ((Members.mem_union [] list x).mpr (Or.inr hx))

theorem writes_names {names : List String} (hr : entry.reading = .stringSet) :
    (Keyword.names (Members.ofList names)).Writes draft entry.kind entry.key
      (Json.normalizeValue draft entry.key (some entry.reading)
        (.array (names.map Json.string))) := by
  rw [hr, Json.normalizeValue]
  cases names with
  | nil =>
    rw [Writes, regular.stringSet entry he hr]
    rfl
  | cons name rest =>
    have hstrings : ∀ texts : List String,
        (texts.map Json.string).filterMap Json.string? = texts := by
      intro texts
      simp [List.filterMap_map, Function.comp_def, Json.string?]
    have hplain : entry.reading.isPlain := by rw [hr]; rfl
    refine writes_of_isPlain he hd hplain ?_ ?_
    · have hset : Members.ofList (name :: rest) ≠ [] := ofList_ne_nil (List.cons_ne_nil _ _)
      simp [isPlain, KeywordKind.isSpecial, hset, regular.stringSet entry he hr]
    · simp only [Keyword.map, Schema.renderValue, Json.normalNames, hstrings]

/-! ### Schemas -/

theorem writes_schema {members : List (String × Json)} {s : Schema}
    (hr : entry.reading = .schema) (hs : s.Copies draft (.object members)) :
    (Keyword.schema s).Writes draft entry.kind entry.key
      (Json.normalizeValue draft entry.key (some entry.reading) (.object members)) := by
  have hplain : entry.reading.isPlain := by rw [hr]; rfl
  have hkind := regular.plain entry he hplain
  have hrender : s.render draft true = .object (Json.normalizeMembers draft members) := hs.render
  have hkey : Schema.keyIn draft entry.kind = entry.key :=
    regular.key_of_kind entry he draft (Draft.mem_all draft) hd (by simp [hr]) (by simp [hr])
  have hboolean : s.boolean? = none := hs.boolean?
  rw [hr, Json.normalizeValue, Writes, ← hkey, Keyword.map, Schema.rendered, hrender]
  cases hk : entry.kind <;> rw [hk] at hkind <;>
    first
    | exact absurd hkind (by decide)
    | rfl
    | simp [Schema.keywordMembers, hboolean]

/-- A boolean is a schema of its own in every form of a schema. -/
theorem writes_booleanSchema {s : Schema} {b : Bool} (hr : entry.reading = .schema)
    (hexpects : entry.expects = .boolean) (hs : s.body = .boolean b) :
    (Keyword.schema s).Writes draft entry.kind entry.key
      (Json.normalizeValue draft entry.key (some entry.reading) (.bool b)) := by
  have hkey : Schema.keyIn draft entry.kind = entry.key :=
    regular.key_of_kind entry he draft (Draft.mem_all draft) hd (by simp [hr]) (by simp [hr])
  have hboolean : s.boolean? = some b := by rw [Schema.boolean?, hs]
  have hnormal : Json.normalizeValue draft entry.key (some entry.reading) (.bool b) =
      some (.bool b) := by simp [Json.normalizeValue, hr]
  rw [hnormal]
  by_cases hkind : entry.kind = .additionalProperties ∨ entry.kind = .additionalItems
  · rcases hkind with hkind | hkind <;>
      simp [Writes, ← hkey, hkind, Keyword.map, Schema.rendered, Schema.keywordMembers, hboolean]
  · obtain ⟨hproperties, hitems⟩ := not_or.mp hkind
    have hallows : draft.allowsBooleanSchemas :=
      ((regular.boolean entry he hr hexpects draft (Draft.mem_all draft) hd).resolve_left
        hproperties).resolve_left hitems
    have hplain : entry.reading.isPlain := by rw [hr]; rfl
    refine writes_of_isPlain he hd hplain ?_ ?_
    · rw [isPlain, regular.plain entry he hplain]
      simp [hproperties, hitems]
    · rw [Keyword.map, Schema.renderValue, Schema.rendered, Schema.render_eq, hs]
      exact if_pos hallows

theorem writes_schemaList {elements : List Json} {list : List Schema}
    (hr : entry.reading = .schemaList)
    (hl : list.map (Schema.render draft true) = elements.map (Json.normalize draft)) :
    (Keyword.schemaList list).Writes draft entry.kind entry.key
      (Json.normalizeValue draft entry.key (some entry.reading) (.array elements)) := by
  refine writes_of_value he hd (by rw [hr]; rfl) (fun _ => Bool.and_true _) ?_
  rw [hr, Json.normalizeValue, Json.normalizeElements_eq, ← hl, Keyword.map, Schema.renderValue,
    List.map_map]
  rfl

theorem writes_singleSchema {members : List (String × Json)} {s : Schema}
    (hr : entry.reading = .schemaList) (hs : s.Copies draft (.object members)) :
    (Keyword.schemaList [s]).Writes draft entry.kind entry.key
      (Json.normalizeValue draft entry.key (some entry.reading) (.object members)) := by
  refine writes_of_value he hd (by rw [hr]; rfl) (fun _ => Bool.and_true _) ?_
  rw [hr, Json.normalizeValue]
  exact congrArg (fun json => some (Json.array [json])) hs.render.symm

theorem writes_tuple {elements : List Json} {list : List Schema} (hr : entry.reading = .items)
    (hl : list.map (Schema.render draft true) = elements.map (Json.normalize draft)) :
    (Keyword.tuple list).Writes draft entry.kind entry.key
      (Json.normalizeValue draft entry.key (some entry.reading) (.array elements)) := by
  refine writes_of_value he hd (by rw [hr]; rfl) (fun _ => Bool.and_true _) ?_
  rw [hr, Json.normalizeValue, Json.normalizeElements_eq, ← hl, Keyword.map, Schema.renderValue,
    List.map_map]
  rfl

theorem writes_items {value : Json} {s : Schema} (hr : entry.reading = .items)
    (hv : Digest.isSchemaDependency value) (hs : s.Copies draft value) :
    (Keyword.items s).Writes draft entry.kind entry.key
      (Json.normalizeValue draft entry.key (some entry.reading) value) := by
  refine writes_of_value he hd (by rw [hr]; rfl) (fun _ => Bool.and_true _) ?_
  have hnormal : Json.normalizeValue draft entry.key (some entry.reading) value =
      some (value.normalize draft) := by
    cases value with
    | object members => rw [hr]; rfl
    | bool b => simp [Json.normalizeValue, hr, Json.normalize]
    | null | number | string | array => cases hv
  rw [hnormal, ← hs.render]
  rfl

theorem writes_schemaMap {members : List (String × Json)} {entries : List (String × Schema)}
    (hr : entry.reading = .schemaMap)
    (hl : Entries.mapValues (Schema.render draft true) entries =
      Json.normalizeEntries draft members) :
    (Keyword.schemaMap entries).Writes draft entry.kind entry.key
      (Json.normalizeValue draft entry.key (some entry.reading) (.object members)) := by
  refine writes_of_value he hd (by rw [hr]; rfl) (fun _ => Bool.and_true _) ?_
  rw [hr, Json.normalizeValue, ← hl]
  simp [Keyword.map, Schema.renderValue, Entries.mapValues, Schema.rendered]

theorem writes_dependencies {members : List (String × Json)}
    {entries : List (String × Dependency Schema)} (hr : entry.reading = .dependencies)
    (hl : Schema.renderValue draft ((Keyword.dependencies entries).map (Schema.rendered draft)) =
      .object (Json.normalizeDependencies draft members)) :
    (Keyword.dependencies entries).Writes draft entry.kind entry.key
      (Json.normalizeValue draft entry.key (some entry.reading) (.object members)) := by
  refine writes_of_value he hd (by rw [hr]; rfl) (fun _ => Bool.and_true _) ?_
  rw [hr, hl]
  rfl

/-! ### Types -/

omit he hd in
theorem renderTypes_eq {set : List Shape} (hset : set ≠ [])
    (hany : draft = .draft3 ∨ .any ∉ set) :
    Schema.renderTypes draft set = some (Json.normalTypes set []) := by
  have hall : set.filter (fun shape => shape ≠ .any || draft = .draft3) = set := by
    rw [List.filter_eq_self]
    intro shape hshape
    rcases hany with rfl | hany
    · simp
    · have hne : shape ≠ .any := by
        rintro rfl
        exact hany hshape
      simp [hne]
  rw [Schema.renderTypes, hall]
  cases set with
  | nil => exact absurd rfl hset
  | cons shape rest =>
    cases rest with
    | nil => rfl
    | cons other rest => simp [Json.normalTypes]

/-- The names of types, and the schemas beside them in the third draft. -/
theorem writes_types {elements : List Json} {schemas : List Schema} (hr : entry.reading = .types)
    (hschemas : schemas.map (Schema.render draft true) = Json.normalizeSchemas draft elements)
    (hthird : draft = .draft3 ∨ .any ∉ Json.namedTypes elements ∧ schemas = [])
    (hne : schemas = [] → Json.namedTypes elements ≠ []) :
    (if schemas.isEmpty then Keyword.types (Members.ofList (Json.namedTypes elements))
      else .union (Members.ofList (Json.namedTypes elements)) schemas).Writes draft entry.kind
      entry.key (Json.normalizeValue draft entry.key (some entry.reading) (.array elements)) := by
  have hkey : Schema.keyIn draft entry.kind = entry.key :=
    regular.key_of_kind entry he draft (Draft.mem_all draft) hd (by simp [hr]) (by simp [hr])
  have hmem := fun shape => Members.mem_union [] (Json.namedTypes elements) shape
  rw [hr, Json.normalizeValue, Writes, ← hkey, ← hschemas]
  cases schemas with
  | nil =>
    have hrender : Schema.renderTypes draft (Members.ofList (Json.namedTypes elements)) =
        some (Json.normalTypes (Members.ofList (Json.namedTypes elements)) []) := by
      refine renderTypes_eq (ofList_ne_nil (hne rfl)) (hthird.imp_right fun h hm => h.1 ?_)
      exact ((hmem .any).mp hm).resolve_left List.not_mem_nil
    rcases regular.types entry he hr with hkind | hkind <;>
      simp [hkind, Keyword.map, Schema.keywordMembers, Schema.renderValue, hrender]
  | cons s rest =>
    have hdraft : draft = .draft3 := hthird.resolve_right fun h => by simp at h
    subst hdraft
    rcases regular.types entry he hr with hkind | hkind <;>
      simp [hkind, Keyword.map, Schema.keywordMembers, Schema.renderValue, Json.normalTypes,
        Schema.rendered, Function.comp_def]

end

end Keyword
end SchemaAtlas
