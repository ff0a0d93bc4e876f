import SchemaAtlas.Proofs.Loading.Catalogued
import SchemaAtlas.Proofs.Loading.Position
import SchemaAtlas.Proofs.Schema.Ordered

/-!
# The identifier of an object

An object is asked for its identifier twice. For its location the keys of the drafts in use are
tried from the newest on, and the first text decides. As a keyword the identifier is read
member by member, and the last text stays. `Position.Describes.agrees_iff` says when the scope
of a node is what its identifier keyword says all the same, and `Position.Torn.spelled` what an
object must be like for the two to differ: it declares one identifier under the key of older
drafts and another one under that of newer drafts, unless no draft is in use at all.
-/

namespace SchemaAtlas

/-- The keys that identifiers are looked for under are those of the drafts in use. -/
theorem DraftSet.mem_idKeys {active : DraftSet} (h : active.drafts ≠ []) {key : String} :
    key ∈ active.idKeys ↔ key ∈ active.drafts.map Draft.idKey := by
  unfold idKeys newestFirst
  split
  · rename_i hnil
    have hempty : ∀ key, key ∉ (active.drafts.reverse.map Draft.idKey).eraseDups := by
      rw [hnil]
      exact fun _ => List.not_mem_nil
    obtain ⟨draft, hdraft⟩ := List.exists_mem_of_ne_nil _ h
    refine absurd (List.mem_eraseDups.mpr (List.mem_map_of_mem ?_)) (hempty draft.idKey)
    exact List.mem_reverse.mpr hdraft
  · rw [List.mem_eraseDups, List.map_reverse, List.mem_reverse]

namespace Catalog

/-- The entry for identifiers of a draft. -/
def identifierEntry (draft : Draft) : CatalogEntry :=
  if draft ≤ .draft5 then ⟨"id", .id, .string, d3to5, .uri⟩ else ⟨"$id", .id, .string, since6, .uri⟩

/-- The key for identifiers of a draft has no other entry. -/
theorem candidates_idKey (draft : Draft) : candidates draft.idKey = [identifierEntry draft] := by
  cases draft <;> decide +kernel

theorem applicable_idKey {active : DraftSet} {draft : Draft} (h : draft ∈ active.drafts) :
    applicable draft.idKey active = [identifierEntry draft] := by
  have hdraft : draft ∈ (identifierEntry draft).drafts.drafts := by cases draft <;> decide
  have hactive : (identifierEntry draft).drafts.intersects active = true :=
    List.any_eq_true.mpr ⟨draft, hdraft, List.contains_iff_mem.mpr h⟩
  rw [applicable, candidates_idKey, List.filter_singleton, hactive]
  rfl

/-- An identifier is read under the keys of the drafts in use only. -/
theorem idKey_of_applicable {active : DraftSet} {key : String} {entry : CatalogEntry}
    (h : entry ∈ applicable key active) (hkind : entry.kind = .id) :
    key ∈ active.drafts.map Draft.idKey := by
  have hkeys : ∀ entry ∈ entries, entry.kind = .id → ∀ draft ∈ entry.drafts.drafts,
      draft.idKey = entry.key := by
    decide +kernel
  obtain ⟨hm, rfl⟩ := Digest.mem_applicable h
  obtain ⟨draft, hdraft, hactive⟩ := List.any_eq_true.mp (List.mem_filter.mp h).2
  exact List.mem_map.mpr
    ⟨draft, List.contains_iff_mem.mp hactive, hkeys entry hm hkind draft hdraft⟩

end Catalog

namespace Digest

open LoadM

/-- The identifier that a member declares. -/
def identifier? (active : DraftSet) (entry : String × Json) : Option String :=
  if entry.1 ∈ active.drafts.map Draft.idKey then entry.2.string? else none

/-- The identifiers that the members of an object declare, in their order. -/
def identifiers (active : DraftSet) (members : List (String × Json)) : List String :=
  members.filterMap (identifier? active)

variable {load : Loader} {active : DraftSet} {object : List (String × Json)} {key : String}
  {value : Json} {builder after : Builder} {s s' : Session}

theorem keyword?_of_tryCandidates {kind : KeywordKind} {location : Location}
    {candidates : List CatalogEntry} (hc : ∀ entry ∈ candidates, entry.kind ≠ kind)
    (h : Runs (tryCandidates load active object location value builder candidates) s
      (.ok after) s') : after.keyword? kind = builder.keyword? kind := by
  induction candidates generalizing s with
  | nil =>
    cases (runs_pure.mp h).1
    rfl
  | cons entry rest ih =>
    obtain ⟨found, s₁, _, hr⟩ := runs_bind_ok.mp h
    cases found with
    | none => exact ih (fun e he => hc e (List.mem_cons_of_mem _ he)) hr
    | some k =>
      cases (runs_pure.mp hr).1
      exact (Entries.get?_insert ..).trans (if_neg (hc entry List.mem_cons_self).symm)

/-- A member whose key belongs to other kinds leaves a keyword alone. -/
theorem keyword?_of_member {kind : KeywordKind}
    (hc : ∀ entry ∈ Catalog.applicable key active, entry.kind ≠ kind)
    (h : Runs (member load active object key value builder) s (.ok after) s') :
    after.keyword? kind = builder.keyword? kind := by
  unfold member at h
  dsimp only at h
  split at h
  · have h := runs_get_bind.mp h
    split at h
    · obtain ⟨_, _, _, h⟩ := runs_bind_ok.mp h
      cases (runs_pure.mp h).1
      rfl
    · cases (runs_pure.mp h).1
      rfl
  · split at h
    · obtain ⟨_, _, _, h⟩ := runs_bind_ok.mp h
      cases (runs_pure.mp h).1
      rfl
    · exact keyword?_of_tryCandidates (fun e he => hc e (List.mem_filter.mp he).1) h

/-- A text under the key of a draft in use becomes the identifier. -/
theorem identifier_of_text {draft : Draft} (hd : draft ∈ active.drafts) {text : String}
    (h : Runs (member load active object draft.idKey (.string text) builder) s (.ok after) s') :
    after.keyword? .id = some (.uri text) := by
  have hkind : (Catalog.identifierEntry draft).kind = .id := by cases draft <;> rfl
  have hreading : (Catalog.identifierEntry draft).reading = .uri := by cases draft <;> rfl
  have hmatching : [Catalog.identifierEntry draft].filter
      (·.expects.accepts (Shape.of (.string text))) = [Catalog.identifierEntry draft] := by
    cases draft <;> rfl
  unfold member at h
  dsimp only at h
  rw [Catalog.applicable_idKey hd, hmatching] at h
  simp only [List.isEmpty_cons, Bool.false_eq_true, if_false] at h
  obtain ⟨found, s₁, hk, h⟩ := runs_bind_ok.mp h
  unfold keyword at hk
  simp only [hreading] at hk
  obtain ⟨k, _, hu, hk⟩ := runs_bind_ok.mp hk
  cases (runs_pure.mp hk).1
  cases (runs_pure.mp h).1
  rw [form_of_uriText hu, hkind]
  exact (Entries.get?_insert ..).trans (if_pos rfl)

/-- What is no text is no identifier. -/
theorem keyword?_of_misfit {draft : Draft} (hd : draft ∈ active.drafts) (hv : value.string? = none)
    (h : Runs (member load active object draft.idKey value builder) s (.ok after) s') :
    after = builder := by
  have hmatching : [Catalog.identifierEntry draft].filter (·.expects.accepts (Shape.of value)) =
      [] := by
    cases value with
    | string => cases hv
    | null | bool | array | object => cases draft <;> rfl
    | number n =>
      have hshape : Shape.of (.number n) = .integer ∨ Shape.of (.number n) = .number := by
        cases n with
        | integer => exact Or.inl rfl
        | float x => exact ite_eq_or_eq ..
      rcases hshape with hshape | hshape <;> rw [hshape] <;> cases draft <;> rfl
  unfold member at h
  dsimp only at h
  rw [Catalog.applicable_idKey hd, hmatching] at h
  simp only [List.isEmpty_cons, Bool.false_eq_true, if_false, List.isEmpty_nil, if_true] at h
  obtain ⟨_, _, _, h⟩ := runs_bind_ok.mp h
  cases (runs_pure.mp h).1
  rfl

theorem identifier_of_member
    (h : Runs (member load active object key value builder) s (.ok after) s') :
    after.keyword? .id =
      ((identifier? active (key, value)).map .uri).or (builder.keyword? .id) := by
  unfold identifier?
  split
  · rename_i hkey
    obtain ⟨draft, hd, rfl⟩ := List.mem_map.mp hkey
    cases value with
    | string text => exact identifier_of_text hd h
    | null | bool | number | array | object =>
      rw [keyword?_of_misfit hd rfl h]
      rfl
  · rename_i hkey
    exact keyword?_of_member (fun entry he hkind => hkey (Catalog.idKey_of_applicable he hkind)) h

/-- The identifier that was read last stays. -/
theorem identifier_of_members {list : List (String × Json)}
    (h : Runs (members load active object list builder) s (.ok after) s') :
    after.keyword? .id =
      ((identifiers active list).getLast?.map .uri).or (builder.keyword? .id) := by
  induction list generalizing builder s with
  | nil =>
    cases (runs_pure.mp h).1
    rfl
  | cons entry rest ih =>
    obtain ⟨next, s₁, hm, h⟩ := runs_bind_ok.mp h
    rw [ih h, identifier_of_member hm, identifiers, identifiers]
    cases hi : identifier? active entry with
    | none => rw [List.filterMap_cons_none hi]; rfl
    | some text =>
      rw [List.filterMap_cons_some hi, List.getLast?_cons]
      cases (List.filterMap (identifier? active) rest).getLast? <;> rfl

/-! ## Members in order -/

/-- The identifier that an object declares under a key of a draft in use. -/
def identifierAt? (active : DraftSet) (members : List (String × Json)) (key : String) :
    Option String :=
  (Entries.get? key members).bind fun value => identifier? active (key, value)

theorem identifierAt?_cons (key other : String) (value : Json) (rest : List (String × Json)) :
    identifierAt? active ((other, value) :: rest) key =
      if key = other then identifier? active (other, value) else identifierAt? active rest key := by
  rw [identifierAt?, Entries.get?]
  split
  · rename_i heq
    cases heq
    rfl
  · rfl

/-- Below the first key of an object in order nothing is found. -/
theorem identifierAt?_of_le {members : List (String × Json)} {bound key : String}
    (hb : ∀ entry ∈ members, bound < entry.1) (hle : key ≤ bound) :
    identifierAt? active members key = none := by
  have hnone : Entries.get? key members = none := by
    rw [Entries.get?_eq_none]
    intro hm
    obtain ⟨entry, he, rfl⟩ := List.mem_map.mp hm
    exact absurd (hb entry he) (not_lt_of_ge hle)
  rw [identifierAt?, hnone]
  rfl

/-- Of two identifiers of an object in order the one of the older drafts stays. -/
theorem getLast?_identifiers {members : List (String × Json)} (hs : Entries.Sorted members) :
    (identifiers active members).getLast? =
      (identifierAt? active members "id").or (identifierAt? active members "$id") := by
  induction members with
  | nil => rfl
  | cons entry rest ih =>
    obtain ⟨key, value⟩ := entry
    obtain ⟨hfirst, hrest⟩ := List.pairwise_cons.mp hs
    have hcons : (identifiers active ((key, value) :: rest)).getLast? =
        (identifiers active rest).getLast?.or (identifier? active (key, value)) := by
      unfold identifiers
      cases hi : identifier? active (key, value) with
      | none => rw [List.filterMap_cons_none hi, Option.or_none]
      | some text =>
        rw [List.filterMap_cons_some hi, List.getLast?_cons]
        cases (List.filterMap (identifier? active) rest).getLast? <;> rfl
    rw [hcons, ih hrest, identifierAt?_cons, identifierAt?_cons]
    by_cases hold : key = "id"
    · subst hold
      have hle : "$id" ≤ "id" := by decide
      rw [identifierAt?_of_le hfirst le_rfl, identifierAt?_of_le hfirst hle]
      simp
    · by_cases hnew : key = "$id"
      · subst hnew
        rw [identifierAt?_of_le hfirst le_rfl]
        simp
      · have hnone : identifier? active (key, value) = none := by
          unfold identifier?
          rw [if_neg]
          intro hm
          obtain ⟨draft, -, hkey⟩ := List.mem_map.mp hm
          cases draft <;> first | exact hold hkey.symm | exact hnew hkey.symm
        rw [hnone, Option.or_none, if_neg (Ne.symm hold), if_neg (Ne.symm hnew)]

end Digest

/-! ## Nodes and positions -/

/-- The identifier keyword of a node names its scope, seen from the scope around the node; a
node without one is in the scope around it. -/
structure Schema.AgreesWith (t : Schema) (scope : Uri) : Prop where
  named : ∀ id uri, t.keyword? .id = some (.uri id) → (scope.join id).map Uri.normalized = .ok uri →
    t.location.scope = uri
  unnamed : t.keyword? .id = none → t.location.scope = scope

namespace Position

variable {p : Position} {t : Schema}

/-- The identifier that an object keeps as a keyword. -/
def kept? (p : Position) : Option String :=
  p.members?.bind fun members => (Digest.identifiers p.context.active members).getLast?

/-- The identifier by which an object is located. -/
def declared? (p : Position) : Option String :=
  Lookup.declaredId? p.context.active.idKeys p.value

/-- The node has the location inside the object, and the identifier that is kept there. -/
structure Describes (p : Position) (t : Schema) : Prop where
  object : ∃ members, p.members? = some members
  location : t.location = p.inner
  identifier : t.keyword? .id = p.kept?.map .uri

/-- The identifier that is kept is not the one by which the object is located, which brings
about another scope. -/
inductive Torn (p : Position) : Prop
  | renamed {id : String} {uri : Uri} : p.kept? = some id → p.declared? ≠ some id →
      p.location.resolve id = .ok uri → p.inner.scope ≠ uri → Torn p
  | dropped {id : String} : p.kept? = none → p.declared? = some id →
      p.inner.scope ≠ p.location.scope → Torn p

theorem inner_scope {id : String} {uri : Uri} (h : p.declared? = some id)
    (hu : p.location.resolve id = .ok uri) : p.inner.scope = uri := by
  rw [declared?] at h
  simp only [inner, Lookup.rescope, h, Location.withId, hu]
  rfl

theorem inner_of_undeclared (h : p.declared? = none) : p.inner = p.location := by
  rw [declared?] at h
  simp only [inner, Lookup.rescope, h]

/-- A node agrees with the scope around its position unless the position is torn. -/
theorem Describes.agrees_iff (h : p.Describes t) :
    t.AgreesWith p.location.scope ↔ ¬ p.Torn := by
  constructor
  · intro hagrees htorn
    cases htorn with
    | @renamed id uri hkept _ hu hne =>
      refine hne ?_
      rw [← h.location]
      exact hagrees.named id uri (by rw [h.identifier, hkept]; rfl) hu
    | dropped hkept _ hne =>
      refine hne ?_
      rw [← h.location]
      exact hagrees.unnamed (by rw [h.identifier, hkept]; rfl)
  · intro hwhole
    constructor
    · intro id uri hid hu
      rw [h.identifier] at hid
      obtain ⟨kept, hkept, heq⟩ := Option.map_eq_some_iff.mp hid
      cases heq
      rw [h.location]
      by_contra hne
      by_cases hdeclared : p.declared? = some id
      · exact hne (inner_scope hdeclared hu)
      · exact hwhole (.renamed hkept hdeclared hu hne)
    · intro hnone
      rw [h.identifier] at hnone
      rw [h.location]
      by_contra hne
      cases hdeclared : p.declared? with
      | none => exact hne (by rw [inner_of_undeclared hdeclared])
      | some id => exact hwhole (.dropped (Option.map_eq_none_iff.mp hnone) hdeclared hne)

theorem contains_of_members? {members : List (String × Json)} (hm : p.members? = some members) :
    Entries.contains "$ref" members = false := by
  unfold members? at hm
  split at hm
  · split at hm
    · cases hm
    · rename_i href
      cases hm
      exact Bool.eq_false_iff.mpr href
  · cases hm

/-- An identifier by which an object is located is declared under the key of a draft in use. -/
theorem exists_of_declared? {members : List (String × Json)} (hm : p.members? = some members)
    (hd : p.context.active.drafts ≠ []) {id : String} (h : p.declared? = some id) :
    ∃ key, (key = "$id" ∨ key = "id") ∧
      Digest.identifierAt? p.context.active members key = some id := by
  rw [declared?, value_of_members? hm, Lookup.declaredId?] at h
  split at h
  · cases h
  · obtain ⟨key, hkey, hget⟩ := List.exists_of_findSome?_eq_some h
    obtain ⟨value, hvalue, hid⟩ := Option.bind_eq_some_iff.mp hget
    have hused := (DraftSet.mem_idKeys hd).mp hkey
    refine ⟨key, ?_, ?_⟩
    · obtain ⟨draft, -, rfl⟩ := List.mem_map.mp hused
      cases draft <;> decide
    · rw [Digest.identifierAt?, hvalue]
      exact (if_pos hused).trans hid

/-- An object that declares an identifier is located by one. -/
theorem declared?_ne_none {members : List (String × Json)} (hm : p.members? = some members)
    {key id : String} (h : Digest.identifierAt? p.context.active members key = some id) :
    p.declared? ≠ none := by
  obtain ⟨value, hvalue, hid⟩ := Option.bind_eq_some_iff.mp h
  unfold Digest.identifier? at hid
  split at hid
  · rename_i hused
    have hd : p.context.active.drafts ≠ [] := by
      intro hnil
      rw [hnil] at hused
      cases hused
    intro hnone
    rw [declared?, value_of_members? hm, Lookup.declaredId?, contains_of_members? hm,
      if_neg Bool.false_ne_true, List.findSome?_eq_none_iff] at hnone
    have hget := hnone key ((DraftSet.mem_idKeys hd).mpr hused)
    rw [hvalue] at hget
    exact absurd hid (by simp [show value.string? = none from hget])
  · cases hid

/-- Where some draft is in use, an object is torn only if it declares one identifier under the
key of the newer drafts and another one under the key of the older drafts. -/
theorem Torn.spelled {members : List (String × Json)} (h : p.Torn)
    (hm : p.members? = some members) (hs : Entries.Sorted members)
    (hd : p.context.active.drafts ≠ []) :
    ∃ new old, new ≠ old ∧
      Digest.identifierAt? p.context.active members "$id" = some new ∧
      Digest.identifierAt? p.context.active members "id" = some old := by
  have hkept : p.kept? = (Digest.identifierAt? p.context.active members "id").or
      (Digest.identifierAt? p.context.active members "$id") := by
    rw [kept?, hm]
    exact Digest.getLast?_identifiers hs
  cases h with
  | @renamed id _ hk hne =>
    have hsome : p.declared? ≠ none := by
      rcases Option.or_eq_some_iff.mp (hkept ▸ hk) with hold | ⟨-, hnew⟩
      · exact declared?_ne_none hm hold
      · exact declared?_ne_none hm hnew
    obtain ⟨found, hfound⟩ := Option.ne_none_iff_exists'.mp hsome
    have hother : found ≠ id := fun heq => hne (heq ▸ hfound)
    obtain ⟨key, rfl | rfl, hkey⟩ := exists_of_declared? hm hd hfound
    · rcases Option.or_eq_some_iff.mp (hkept ▸ hk) with hold | ⟨-, hnew⟩
      · exact ⟨found, id, hother, hkey, hold⟩
      · exact absurd (Option.some.inj (hkey.symm.trans hnew)) hother
    · rw [hkept, hkey, Option.some_or] at hk
      exact absurd (Option.some.inj hk) hother
  | dropped hk hfound =>
    obtain ⟨hold, hnew⟩ := Option.or_eq_none_iff.mp (hkept ▸ hk)
    obtain ⟨key, rfl | rfl, hkey⟩ := exists_of_declared? hm hd hfound
    · cases hnew.symm.trans hkey
    · cases hold.symm.trans hkey

/-- If this is an object, its members are in order, some draft is in use, and the object does not
declare two identifiers. -/
def IsNamedOnce (p : Position) : Prop :=
  ∀ members ∈ p.members?, Entries.Sorted members ∧ p.context.active.drafts ≠ [] ∧
    ∀ new ∈ Digest.identifierAt? p.context.active members "$id",
      ∀ old ∈ Digest.identifierAt? p.context.active members "id", new = old

instance (p : Position) : Decidable p.IsNamedOnce :=
  inferInstanceAs (Decidable (∀ members ∈ p.members?, _ ∧ _ ∧ ∀ new ∈ _, ∀ old ∈ _, new = old))

theorem Torn.exists_members (h : p.Torn) : ∃ members, p.members? = some members := by
  cases hm : p.members? with
  | some members => exact ⟨members, rfl⟩
  | none =>
    exfalso
    cases h with
    | renamed hkept =>
      rw [kept?, hm] at hkept
      cases hkept
    | dropped _ hdeclared =>
      unfold declared? Lookup.declaredId? at hdeclared
      split at hdeclared
      · rename_i members hv
        split at hdeclared
        · cases hdeclared
        · rename_i href
          simp [members?, hv, href] at hm
      · cases hdeclared

theorem IsNamedOnce.not_torn (h : p.IsNamedOnce) : ¬ p.Torn := by
  intro htorn
  obtain ⟨members, hm⟩ := htorn.exists_members
  obtain ⟨hs, hd, heq⟩ := h members hm
  obtain ⟨new, old, hne, hnew, hold⟩ := htorn.spelled hm hs hd
  exact hne (heq new hnew old hold)

/-- In a document that is read in one draft no object has two identifiers. -/
theorem isNamedOnce_of_only {draft : Draft} (h : p.context.active = .only draft)
    (hs : ∀ members ∈ p.members?, Entries.Sorted members) : p.IsNamedOnce := by
  have hdrafts : p.context.active.drafts = [draft] := by
    rw [h]
    cases draft <;> rfl
  have hused : ∀ {members : List (String × Json)} {key id : String},
      Digest.identifierAt? p.context.active members key = some id → key = draft.idKey := by
    intro members key id hkey
    obtain ⟨value, _, hid⟩ := Option.bind_eq_some_iff.mp hkey
    unfold Digest.identifier? at hid
    split at hid
    · rename_i hmem
      simpa [hdrafts] using hmem
    · cases hid
  intro members hm
  refine ⟨hs members hm, by simp [hdrafts], ?_⟩
  intro new hnew old hold
  have hkeys : ("$id" : String) = "id" := (hused hnew).trans (hused hold).symm
  exact absurd hkeys (by decide)

end Position
end SchemaAtlas
