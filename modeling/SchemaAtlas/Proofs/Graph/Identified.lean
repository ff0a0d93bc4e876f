import SchemaAtlas.Proofs.Graph.Sharing
import SchemaAtlas.Proofs.Loading.Commit
import SchemaAtlas.Proofs.Loading.Identifier
import SchemaAtlas.Proofs.Lookup.Navigated
import SchemaAtlas.Schema.Access

/-!
# Identifiers and scopes of nodes

A load builds the node of an object at the position that it has come to, and enters it under the
URIs that the object answers to and those of references to it. `Library.Knows` says from the
documents alone whose node is entered under which URI. The invariant of a load is that every
node with keywords is described by the object that it was built for, and every child of it by an
object that is known at the place where the child stands; `describing_loadNode` says that
reading keeps it. `Request.identifies_of_run` draws from it for which nodes of a load identifier
and scope agree.
-/

namespace SchemaAtlas

/-- The schemas nested in an object. -/
def Position.nested (p : Position) : List Position :=
  match p.members? with
  | some members => (Digest.nested p.context.active p.inner members).map fun place =>
    ⟨p.context, place.1, place.2⟩
  | none => []

theorem Position.Nests.mem_nested {p q : Position} (h : p.Nests q) : q ∈ p.nested := by
  obtain ⟨members, hm, hcontext, hnested⟩ := h
  obtain ⟨context, location, value⟩ := q
  cases hcontext
  rw [nested, hm]
  exact List.mem_map.mpr ⟨_, hnested, rfl⟩

instance (p : Position) (uri : Uri) : Decidable (p.answers uri) :=
  inferInstanceAs (Decidable (_ ∨ _ ∨ _))

/-- The scope inside of an object is the one around the schemas that are nested in it. -/
theorem Position.Nests.scope {p q : Position} (h : p.Nests q) :
    q.location.scope = p.inner.scope := by
  obtain ⟨_, _, _, hnested⟩ := h
  obtain ⟨_, _, _, hplace | ⟨_, _, _, _, hl⟩ | ⟨_, _, _, _, hl⟩⟩ := Digest.nested_cases hnested
  · exact congrArg (·.1.scope) hplace
  · exact (congrArg Location.scope hl).trans rfl
  · exact (congrArg Location.scope hl).trans rfl

namespace Library

/-- The objects whose nodes a load enters under a URI: those that answer to it, and those that
are known at the place to which a reference with this URI leads. -/
inductive Knows (lib : Library) (start : Position) : Uri → Position → Prop
  | answers {p : Position} {members : List (String × Json)} {uri : Uri} :
      lib.Meets start p → p.members? = some members → p.answers uri → Knows lib start uri p
  | follows {p q r : Position} {uri : Uri} : lib.Meets start p → p.refers? = some uri →
      lib.target? p.context uri = some q → Knows lib start q.location.pointerUri r →
      Knows lib start uri r

variable {lib : Library} {start p : Position} {uri : Uri} {t : Schema}

theorem Knows.meets (h : lib.Knows start uri p) : lib.Meets start p := by
  induction h with
  | answers hp => exact hp
  | follows _ _ _ _ ih => exact ih

variable (lib start)

/-- A node is that of an object which is known under the URI, if it has keywords. -/
def Gives (uri : Uri) (t : Schema) : Prop :=
  t.isObject = true → ∃ p, lib.Knows start uri p ∧ p.Describes t

/-- A node is that of an object which was met, if it has keywords, and its children are known
where they stand. -/
def Explains (t : Schema) : Prop :=
  t.isObject = true → ∃ p, lib.Meets start p ∧ p.Describes t ∧
    ∀ entry ∈ t.children, ∃ q, p.Nests q ∧ lib.Gives start q.location.pointerUri entry.2.2

end Library

namespace Session

variable {lib : Library} {start : Position} {first : Nat} {s s' : Session} {t : Schema}

/-- All nodes that were made from a number on are explained, and entered where their objects
are known. -/
structure Described (lib : Library) (start : Position) (first : Nat) (s : Session) : Prop where
  built : ∀ entry ∈ s.built, lib.Gives start entry.1 entry.2
  nodes : ∀ {id t}, first ≤ id → s.store.node? id = some t → lib.Explains start t

theorem Described.alike (h : s.Described lib start first) (ha : s.Alike s') :
    s'.Described lib start first where
  built := by
    rw [ha.built]
    exact h.built
  nodes := by
    rw [ha.store]
    exact h.nodes

/-- Making a node without keywords. -/
theorem Described.add (h : s.Described lib start first) (location : Location) (draft : Draft)
    {body : Body Schema} (hb : (s.store.add location draft body).1.isObject = false) :
    Session.Described lib start first
      { s with store := (s.store.add location draft body).2 } where
  built := h.built
  nodes := fun hid ht hobject => h.nodes hid (Store.node?_of_add hb ht hobject) hobject

theorem Described.enter (h : s.Described lib start first) (uris : List Uri) :
    (s.enter uris).Described lib start first where
  built := h.built
  nodes := fun hid ht => h.nodes hid ((Store.node?_reserve _ _).symm.trans ht)

theorem Described.finish (h : s.Described lib start first) {uris : List Uri}
    (hu : ∀ uri ∈ uris, lib.Gives start uri t) : (s.finish t uris).Described lib start first where
  built := by
    intro entry he
    rcases Account.mem_finish he with he | ⟨heq, hm⟩
    · exact h.built entry he
    · rw [heq]
      exact hu _ hm
  nodes := h.nodes

/-- Finishing the node whose keywords have been read. -/
theorem Described.leave (h : s.Described lib start first) {uris : List Uri}
    (hlt : t.id < s.store.nodes.size) (ht : lib.Explains start t)
    (hu : ∀ uri ∈ uris, lib.Gives start uri t) : (s.leave t uris).Described lib start first where
  built := by
    intro entry he
    rcases Account.mem_finish he with he | ⟨heq, hm⟩
    · exact h.built entry he
    · rw [heq]
      exact hu _ hm
  nodes := by
    intro id t' hid ht'
    by_cases heq : id = t.id
    · subst heq
      have hstored : (s.leave t uris).store.node? t.id = some t := Store.node?_complete _ t hlt
      cases hstored.symm.trans ht'
      exact ht
    · exact h.nodes hid ((Store.node?_complete_of_ne _ heq).symm.trans ht')

end Session

namespace Loading

open LoadM Session

/-- A loader that keeps sessions described, and gives for a position the node of an object that
is known there. -/
def Describing (lib : Library) (start : Position) (first : Nat) (load : NodeLoader) : Prop :=
  ∀ {p : Position} {hops : Nat} {s s' : Session} {found : Option Schema}, lib.Meets start p →
    s.Inside lib p.context → s.Described lib start first →
    Runs (load p.location p.value hops) s (.ok found) s' →
    s'.Described lib start first ∧ ∀ t ∈ found, lib.Gives start p.location.pointerUri t

variable {lib : Library} {start p : Position} {first : Nat} {load : NodeLoader}
variable {s s' : Session} {uri : Uri} {hops : Nat}

theorem gives_of_not_isObject {t : Schema} (h : t.isObject = false) : lib.Gives start uri t := by
  intro hobject
  rw [h] at hobject
  cases hobject

/-- The node of an object is described by it. -/
theorem describes_of_objectRun {object : List (String × Json)} {N : Schema}
    (hm : p.members? = some object)
    (hr : ObjectRun load p.context p.location object s (.ok N) s') : p.Describes N := by
  cases hr with
  | @finished inner declared builder s₁ s₂ hid hread =>
    refine ⟨⟨object, hm⟩, hid.inner_eq (Position.value_of_members? hm), ?_⟩
    have hkeyword : Schema.keyword? (.node s₁.store.nodes.size inner p.context.draft
        builder.body) .id = builder.keyword? .id := by
      rw [keywordsRun_body hread]
      rfl
    have hkept : p.kept? = (Digest.identifiers p.context.active object).getLast? := by
      rw [Position.kept?, hm]
      rfl
    rw [hkeyword, Digest.identifier_of_members hread, hkept]
    exact Option.or_none

theorem Describing.visits (hk : Describing lib start first load) (hl : Framed load)
    {asked : Location → Json → Prop} {nodes : List Schema} {context : OpenDocument}
    (ha : ∀ location value, asked location value → lib.Meets start ⟨context, location, value⟩)
    (hin : s.Inside lib context) (h : s.Described lib start first)
    (hv : Digest.Visits (nestedLoad load) context.draft asked s nodes s') :
    s'.Described lib start first ∧ ∀ t ∈ nodes, ∃ location value, asked location value ∧
      lib.Gives start location.pointerUri t := by
  induction hv with
  | start => exact ⟨h, by simp⟩
  | issue severity kind location message _ _ ih =>
    exact ⟨ih.1.alike (idle_record ..).alike, ih.2⟩
  | @boolean s₁ nodes location b _ hasked ih =>
    refine ⟨ih.1.add location context.draft rfl, ?_⟩
    intro t ht
    rcases List.mem_append.mp ht with ht | ht
    · exact ih.2 t ht
    · rw [List.mem_singleton.mp ht]
      exact ⟨location, .bool b, hasked, gives_of_not_isObject rfl⟩
  | @load s₁ s₂ nodes location value found hvisits hasked hr ih =>
    have hmeets : lib.Meets start ⟨context, location, value⟩ := ha _ _ hasked
    obtain ⟨hs₂, hfound⟩ := hk hmeets (hin.frame (hl.visits hvisits).1) ih.1 hr
    refine ⟨hs₂, ?_⟩
    intro t ht
    rcases List.mem_append.mp ht with ht | ht
    · exact ih.2 t ht
    · exact ⟨location, value, hasked, hfound t (Option.mem_toList.mp ht)⟩

theorem Describing.object (hk : Describing lib start first load) (hl : Framed load)
    (hp : lib.Meets start p) {object : List (String × Json)} (hm : p.members? = some object)
    (hin : s.Inside lib p.context) (h : s.Described lib start first) {N : Schema}
    (hr : ObjectRun load p.context p.location object s (.ok N) s') :
    s'.Described lib start first ∧ lib.Gives start p.location.pointerUri N := by
  have hdescribes := describes_of_objectRun hm hr
  have hgives : ∀ {uri}, p.answers uri → lib.Gives start uri N :=
    fun ha _ => ⟨p, .answers hp hm ha, hdescribes⟩
  refine ⟨?_, hgives (Or.inl rfl)⟩
  have hv := Position.value_of_members? hm
  cases hr with
  | @finished inner declared builder s₁ s₂ hid hread =>
    have hasked : ∀ location value,
        (location, value) ∈ Digest.nested p.context.active inner object →
        p.Nests ⟨p.context, location, value⟩ := by
      intro location value ha
      rw [hid.inner_eq hv] at ha
      exact ⟨object, hm, rfl, ha⟩
    have hmeets : ∀ location value,
        (location, value) ∈ Digest.nested p.context.active inner object →
        lib.Meets start ⟨p.context, location, value⟩ := by
      intro location value ha
      rw [hid.inner_eq hv] at ha
      exact hp.tail (.nested hm ha)
    obtain ⟨nodes, hvisits, hheld, _⟩ :=
      (keywordsRun_gathers load p.context inner object).ok hread
    obtain ⟨hs₂, hnodes⟩ := hk.visits hl hmeets (hid.inside hin _)
      ((h.alike hid.idle.alike).enter _) hvisits
    refine hs₂.leave (hl.visits hvisits).1.promised.1 ?_ fun uri hu => hgives (hid.answers hv hu)
    intro _
    refine ⟨p, hp, hdescribes, ?_⟩
    intro entry he
    have hchild := (Schema.mem_children (s := .node s₁.store.nodes.size inner
      p.context.draft builder.body) (keywordsRun_body hread)).mp ⟨entry.1, entry.2.1, he⟩
    obtain ⟨location, value, ha, hknown⟩ := hnodes _ (hheld hchild)
    exact ⟨_, hasked location value ha, hknown⟩

theorem Describing.reference (hk : Describing lib start first load) (hl : Framed load)
    (hp : lib.Meets start p) {written : String} (hw : p.written? = some written)
    (hin : s.Inside lib p.context) (h : s.Described lib start first) {draft : Draft} {N : Schema}
    (hr : ReferenceRun load draft p.location written hops s (.ok N) s') :
    s'.Described lib start first ∧ N.isObject = false := by
  cases hr with
  | @refers uri reference s₁ hu hresolve =>
    refine ⟨?_, rfl⟩
    have hrefers : p.refers? = some uri := by simp [Position.refers?, hw, hu, Except.toOption]
    suffices hs₁ : s₁.Described lib start first from hs₁.add _ _ rfl
    cases hresolve with
    | known => exact h
    | reading => exact h
    | @chased target s₂ _ _ hc =>
      cases hc with
      | @reached _ _ _ document _ _ _ _ s₃ s₄ hs₀ hcand hs hlocate hr =>
        have hin₀ := hin.beginResolving uri
        have htarget := hl.target?_eq hin₀ hs₀ hcand hs hlocate hr (by simp) (by simp)
        have hbegun : (s.beginResolving uri).Described lib start first :=
          h.alike ⟨rfl, rfl, rfl, rfl⟩
        have hs₃ : (s₃.push document).Described lib start first :=
          (hbegun.alike (hl.searches_vain hs).1.alike).alike ⟨rfl, rfl, rfl, rfl⟩
        obtain ⟨hs₄, hgiven⟩ := hk (hp.tail (.follows hrefers htarget))
          ((hin₀.frame (hl.searches hs).1).push document) hs₃ hr
        have hended : (s₄.pop.endResolving uri).Described lib start first :=
          hs₄.alike ⟨rfl, rfl, rfl, rfl⟩
        apply hended.finish
        intro other hother hobject
        rw [List.mem_singleton.mp hother]
        obtain ⟨r, hr, hdescribes⟩ := hgiven target rfl hobject
        exact ⟨r, .follows hp hrefers htarget hr, hdescribes⟩

theorem describing_loadWith (hk : Describing lib start first load) (hl : Framed load) :
    Describing lib start first (loadWith load) := by
  intro p hops s s' found hp hin h hload
  have hcurrent : ∀ {context : OpenDocument}, s.current? = some context → p.context = context :=
    fun hc => Option.some.inj (hin.current?.symm.trans hc)
  cases nodeRun_of_runs hload with
  | outside => exact ⟨h, by simp⟩
  | known _ _ hb =>
    refine ⟨h, ?_⟩
    rintro t ⟨⟩
    exact h.built _ (Entries.mem_of_get? hb)
  | @reference _ object written schema _ _ hv _ href hr =>
    have hw : p.written? = some written := by
      simp [Position.written?, hv, Json.member?, href, Json.string?]
    obtain ⟨hs', hnone⟩ := hk.reference hl hp hw hin h hr
    refine ⟨hs', ?_⟩
    rintro t ⟨⟩
    exact gives_of_not_isObject hnone
  | @object _ object _ _ hc hv _ href hr =>
    rw [← hcurrent hc] at hr
    obtain ⟨hs', hgives⟩ := hk.object hl hp (p.members?_of_object hv href) hin h hr
    refine ⟨hs', ?_⟩
    rintro t ⟨⟩
    exact hgives
  | @boolean context b _ _ _ =>
    refine ⟨h.add p.location context.draft rfl, ?_⟩
    rintro t ⟨⟩
    exact gives_of_not_isObject rfl
  | refused => exact ⟨h.alike (idle_record ..).alike, by simp⟩

theorem describing_loadNode (lib : Library) (start : Position) (first steps : Nat) :
    Describing lib start first (loadNode steps) := by
  induction steps with
  | zero =>
    intro p hops s s' found _ _ _ hr
    cases (runs_throw.mp hr).1
  | succ steps ih => exact describing_loadWith ih (framed_loadNode steps)

/-- The first object that is read has been entered under no URI yet, so its node is new. -/
theorem describes_of_loadWith {t : Schema} (hc : s.current? = some p.context)
    (hb : s.built = []) (h : Runs (loadWith load p.location p.value hops) s (.ok (some t)) s')
    (ht : t.isObject = true) : p.Describes t := by
  cases nodeRun_of_runs h with
  | known _ _ hbuilt =>
    rw [hb] at hbuilt
    cases hbuilt
  | reference _ _ _ _ hr =>
    cases hr with
    | refers => cases ht
  | object hc' hv _ href hr =>
    cases hc.symm.trans hc'
    exact describes_of_objectRun (p.members?_of_object hv href) hr
  | boolean => cases ht

end Loading

/-! ## Loads -/

namespace Load

/-- The objects whose nodes the load enters under a URI. -/
def Knows (l : Load) (uri : Uri) (p : Position) : Prop :=
  ∃ start, l.start? = some start ∧ l.library.Knows start uri p

/-- What the nodes that a load finishes have for identifiers and scopes: an object agrees with
the scope around it exactly if it is not torn. -/
structure Identifies (l : Load) (w w' : Workspace) (s : Schema) : Prop where
  /-- The node asked for is described where the load starts. -/
  root : ∃ start, l.start? = some start ∧
    (l.uri = l.documentUri → start.location.scope = l.documentUri) ∧
    (s.isObject = true → start.Describes s ∧
      (s.AgreesWith start.location.scope ↔ ¬ start.Torn))
  /-- A child is described by an object that is known where it stands, in the scope of its
  parent. -/
  nodes : ∀ {t}, w.Finishes w' t → t.isObject = true → ∃ p, l.Meets p ∧ p.Describes t ∧
    (t.AgreesWith p.location.scope ↔ ¬ p.Torn) ∧
    ∀ entry ∈ t.children, entry.2.2.isObject = true → ∃ q r, p.Nests q ∧
      q.location.scope = t.location.scope ∧ l.Knows q.location.pointerUri r ∧
      r.Describes entry.2.2 ∧ (entry.2.2.AgreesWith r.location.scope ↔ ¬ r.Torn)
  /-- With nothing in the cache these are all nodes that are reached. -/
  reached : (∀ uri, w.cache.get? uri = none) → ∀ {t}, w'.store.Reaches s t → w.Finishes w' t

/-- The nodes of a load agree with the scopes of their parents. -/
structure Agrees (l : Load) (w w' : Workspace) (s : Schema) : Prop where
  root : l.uri = l.documentUri → s.isObject = true → s.AgreesWith l.documentUri
  nodes : ∀ {t}, w.Finishes w' t → t.isObject = true → ∃ p, l.Meets p ∧ p.Describes t ∧
    t.AgreesWith p.location.scope
  children : ∀ {t}, w.Finishes w' t → t.isObject = true → ∀ entry ∈ t.children,
    entry.2.2.isObject = true → entry.2.2.AgreesWith t.location.scope

/-- No object declares two identifiers, and none is known at the place of an object in another
scope. -/
structure Whole (l : Load) : Prop where
  named : ∀ {p}, l.Meets p → p.IsNamedOnce
  alike : ∀ {p q}, l.Meets p → l.Knows p.location.pointerUri q →
    q.location.scope = p.location.scope

variable {l : Load} {w w' : Workspace} {s : Schema} {p : Position}

theorem Knows.meets {uri : Uri} (h : l.Knows uri p) : l.Meets p := by
  obtain ⟨start, hstart, hknows⟩ := h
  exact ⟨start, hstart, hknows.meets⟩

theorem Meets.nests {q : Position} (h : l.Meets p) (hq : p.Nests q) : l.Meets q := by
  obtain ⟨start, hstart, hp⟩ := h
  obtain ⟨members, hm, hcontext, hnested⟩ := hq
  obtain ⟨context, location, value⟩ := q
  cases hcontext
  exact ⟨start, hstart, hp.tail (.nested hm hnested)⟩

/-- The exact account of identifiers and scopes comes to agreement where the load is whole. -/
theorem Identifies.agrees (h : l.Identifies w w' s) (hw : l.Whole) : l.Agrees w w' s where
  root := by
    intro hroot hobject
    obtain ⟨start, hstart, hscope, hs⟩ := h.root
    rw [← hscope hroot]
    exact (hs hobject).2.mpr (hw.named ⟨start, hstart, .refl⟩).not_torn
  nodes := by
    intro t ht hobject
    obtain ⟨p, hp, hdescribes, hagrees, _⟩ := h.nodes ht hobject
    exact ⟨p, hp, hdescribes, hagrees.mpr (hw.named hp).not_torn⟩
  children := by
    intro t ht hobject entry he hchild
    obtain ⟨p, hp, _, _, hchildren⟩ := h.nodes ht hobject
    obtain ⟨q, r, hq, hscope, hknows, _, hagrees⟩ := hchildren entry he hchild
    rw [← hscope, ← hw.alike (hp.nests hq) hknows]
    exact hagrees.mpr (hw.named hknows.meets).not_torn

/-- A load that comes to some positions only, none of them a reference, is whole if these declare
no two identifiers and have their places to themselves. -/
theorem whole_of_positions {positions : List Position}
    (hstart : ∀ start, l.start? = some start → start ∈ positions)
    (hreference : ∀ p ∈ positions, p.refers? = none)
    (hnested : ∀ p ∈ positions, p.nested ⊆ positions)
    (hnamed : ∀ p ∈ positions, p.IsNamedOnce)
    (hanswers : ∀ p ∈ positions, ∀ q ∈ positions, q.answers p.location.pointerUri →
      q.location.scope = p.location.scope) : l.Whole := by
  have hmeets : ∀ {p}, l.Meets p → p ∈ positions := by
    rintro p ⟨start, hs, hp⟩
    induction hp with
    | refl => exact hstart _ hs
    | tail _ hlead ih =>
      cases hlead with
      | nested hm hplace => exact hnested _ ih (Position.Nests.mem_nested ⟨_, hm, rfl, hplace⟩)
      | follows hu _ => cases (hreference _ ih).symm.trans hu
  constructor
  · exact fun hp => hnamed _ (hmeets hp)
  · rintro p q hp ⟨start, hs, hknows⟩
    cases hknows with
    | answers hq _ ha => exact hanswers p (hmeets hp) q (hmeets ⟨start, hs, hq⟩) ha
    | follows hr hu => cases (hreference _ (hmeets ⟨start, hs, hr⟩)).symm.trans hu

/-- When a load begins nothing has been entered, and no node made. -/
theorem described_session (l : Load) (start : Position) :
    l.session.Described l.library start l.first where
  built := by
    rw [l.session_eq]
    exact fun entry he => nomatch he
  nodes := by
    intro id t hid ht
    rw [l.session_eq] at ht
    change l.workspace.store.node? id = some t at ht
    rw [Store.node?_of_size_le hid] at ht
    cases ht

/-- The node that is read first is described where the load starts. -/
theorem describes_of_reading {start : Location × Json} {t : Schema} {s' : Session}
    (h : Runs (l.reading start) l.session (.ok (some t)) s') (ht : t.isObject = true) :
    Position.Describes ⟨l.context, start.1, start.2⟩ t := by
  have hbuilt : l.session.built = [] := by
    rw [l.session_eq]
    rfl
  have hp : Runs (Loading.loadNode l.workspace.stepLimit
      (Position.mk l.context start.1 start.2).location
      (Position.mk l.context start.1 start.2).value 0) l.session (.ok (some t)) s' := h
  cases hsteps : l.workspace.stepLimit with
  | zero =>
    rw [hsteps] at hp
    cases (runs_throw.mp hp).1
  | succ steps =>
    rw [hsteps] at hp
    exact Loading.describes_of_loadWith l.inside.current? hbuilt hp ht

/-- A load of a whole document starts in the scope of its URI. -/
theorem scope_of_start {start : Location × Json}
    (hroot : l.documentUri.withoutFragment = l.documentUri) (huri : l.uri = l.documentUri)
    (h : l.context.locate l.uri = some start) : start.1.scope = l.documentUri := by
  have hself : l.context.locate l.context.uri =
      some (.ofDocument l.context.uri, l.context.document) := OpenDocument.locate_self hroot
  have hnormal : l.documentUri.normalized = l.documentUri :=
    Uri.normalized_of_fragment_ne (by rw [← hroot]; simp)
  rw [huri] at h
  cases h.symm.trans hself
  exact hnormal

end Load

namespace Request

/-- A load describes all nodes that it finishes by objects of its documents. Identifier and
scope of such a node agree unless its object is torn: it keeps another identifier than the one by
which it is located. If no object declares two identifiers, and none is known at the place of an
object in another scope, all nodes agree with the scopes of their parents. -/
theorem identifies_of_run {request : Request} {policy : Policy} {w w' : Workspace} {l : Load}
    {s : Schema} (hl : request.load? policy w = some l)
    (hrun : request.run policy w = (.ok s, w')) :
    l.Identifies w w' s ∧ (l.Whole → l.Agrees w w' s) := by
  suffices h : l.Identifies w w' s from ⟨h, h.agrees⟩
  obtain ⟨report, hok, rfl⟩ := run_ok_of_load? hl hrun
  obtain ⟨start, s', hlocate, hread, _, _, heq⟩ := Load.run_ok hok
  obtain ⟨_, hsame, hstore⟩ := load?_workspace hl
  have hstart : l.start? = some ⟨l.context, start.1, start.2⟩ := by
    rw [Load.start?, hlocate]
    rfl
  have hfinishes : ∀ {t}, w.Finishes l.run.2 t ↔ s'.Made l.first t := by
    intro t
    rw [heq, Load.first, hstore]
    exact ⟨fun h => ⟨h.fresh, h.stored⟩, fun h => ⟨h.first, h.stored⟩⟩
  obtain ⟨hdescribed, _⟩ := Loading.describing_loadNode l.library ⟨l.context, start.1, start.2⟩
    l.first l.workspace.stepLimit .refl l.inside (l.described_session _) hread
  constructor
  · refine ⟨_, hstart, fun huri => Load.scope_of_start (load?_documentUri hl) huri hlocate, ?_⟩
    intro hobject
    have hdescribes := Load.describes_of_reading hread hobject
    exact ⟨hdescribes, hdescribes.agrees_iff⟩
  · intro t ht hobject
    have hmade := hfinishes.mp ht
    obtain ⟨p, hp, hdescribes, hchildren⟩ := hdescribed.nodes hmade.first hmade.stored hobject
    refine ⟨p, ⟨_, hstart, hp⟩, hdescribes, hdescribes.agrees_iff, ?_⟩
    intro entry he hchild
    obtain ⟨q, hq, hgives⟩ := hchildren entry he
    obtain ⟨r, hknows, hr⟩ := hgives hchild
    refine ⟨q, r, hq, ?_, ⟨_, hstart, hknows⟩, hr, hr.agrees_iff⟩
    rw [hq.scope, hdescribes.location]
  · intro hcache t ht
    have hrecords := Load.records_session fun uri =>
      (congrArg (Cache.get? uri) hsame).trans (hcache uri)
    obtain ⟨hrecords', hmade⟩ :=
      Loading.recording_loadNode l.first l.workspace.stepLimit hrecords hread
    rw [heq] at ht
    exact hfinishes.mpr ((hmade s rfl).reaches hrecords' ht)

/-- A schema with an identifier, and one nested in it with an identifier of its own. -/
def chapter : Request :=
  .named ⟨"http", some "e.com", .segments ["r.json"], none, none⟩
    (.object [("$id", .string "a.json"),
      ("items", .object [("$id", .string "b.json")])])

/-- Its load comes to the two schemas only, which have their places to themselves. -/
theorem whole_of_chapter {l : Load} (hl : chapter.load? .standard .empty = some l) : l.Whole := by
  have hcheck : (chapter.load? .standard .empty).any (fun l => l.start?.any fun start =>
      let positions := start :: start.nested
      positions.all (fun p => p.refers?.isNone && p.IsNamedOnce) &&
        start.nested.all (·.nested.isEmpty) &&
        positions.all fun p => positions.all fun q =>
          !q.answers p.location.pointerUri || q.location.scope = p.location.scope) = true := by
    decide +kernel
  rw [hl, Option.any_some] at hcheck
  cases hstart : l.start? with
  | none =>
    rw [hstart] at hcheck
    cases hcheck
  | some start =>
    simp only [hstart, Option.any_some, Bool.and_eq_true, List.all_eq_true, Bool.or_eq_true,
      Bool.not_eq_true', decide_eq_true_eq, decide_eq_false_iff_not, Option.isNone_iff_eq_none,
      List.isEmpty_iff] at hcheck
    obtain ⟨⟨hnamed, hleaves⟩, hanswers⟩ := hcheck
    refine Load.whole_of_positions ?_ (fun p hp => (hnamed p hp).1) ?_ (fun p hp => (hnamed p hp).2)
      fun p hp q hq => (hanswers p hp q hq).resolve_left ∘ not_not_intro
    · intro other hother
      cases hstart.symm.trans hother
      exact List.mem_cons_self
    · intro p hp
      rcases List.mem_cons.mp hp with rfl | hp
      · exact List.subset_cons_self ..
      · rw [hleaves p hp]
        exact List.nil_subset _

theorem chapter_identified : ∃ l s w', chapter.load? .standard .empty = some l ∧
    chapter.run .standard .empty = (.ok s, w') ∧
    (l.Identifies .empty w' s ∧ (l.Whole → l.Agrees .empty w' s)) ∧ l.Whole ∧
    ∃ entry ∈ s.children, entry.2.2.isObject = true ∧
      entry.2.2.identifier? = some "b.json" ∧ entry.2.2.AgreesWith s.location.scope := by
  have hload : (chapter.load? .standard .empty).any (fun _ => true) = true := by
    decide +kernel
  have hrun : (chapter.run .standard .empty).1.toOption.any (fun s => s.isObject &&
      s.children.any fun entry => entry.2.2.isObject &&
        entry.2.2.identifier? = some "b.json") = true := by
    decide +kernel
  obtain ⟨l, hl, -⟩ := exists_of_any_load? hload
  obtain ⟨s, w', hr, hs⟩ := exists_of_any_run hrun
  simp only [Bool.and_eq_true, List.any_eq_true, decide_eq_true_eq] at hs
  obtain ⟨hobject, entry, he, hchild, hid⟩ := hs
  have hwhole := whole_of_chapter hl
  have hidentifies := identifies_of_run hl hr
  have hfinished : Workspace.Finishes .empty w' s := hidentifies.1.reached (fun _ => rfl) .refl
  exact ⟨l, s, w', hl, hr, hidentifies, hwhole, entry, he, hchild, hid,
    (hidentifies.2 hwhole).children hfinished hobject entry he hchild⟩

/-- The identifier that a schema keeps as a URI. -/
def keptIdentifier? (s : Schema) : Option String :=
  match s.keyword? .id with
  | some (.uri id) => some id
  | _ => none

theorem keyword?_of_keptIdentifier? {s : Schema} {id : String}
    (h : keptIdentifier? s = some id) : s.keyword? .id = some (.uri id) := by
  unfold keptIdentifier? at h
  split at h
  · cases h
    assumption
  · cases h

/-- A schema with one identifier for old drafts and another one for new drafts. -/
def spelledTwice : Request :=
  .named ⟨"http", some "e.com", .segments ["r.json"], none, none⟩
    (.object [("$id", .string "a.json"), ("id", .string "b.json")])

/-- Its identifier is not the one that starts its scope. -/
theorem spelledTwice_disagrees : ∃ l s w', spelledTwice.load? .standard .empty = some l ∧
    spelledTwice.run .standard .empty = (.ok s, w') ∧ l.uri = l.documentUri ∧ s.isObject = true ∧
    s.keyword? .id = some (.uri "b.json") ∧ ¬ s.AgreesWith l.documentUri := by
  have hload : (spelledTwice.load? .standard .empty).any (fun l => l.uri = l.documentUri &&
      ((l.documentUri.join "b.json").map Uri.normalized).toOption =
        some ⟨"http", some "e.com", .segments ["b.json"], none, none⟩) = true := by
    decide +kernel
  have hrun : (spelledTwice.run .standard .empty).1.toOption.any (fun s =>
      s.isObject && s.location.scope.path = .segments ["a.json"] &&
        keptIdentifier? s = some "b.json") = true := by
    decide +kernel
  obtain ⟨l, hl, hroot⟩ := exists_of_any_load? hload
  obtain ⟨s, w', hr, hs⟩ := exists_of_any_run hrun
  simp only [Bool.and_eq_true, decide_eq_true_eq] at hroot hs
  obtain ⟨hroot, huri⟩ := hroot
  obtain ⟨⟨hobject, hscope⟩, hid⟩ := hs
  have hkeyword := keyword?_of_keptIdentifier? hid
  refine ⟨l, s, w', hl, hr, hroot, hobject, hkeyword, ?_⟩
  intro hagrees
  cases hu : (l.documentUri.join "b.json").map Uri.normalized with
  | error fault =>
    rw [hu] at huri
    cases huri
  | ok uri =>
    rw [hu] at huri
    cases huri
    rw [hagrees.named _ _ hkeyword hu] at hscope
    exact absurd hscope (by decide)

end Request
end SchemaAtlas
