import SchemaAtlas.Proofs.Graph.Settled
import SchemaAtlas.Proofs.Loading.Request

/-!
# Loaded schemas are resolved

A schema that a load gives needs no further resolution: every reference that it reaches
leads in one step to a node that is no reference. This holds of every request, under every
policy, if the cache holds results of earlier requests only, whatever became of those.
-/

namespace SchemaAtlas

/-- All references that a node reaches lead to their targets in one step. -/
def Store.Resolved (st : Store) (s : Schema) : Prop :=
  ∀ t, st.Reaches s t → ∀ r, t.reference? = some r → ∃ target,
    Store.follow r.target st = (some target, st) ∧
      Store.target r st = (some target, st) ∧ target.isReference = false

/-- The account that claims nothing but that references are settled. -/
def Account.silent : Account :=
  ⟨fun _ => True, fun _ _ => True, fun _ _ => True, fun _ _ => True⟩

theorem Account.silent_lawful (lib : Library) : silent.Lawful lib := by
  constructor <;> intros <;> trivial

theorem Store.target_of_follow {st : Store} {r : Reference} {t : Schema}
    (hf : Store.follow r.target st = (some t, st)) (ht : t.isReference = false) :
    Store.target r st = (some t, st) := by
  have hnone : t.reference? = none := by simpa [Schema.isReference] using ht
  have hend : Store.chainEnd Store.longestChain t st = (some t, st) := by
    simp only [Store.longestChain, Store.chainEnd, hnone]
    rfl
  unfold Store.target
  simp only [bind, StateT.bind, hf]
  exact hend

/-- Where no node is being read, sound nodes are resolved. -/
theorem Store.resolved_of_sound {A : Account} {st : Store} {s : Schema}
    (h : A.Sound st [] s) : st.Resolved s := by
  intro t ht r hr
  cases h t ht r hr with
  | @finished id target htarget hnode href _ =>
    have hf : Store.follow r.target st = (some target, st) := by
      rw [htarget]
      exact Prod.ext hnode rfl
    exact ⟨target, hf, Store.target_of_follow hf href, href⟩
  | promised _ _ hmem => cases hmem

/-- A load from a cache of sound nodes gives one, and finishes no others. -/
theorem Account.known_of_load {A : Account} {l : Load} (hA : A.Lawful l.library)
    (hcache : ∀ uri t, l.workspace.cache.get? uri = some t →
      A.names uri t ∧ l.workspace.store.node? t.id = some t ∧ A.Sound l.workspace.store [] t)
    {start : Location × Json} {found : Option Schema} {s : Session}
    (hstart : A.reads ⟨l.context, start.1, start.2⟩)
    (hr : Runs (l.reading start) l.session (.ok found) s) :
    s.inProgress = [] ∧ A.Holds s ∧ ∀ t ∈ found, A.Known s start.1.pointerUri t := by
  have hnumbered : l.session.Numbered := by
    rw [l.session_eq]
    intro entry he
    cases he
  have hholds : A.Holds l.session := by
    refine ⟨hnumbered, ?_⟩
    intro uri t ht
    rw [l.session_eq] at ht ⊢
    rcases ht with ht | ht
    · cases ht
    · obtain ⟨hnames, hstored, hsound⟩ := hcache uri t ht
      exact ⟨hnames, hstored, hsound⟩
  have hframe := (Loading.framed_loadNode l.workspace.stepLimit).frame hr
  refine ⟨?_, A.keeps_loadNode hA l.workspace.stepLimit (p := ⟨l.context, start.1, start.2⟩)
    l.inside hstart hholds hr⟩
  rw [hframe.inProgress hnumbered, l.session_eq]
  rfl

/-! ## Requests -/

/-- The schemas that requests gave or put in a cache, and a store that has their nodes. Other
schemas may be made between requests, and every request may be made of any cache that holds
such schemas only. -/
inductive Gave : Store → (Schema → Prop) → Prop
  | nothing (st : Store) : Gave st fun _ => False
  | grow {st st' : Store} {given : Schema → Prop} : Gave st given → st.Grows st' →
      Gave st' given
  | request {w : Workspace} {given : Schema → Prop} (request : Request) (policy : Policy) :
      Gave w.store given → (∀ uri t, w.cache.get? uri = some t → given t) →
      Gave (request.run policy w).2.store fun t => given t ∨
        (request.run policy w).1 = .ok t ∨
        ∃ uri, (request.run policy w).2.cache.get? uri = some t

/-- A finished node without open references. -/
structure Store.Complete (st : Store) (t : Schema) : Prop where
  stored : st.node? t.id = some t
  sound : Account.silent.Sound st [] t

theorem Store.Complete.grows {st st' : Store} {t : Schema} (h : st.Complete t)
    (hg : st.Grows st') : st'.Complete t :=
  ⟨hg.node?_some h.stored, h.sound.grows hg (by simp) (List.Subset.refl _)⟩

/-- A load from a cache of complete nodes gives and caches complete nodes. -/
theorem Load.complete {l : Load}
    (hcache : ∀ uri t, l.workspace.cache.get? uri = some t → l.workspace.store.Complete t) :
    l.workspace.store.Grows l.run.2.store ∧
      (∀ t report, l.run.1 = .ok (t, report) → l.run.2.store.Complete t) ∧
      ∀ uri t, l.run.2.cache.get? uri = some t → l.run.2.store.Complete t := by
  have hreads : ∀ {start r s}, Runs (l.reading start) l.session r s →
      l.workspace.store.Grows s.store ∧ s.cache = l.workspace.cache := by
    intro start r s hr
    have hframe := (Loading.framed_loadNode l.workspace.stepLimit).frame hr
    have hstore := hframe.store
    have hcache := hframe.cache
    rw [l.session_eq] at hstore hcache
    exact ⟨hstore, hcache⟩
  cases h : l.run.1 with
  | error failure =>
    rcases Load.run_error h with heq | ⟨start, outcome, s, _, hr, heq⟩
    · rw [heq]
      exact ⟨.refl _, fun _ _ h => (nomatch h), hcache⟩
    · obtain ⟨hgrows, hsame⟩ := hreads hr
      rw [heq]
      refine ⟨hgrows, fun _ _ h => (nomatch h), ?_⟩
      intro uri t ht
      rw [hsame] at ht
      exact (hcache uri t ht).grows hgrows
  | ok result =>
    obtain ⟨schema, report⟩ := result
    obtain ⟨start, s, _, hr, _, _, heq⟩ := Load.run_ok h
    obtain ⟨hgrows, hsame⟩ := hreads hr
    obtain ⟨hempty, hholds, hknown⟩ := Account.known_of_load (l := l)
      (Account.silent_lawful _) (fun uri t ht =>
        ⟨trivial, (hcache uri t ht).stored, (hcache uri t ht).sound⟩) trivial hr
    have hcomplete : ∀ {uri t}, Account.silent.Known s uri t → s.store.Complete t := by
      intro uri t hk
      exact ⟨hk.stored, hempty ▸ hk.sound⟩
    rw [heq]
    refine ⟨hgrows, ?_, ?_⟩
    · rintro t report' ⟨⟩
      exact hcomplete (hknown _ rfl)
    · intro uri t ht
      rw [Cache.get?_insert] at ht
      split at ht
      · cases ht
        exact hcomplete (hknown _ rfl)
      · rcases Cache.get?_insertAll ht with ⟨other, hm⟩ | ht
        · exact hcomplete (hholds.known (Or.inl hm))
        · exact hcomplete (hholds.known (Or.inr ht))

/-- The same of a request, which may also be answered from the cache. -/
theorem Request.complete (request : Request) (policy : Policy) {w : Workspace}
    (hcache : ∀ uri t, w.cache.get? uri = some t → w.store.Complete t) :
    w.store.Grows (request.run policy w).2.store ∧
      (∀ t, (request.run policy w).1 = .ok t → (request.run policy w).2.store.Complete t) ∧
      ∀ uri t, (request.run policy w).2.cache.get? uri = some t →
        (request.run policy w).2.store.Complete t := by
  cases hl : request.load? policy w with
  | none =>
    obtain ⟨r, hanswer, heq⟩ := Request.answer_of_load?_none hl
    rw [heq]
    refine ⟨.refl _, ?_, hcache⟩
    rintro t rfl
    cases hanswer with
    | cached hc => exact hcache _ _ hc
  | some l =>
    obtain ⟨_, hsame, hstore⟩ := Request.load?_workspace hl
    obtain ⟨hgrows, hgiven, hcached⟩ := Load.complete (l := l) (by
      rw [hsame, hstore]
      exact hcache)
    rw [Request.run_of_load? hl]
    refine ⟨hstore ▸ hgrows, ?_, hcached⟩
    intro t ht
    obtain ⟨⟨schema, report⟩, hrun, rfl⟩ : ∃ result, l.run.1 = .ok result ∧ result.1 = t := by
      cases hr : l.run.1 with
      | error e =>
        rw [hr] at ht
        cases ht
      | ok result =>
        rw [hr] at ht
        cases ht
        exact ⟨result, rfl, rfl⟩
    exact hgiven schema report hrun

theorem Gave.complete {st : Store} {given : Schema → Prop} (h : Gave st given) :
    ∀ t, given t → st.Complete t := by
  induction h with
  | nothing => exact fun _ h => h.elim
  | grow _ hg ih => exact fun t ht => (ih t ht).grows hg
  | @request w given request policy _ hcache ih =>
    obtain ⟨hgrows, hgiven, hcached⟩ := Request.complete request policy
      fun uri t ht => ih t (hcache uri t ht)
    rintro t (ht | ht | ⟨uri, ht⟩)
    · exact (ih t ht).grows hgrows
    · exact hgiven t ht
    · exact hcached uri t ht

/-- A schema that a request gives is resolved. -/
theorem resolved_of_request {w : Workspace} {given : Schema → Prop} {policy : Policy}
    {request : Request} {s : Schema} {w' : Workspace} (hw : Gave w.store given)
    (hcache : ∀ uri t, w.cache.get? uri = some t → given t)
    (h : request.run policy w = (.ok s, w')) : w'.store.Resolved s := by
  have hcomplete := (Request.complete request policy
    fun uri t ht => hw.complete t (hcache uri t ht)).2.1
  rw [h] at hcomplete
  exact Store.resolved_of_sound (hcomplete s rfl).sound

/-- A schema that refers to itself. -/
def Request.recursive : Request :=
  .named ⟨"http", some "e.com", .segments ["a.json"], none, none⟩
    (.object [("properties", .object [("next", .object [("$ref", .string "#")])])])

/-- A schema that refers to a reference of another document. -/
def Request.borrowing : Request :=
  .named ⟨"http", some "e.com", .segments ["b.json"], none, none⟩
    (.object [("items", .object [("$ref", .string "a.json#/properties/next")])])

theorem resolved_of_second_request : ∃ s w',
    Request.borrowing.run .standard (Request.recursive.run .standard .empty).2 = (.ok s, w') ∧
      (s.children.any fun entry => entry.2.2.isReference) = true ∧ w'.store.Resolved s := by
  have hcheck : (match (Request.borrowing.run .standard
      (Request.recursive.run .standard .empty).2).1 with
      | .ok s => s.children.any fun entry => entry.2.2.isReference
      | .error _ => false) = true := by
    decide +kernel
  cases hr : Request.borrowing.run .standard (Request.recursive.run .standard .empty).2 with
  | mk answer w' =>
    rw [hr] at hcheck
    cases answer with
    | error failure => cases hcheck
    | ok s =>
      refine ⟨s, w', rfl, hcheck, ?_⟩
      exact resolved_of_request
        (.request Request.recursive .standard (.nothing Store.empty) fun _ _ h => nomatch h)
        (fun uri t ht => Or.inr (Or.inr ⟨uri, ht⟩)) hr

end SchemaAtlas
