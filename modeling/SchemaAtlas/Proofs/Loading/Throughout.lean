import SchemaAtlas.Proofs.Graph.Resolved
import SchemaAtlas.Proofs.Loading.Catalogued

/-!
# What holds throughout loaded schemas

A load makes a node of each value that it reads, and the nodes nested in it are given by loads of
the values inside. So what reading gives to every node, whatever is nested in it, holds of a
loaded schema at every depth. The invariant of a session is that it holds so of all finished
nodes; `Gave.throughout` carries it over any number of requests. The catalog is an instance:
throughout a loaded schema the keywords are as its entries make them.
-/

namespace SchemaAtlas

namespace Schema

/-- A schema nests itself and the schemas in the keywords of those that it nests. -/
inductive Nests (s : Schema) : Schema → Prop
  | self : Nests s s
  | inside {t child : Schema} {kind : KeywordKind} {k : Keyword Schema} :
      Nests s t → (kind, k) ∈ t.keywords → child ∈ k.nodes → Nests s child

/-- A property of a schema and of all schemas nested in it. -/
def Throughout (P : Schema → Prop) (s : Schema) : Prop := ∀ t, s.Nests t → P t

variable {P : Schema → Prop} {s t : Schema}

theorem Nests.cases (h : s.Nests t) : t = s ∨ ∃ kind k child, (kind, k) ∈ s.keywords ∧
    child ∈ k.nodes ∧ child.Nests t := by
  induction h with
  | self => exact Or.inl rfl
  | @inside t child kind k _ hk hc ih =>
    rcases ih with rfl | ⟨kind', k', child', hk', hc', hn⟩
    · exact Or.inr ⟨kind, k, child, hk, hc, .self⟩
    · exact Or.inr ⟨kind', k', child', hk', hc', hn.inside hk hc⟩

theorem throughout_of_nested (h : P s) (hn : ∀ kind k child, (kind, k) ∈ s.keywords →
    child ∈ k.nodes → child.Throughout P) : s.Throughout P := by
  intro t ht
  rcases ht.cases with rfl | ⟨kind, k, child, hk, hc, ht⟩
  · exact h
  · exact hn kind k child hk hc t ht

/-- Where no keywords are, nothing else is nested. -/
theorem throughout_of_keywords (h : P s) (hk : s.keywords = []) : s.Throughout P := by
  apply throughout_of_nested h
  intro kind k child hm
  rw [hk] at hm
  cases hm

end Schema

/-- The finished nodes of a session have a property throughout. -/
def Session.Bears (P : Schema → Prop) (s : Session) : Prop :=
  ∀ entry ∈ s.built, entry.2.Throughout P

theorem Session.Bears.alike {P : Schema → Prop} {s s' : Session} (h : s.Bears P)
    (ha : s.Alike s') : s'.Bears P := by
  rw [Session.Bears, ha.built]
  exact h

theorem Session.Bears.finish {P : Schema → Prop} {s : Session} (h : s.Bears P) {t : Schema}
    (ht : t.Throughout P) (uris : List Uri) : (s.finish t uris).Bears P := by
  intro entry he
  rcases Account.mem_finish he with he | ⟨heq, _⟩
  · exact h entry he
  · exact heq ▸ ht

namespace Loading

/-- A property that reading gives to every node, whatever is nested in it. -/
structure Gives (P : Schema → Prop) : Prop where
  boolean : ∀ {id location draft b}, P (.node id location draft (.boolean b))
  reference : ∀ {id location draft r}, P (.node id location draft (.reference r))
  object : ∀ {load context inner object builder id} {s s' : Session},
    Runs (keywordsRun load context inner object) s (.ok builder) s' →
    P (.node id inner context.draft builder.body)

/-- A loader whose nodes have a property throughout, if those finished before do. -/
def Bearing (P : Schema → Prop) (load : NodeLoader) : Prop :=
  ∀ {location : Location} {value : Json} {hops : Nat} {s s' : Session} {found : Option Schema},
    s.Bears P → Runs (load location value hops) s (.ok found) s' →
    s'.Bears P ∧ ∀ t ∈ found, t.Throughout P

variable {P : Schema → Prop} {load : NodeLoader} {location : Location} {hops : Nat}
variable {s s' : Session} {N : Schema}

theorem Bearing.visits (hk : Bearing P load) (hP : Gives P) {draft : Draft}
    {asked : Location → Json → Prop} {nodes : List Schema} (h : s.Bears P)
    (hv : Digest.Visits (nestedLoad load) draft asked s nodes s') :
    s'.Bears P ∧ ∀ t ∈ nodes, t.Throughout P := by
  induction hv with
  | start => exact ⟨h, by simp⟩
  | issue _ _ _ _ _ _ ih => exact ih
  | boolean _ _ ih =>
    refine ⟨ih.1, fun t ht => ?_⟩
    rcases List.mem_append.mp ht with ht | ht
    · exact ih.2 t ht
    · rw [List.mem_singleton.mp ht]
      exact Schema.throughout_of_keywords hP.boolean rfl
  | load _ _ hr ih =>
    obtain ⟨hs, hfound⟩ := hk ih.1 hr
    refine ⟨hs, fun t ht => ?_⟩
    rcases List.mem_append.mp ht with ht | ht
    · exact ih.2 t ht
    · exact hfound t (Option.mem_toList.mp ht)

theorem Bearing.object (hk : Bearing P load) (hP : Gives P) {context : OpenDocument}
    {object : List (String × Json)} (h : s.Bears P)
    (hr : ObjectRun load context location object s (.ok N) s') :
    s'.Bears P ∧ N.Throughout P := by
  cases hr with
  | @finished inner declared builder s₁ s₂ hid hread =>
    have hs₁ : s₁.Bears P := h.alike hid.idle.alike
    have hentered : Session.Bears P
        (s₁.enter (location.pointerUri :: location.uri :: declared)) := hs₁
    obtain ⟨nodes, hvisits, hsub, _⟩ := (keywordsRun_gathers load context inner object).ok hread
    obtain ⟨hs₂, hnodes⟩ := hk.visits hP hentered hvisits
    have hN : Schema.Throughout P
        (.node s₁.store.nodes.size inner context.draft builder.body) := by
      apply Schema.throughout_of_nested (hP.object hread)
      intro kind k child hm hc
      rw [Schema.keywords, Schema.body, keywordsRun_body hread] at hm
      exact hnodes child (hsub (List.mem_flatMap.mpr ⟨_, hm, hc⟩))
    exact ⟨Session.Bears.finish hs₂ hN _, hN⟩

theorem Bearing.reference (hk : Bearing P load) (hP : Gives P) (hl : Framed load)
    {draft : Draft} {written : String} (h : s.Bears P)
    (hr : ReferenceRun load draft location written hops s (.ok N) s') :
    s'.Bears P ∧ N.Throughout P := by
  cases hr with
  | @refers uri reference s₁ _ hresolve =>
    have hs₁ : s₁.Bears P := by
      cases hresolve with
      | known => exact h
      | reading => exact h
      | chased _ _ hc =>
        cases hc with
        | @reached _ _ _ document _ _ _ _ s₃ _ _ _ hs _ hr =>
          have hbegun : Session.Bears P (s.beginResolving uri) := h
          have hs₃ : s₃.Bears P := hbegun.alike (hl.searches_vain hs).1.alike
          have hpushed : Session.Bears P (s₃.push document) := hs₃
          obtain ⟨hs₄, hgiven⟩ := hk hpushed hr
          exact Session.Bears.finish hs₄ (hgiven _ rfl) _
    exact ⟨hs₁, Schema.throughout_of_keywords hP.reference rfl⟩

theorem bearing_loadWith (hk : Bearing P load) (hP : Gives P) (hl : Framed load) :
    Bearing P (loadWith load) := by
  intro location value hops s s' found h hload
  have hsome : ∀ {N : Schema}, s'.Bears P ∧ N.Throughout P →
      s'.Bears P ∧ ∀ t ∈ some N, t.Throughout P := by
    rintro N ⟨hs', hN⟩
    refine ⟨hs', ?_⟩
    rintro t ⟨⟩
    exact hN
  cases nodeRun_of_runs hload with
  | outside => exact ⟨h, by simp⟩
  | known _ _ hb => exact hsome ⟨h, h _ (Entries.mem_of_get? hb)⟩
  | reference _ _ _ _ hr => exact hsome (hk.reference hP hl h hr)
  | object _ _ _ _ hr => exact hsome (hk.object hP h hr)
  | boolean => exact hsome ⟨h, Schema.throughout_of_keywords hP.boolean rfl⟩
  | refused => exact ⟨h, by simp⟩

/-- Reading bears every property that it gives to each node. -/
theorem bearing_loadNode (hP : Gives P) (steps : Nat) : Bearing P (loadNode steps) := by
  induction steps with
  | zero =>
    intro location value hops s s' found _ hr
    cases (runs_throw.mp hr).1
  | succ steps ih => exact bearing_loadWith ih hP (framed_loadNode steps)

/-- What the catalog makes of members it makes of every object. -/
theorem gives_isCatalogued : Gives Schema.IsCatalogued where
  boolean := ⟨.nil, fun _ _ hm => nomatch hm⟩
  reference := ⟨.nil, fun _ _ hm => nomatch hm⟩
  object := by
    intro load context inner object builder id s s' hr
    have hkeywords : Schema.keywords (.node id inner context.draft builder.body) =
        builder.keywords := by
      rw [Schema.keywords, Schema.body, keywordsRun_body hr]
    obtain ⟨hsorted, hcatalogued⟩ := Digest.catalogued_of_members hr
    exact ⟨hkeywords ▸ hsorted, hkeywords ▸ hcatalogued⟩

end Loading

/-! ## Requests -/

variable {P : Schema → Prop}

/-- A load gives and caches schemas that have the property throughout, besides those that were
cached before. -/
theorem Load.throughout (hP : Loading.Gives P) (l : Load) :
    (∀ t report, l.run.1 = .ok (t, report) → t.Throughout P) ∧
      ∀ uri t, l.run.2.cache.get? uri = some t →
        t.Throughout P ∨ ∃ old, l.workspace.cache.get? old = some t := by
  have hsession : l.session.Bears P := by
    rw [l.session_eq]
    intro entry he
    cases he
  have hsame : ∀ {start r s}, Runs (l.reading start) l.session r s →
      s.cache = l.workspace.cache := by
    intro start r s hr
    have hcache := ((Loading.framed_loadNode l.workspace.stepLimit).frame hr).cache
    rw [l.session_eq] at hcache
    exact hcache
  cases h : l.run.1 with
  | error failure =>
    refine ⟨fun _ _ h => (nomatch h), fun uri t ht => ?_⟩
    rcases Load.run_error h with heq | ⟨start, outcome, s, _, hr, heq⟩
    · rw [heq] at ht
      exact Or.inr ⟨uri, ht⟩
    · rw [heq] at ht
      exact Or.inr ⟨uri, hsame hr ▸ ht⟩
  | ok result =>
    obtain ⟨schema, report⟩ := result
    obtain ⟨start, s, _, hr, _, _, heq⟩ := Load.run_ok h
    obtain ⟨hs, hfound⟩ := Loading.bearing_loadNode hP l.workspace.stepLimit hsession hr
    refine ⟨?_, fun uri t ht => ?_⟩
    · rintro t report' ⟨⟩
      exact hfound _ rfl
    · rw [heq, Cache.get?_insert] at ht
      split at ht
      · cases ht
        exact Or.inl (hfound _ rfl)
      · rcases Cache.get?_insertAll ht with ⟨other, hm⟩ | ht
        · exact Or.inl (hs _ hm)
        · exact Or.inr ⟨uri, hsame hr ▸ ht⟩

/-- The same of a request, which may also be answered from the cache. -/
theorem Request.throughout (hP : Loading.Gives P) (request : Request) (policy : Policy)
    {w : Workspace} (hcache : ∀ uri t, w.cache.get? uri = some t → t.Throughout P) :
    (∀ t, (request.run policy w).1 = .ok t → t.Throughout P) ∧
      ∀ uri t, (request.run policy w).2.cache.get? uri = some t → t.Throughout P := by
  cases hl : request.load? policy w with
  | none =>
    obtain ⟨r, hanswer, heq⟩ := Request.answer_of_load?_none hl
    rw [heq]
    refine ⟨?_, hcache⟩
    rintro t rfl
    cases hanswer with
    | cached hc => exact hcache _ _ hc
  | some l =>
    obtain ⟨_, hsame, _⟩ := Request.load?_workspace hl
    obtain ⟨hgiven, hcached⟩ := Load.throughout hP l
    rw [Request.run_of_load? hl]
    refine ⟨fun t ht => ?_, fun uri t ht => ?_⟩
    · obtain ⟨⟨schema, report⟩, hrun, rfl⟩ : ∃ result, l.run.1 = .ok result ∧ result.1 = t := by
        cases hr : l.run.1 with
        | error e =>
          rw [hr] at ht
          cases ht
        | ok result =>
          rw [hr] at ht
          cases ht
          exact ⟨result, rfl, rfl⟩
      exact hgiven schema report hrun
    · rcases hcached uri t ht with ht | ⟨old, hold⟩
      · exact ht
      · rw [hsame] at hold
        exact hcache old t hold

/-- What reading gives to every node holds throughout every schema that requests gave. -/
theorem Gave.throughout (hP : Loading.Gives P) {st : Store} {given : Schema → Prop}
    (h : Gave st given) : ∀ t, given t → t.Throughout P := by
  induction h with
  | nothing => exact fun _ h => h.elim
  | grow _ _ ih => exact ih
  | @request w given request policy _ hcache ih =>
    obtain ⟨hgiven, hcached⟩ := Request.throughout hP request policy
      fun uri t ht => ih t (hcache uri t ht)
    rintro t (ht | ht | ⟨uri, ht⟩)
    · exact ih t ht
    · exact hgiven t ht
    · exact hcached uri t ht

end SchemaAtlas
