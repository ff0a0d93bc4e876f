import SchemaAtlas.Proofs.Loading.Position

/-!
# Settled references

While a load runs, a reference is settled: it names a finished node that is no reference, or
one that is being read and will be none. A node is sound if all references that it reaches
are settled. Reading a node keeps what is known sound, which `keeps_loadNode` states for
any account of what URIs name; a number is only completed when every reference that waits
for it may lead to its node.
-/

namespace SchemaAtlas

/-! ## The graph of nodes -/

namespace Store

/-- One step from a node: to a nested schema, or from a reference to what it leads to. -/
inductive Edge (st : Store) : Schema → Schema → Prop
  | child {s t : Schema} {kind : KeywordKind} {segment : Option String} :
      (kind, segment, t) ∈ s.children → Edge st s t
  | target {s t : Schema} {r : Reference} : s.reference? = some r →
      (follow r.target st).1 = some t → Edge st s t

/-- Any number of steps from a node. -/
abbrev Reaches (st : Store) : Schema → Schema → Prop := Relation.ReflTransGen st.Edge

/-- All nodes that one step leads to. -/
def next (st : Store) (s : Schema) : List Schema :=
  s.children.map (·.2.2) ++ (s.reference?.bind fun r => (follow r.target st).1).toList

theorem mem_next {st : Store} {s t : Schema} : t ∈ st.next s ↔ st.Edge s t := by
  unfold next
  rw [List.mem_append, List.mem_map, Option.mem_toList, Option.bind_eq_some_iff]
  constructor
  · rintro (⟨⟨kind, segment, _⟩, hm, rfl⟩ | ⟨r, hr, hf⟩)
    · exact .child hm
    · exact .target hr hf
  · intro h
    cases h with
    | child hm => exact Or.inl ⟨_, hm, rfl⟩
    | target hr hf => exact Or.inr ⟨_, hr, hf⟩

end Store

/-! ## Accounts of a load -/

/-- What is claimed of the nodes of a load: the positions that are read, the nodes that a URI
names, those that following it ends at, and the URIs whose nodes it will end at. -/
structure Account where
  reads : Position → Prop
  names : Uri → Schema → Prop
  ends : Uri → Schema → Prop
  awaits : Uri → Uri → Prop

/-- An account that the steps of a load bear out. -/
structure Account.Lawful (A : Account) (lib : Library) : Prop where
  leads : ∀ {p q}, A.reads p → lib.Leads p q → A.reads q
  object : ∀ {p members id draft keywords extra uri}, A.reads p → p.members? = some members →
    p.answers uri → A.names uri (.node id p.inner draft (.object keywords extra))
  boolean : ∀ {p id draft b}, A.reads p → p.value = .bool b →
    A.names p.location.pointerUri (.node id p.location draft (.boolean b))
  reference : ∀ {p id draft r}, A.reads p → p.refers? = some r.uri →
    A.names p.location.pointerUri (.node id p.location draft (.reference r))
  follows : ∀ {p q uri t}, A.reads p → p.refers? = some uri →
    lib.target? p.context uri = some q → A.names q.location.pointerUri t → A.names uri t
  ends_here : ∀ {uri t}, A.names uri t → t.isReference = false → A.ends uri t
  ends_beyond : ∀ {uri t r t'}, A.names uri t → t.reference? = some r → A.ends r.uri t' →
    A.ends uri t'
  awaits_refl : ∀ uri, A.awaits uri uri
  awaits_beyond : ∀ {uri t r waiting}, A.names uri t → t.reference? = some r →
    A.awaits r.uri waiting → A.awaits uri waiting
  awaited : ∀ {uri waiting t}, A.awaits uri waiting → A.names waiting t →
    t.isReference = false → A.ends uri t

namespace Account

section

variable (A : Account) (st : Store) (table : List (Uri × Nat))

/-- A reference names a finished node that is none, or one that is being read. -/
inductive Settled (r : Reference) : Prop
  | finished {id : Nat} {t : Schema} : r.target = .node id → st.node? id = some t →
      t.isReference = false → A.ends r.uri t → Settled r
  | promised {id : Nat} {waiting : Uri} : r.target = .node id → st.node? id = none →
      (waiting, id) ∈ table → A.awaits r.uri waiting → Settled r

/-- All references that a node reaches are settled. -/
def Sound (s : Schema) : Prop :=
  ∀ t, st.Reaches s t → ∀ r, t.reference? = some r → A.Settled st table r

end

variable {A : Account} {lib : Library} {st st' : Store} {table table' : List (Uri × Nat)}

/-- The nodes of a closed set with settled references are sound. -/
theorem sound_of_closed {C : Schema → Prop} (hclosed : ∀ s t, C s → st.Edge s t → C t)
    (hsettled : ∀ s r, C s → s.reference? = some r → A.Settled st table r) {s : Schema}
    (hs : C s) : A.Sound st table s := by
  have hall : ∀ t, st.Reaches s t → C t := by
    intro t ht
    induction ht with
    | refl => exact hs
    | tail _ he ih => exact hclosed _ _ ih he
  exact fun t ht r hr => hsettled t r (hall t ht) hr

theorem Sound.edge {s t : Schema} (h : A.Sound st table s) (he : st.Edge s t) :
    A.Sound st table t :=
  fun t' ht' => h t' (.head he ht')

theorem Sound.settled {s : Schema} {r : Reference} (h : A.Sound st table s)
    (hr : s.reference? = some r) : A.Settled st table r :=
  h s .refl r hr

theorem children_of_reference {s : Schema} {r : Reference} (h : s.reference? = some r) :
    s.children = [] := by
  obtain ⟨id, location, draft, body⟩ := s
  cases body with
  | reference => rfl
  | object => cases h
  | boolean => cases h

/-- A node without reference is sound if the schemas nested in it are. -/
theorem sound_of_children {s : Schema} (hr : s.reference? = none)
    (hc : ∀ entry ∈ s.children, A.Sound st table entry.2.2) : A.Sound st table s := by
  intro t ht r href
  cases ht.cases_head with
  | inl heq =>
    rw [← heq, hr] at href
    cases href
  | inr h =>
    obtain ⟨next, he, hrest⟩ := h
    cases he with
    | child hm => exact hc _ hm t hrest r href
    | target href' =>
      rw [hr] at href'
      cases href'

theorem sound_of_reference {s : Schema} {r : Reference} (hr : s.reference? = some r)
    (hs : A.Settled st table r)
    (ht : ∀ t, (Store.follow r.target st).1 = some t → A.Sound st table t) :
    A.Sound st table s := by
  intro t hreach r' href
  cases hreach.cases_head with
  | inl heq =>
    rw [← heq, hr] at href
    cases href
    exact hs
  | inr h =>
    obtain ⟨next, he, hrest⟩ := h
    cases he with
    | child hm =>
      rw [children_of_reference hr] at hm
      cases hm
    | target href' hf =>
      rw [hr] at href'
      cases href'
      exact ht next hf t hrest r' href

/-- Later nodes and promises leave a reference settled. -/
theorem Settled.grows {r : Reference} (h : A.Settled st table r) (hg : st.Grows st')
    (hn : ∀ entry ∈ table, entry.2 < st.nodes.size) (ht : table ⊆ table') :
    A.Settled st' table' r := by
  cases h with
  | finished htarget hnode href hends =>
    exact .finished htarget (hg.node?_some hnode) href hends
  | promised htarget hnode hmem hawaits =>
    refine .promised htarget ?_ (ht hmem) hawaits
    rw [hg.node? _ (hn _ hmem), hnode]

theorem Settled.follow_grows {r : Reference} (h : A.Settled st table r) (hg : st.Grows st')
    (hn : ∀ entry ∈ table, entry.2 < st.nodes.size) :
    (Store.follow r.target st').1 = (Store.follow r.target st).1 := by
  cases h with
  | finished htarget hnode =>
    rw [htarget]
    exact (hg.node?_some hnode).trans hnode.symm
  | promised htarget hnode hmem =>
    rw [htarget]
    exact hg.node? _ (hn _ hmem)

theorem Sound.grows {s : Schema} (h : A.Sound st table s) (hg : st.Grows st')
    (hn : ∀ entry ∈ table, entry.2 < st.nodes.size) (ht : table ⊆ table') :
    A.Sound st' table' s := by
  apply sound_of_closed (C := A.Sound st table) ?_ ?_ h
  · intro a b ha he
    cases he with
    | child hm => exact ha.edge (.child hm)
    | target hr hf =>
      rw [(ha.settled hr).follow_grows hg hn] at hf
      exact ha.edge (.target hr hf)
  · intro a r ha hr
    exact (ha.settled hr).grows hg hn ht

/-- Completing a promised node keeps nodes sound, and the new node is so if the schemas
nested in it are. -/
theorem sound_complete (hA : A.Lawful lib) {N : Schema} (hN : N.reference? = none)
    (hfresh : st.node? N.id = none) (hid : N.id < st.nodes.size)
    (hc : ∀ entry ∈ N.children, A.Sound st table entry.2.2)
    (hnames : ∀ waiting, (waiting, N.id) ∈ table → A.names waiting N)
    (ht : ∀ entry ∈ table, entry.2 ≠ N.id → entry ∈ table') {s : Schema}
    (hs : s = N ∨ A.Sound st table s) : A.Sound (st.complete N) table' s := by
  have hnode : (st.complete N).node? N.id = some N := Store.node?_complete st N hid
  -- the set of `N` and of all that was sound is closed after the completion
  apply sound_of_closed (C := fun s => s = N ∨ A.Sound st table s) ?_ ?_ hs
  · rintro a b (rfl | ha) he
    · cases he with
      | child hm => exact Or.inr (hc _ hm)
      | target hr =>
        rw [hN] at hr
        cases hr
    · cases he with
      | child hm => exact Or.inr (ha.edge (.child hm))
      | target hr hf =>
        cases ha.settled hr with
        | @finished id t htarget hstored href hends =>
          have hne : id ≠ N.id := by
            rintro rfl
            rw [hfresh] at hstored
            cases hstored
          have hf' : (Store.follow (.node id) st).1 = some b := by
            rw [htarget] at hf
            rw [← hf]
            exact (Store.node?_complete_of_ne st hne).symm
          exact Or.inr (ha.edge (.target hr (by rw [htarget, hf'])))
        | @promised id waiting htarget hnone hmem =>
          rw [htarget] at hf
          by_cases heq : id = N.id
          · subst heq
            exact Or.inl (Option.some.inj (hf.symm.trans hnode))
          · have hf' : st.node? id = some b := by
              rw [← hf]
              exact (Store.node?_complete_of_ne st heq).symm
            rw [hnone] at hf'
            cases hf'
  · rintro a r (rfl | ha) hr
    · rw [hN] at hr
      cases hr
    · cases ha.settled hr with
      | @finished id t htarget hstored href hends =>
        have hne : id ≠ N.id := by
          rintro rfl
          rw [hfresh] at hstored
          cases hstored
        refine .finished htarget ?_ href hends
        rw [Store.node?_complete_of_ne st hne, hstored]
      | @promised id waiting htarget hnone hmem hawaits =>
        by_cases heq : id = N.id
        · subst heq
          have href : N.isReference = false := by simp [Schema.isReference, hN]
          exact .finished htarget hnode href (hA.awaited hawaits (hnames _ hmem) href)
        · refine .promised htarget ?_ (ht _ hmem heq) hawaits
          rw [Store.node?_complete_of_ne st heq, hnone]

/-! ## Sessions -/

/-- What a session knows about a node at a URI. -/
structure Known (A : Account) (s : Session) (uri : Uri) (t : Schema) : Prop where
  names : A.names uri t
  stored : s.store.node? t.id = some t
  sound : A.Sound s.store s.inProgress t

/-- What a session keeps true of its tables. -/
structure Holds (A : Account) (s : Session) : Prop where
  numbered : s.Numbered
  known : ∀ {uri t}, (uri, t) ∈ s.built ∨ s.cache.get? uri = some t → A.Known s uri t

variable {s s' : Session}

theorem Sound.frame {t : Schema} (h : A.Sound s.store s.inProgress t)
    (hf : Session.Frame s s') (hn : s.Numbered) : A.Sound s'.store s'.inProgress t := by
  rw [hf.inProgress hn]
  exact h.grows hf.store (fun entry he => (hn entry he).1) (List.Subset.refl _)

theorem Known.frame {uri : Uri} {t : Schema} (h : A.Known s uri t) (hf : Session.Frame s s')
    (hn : s.Numbered) : A.Known s' uri t :=
  ⟨h.names, hf.store.node?_some h.stored, h.sound.frame hf hn⟩

/-- A step that finishes no node. -/
theorem Holds.frame (h : A.Holds s) (hf : Session.Frame s s') (hb : s'.built = s.built) :
    A.Holds s' where
  numbered := hf.numbered h.numbered
  known := by
    intro uri t ht
    rw [hb, hf.cache] at ht
    exact (h.known ht).frame hf h.numbered

theorem Known.alike {uri : Uri} {t : Schema} (h : A.Known s uri t)
    (hs : s'.store = s.store) (hp : s'.inProgress = s.inProgress) : A.Known s' uri t := by
  refine ⟨h.names, ?_, ?_⟩
  · rw [hs]
    exact h.stored
  · rw [hs, hp]
    exact h.sound

theorem Holds.alike (h : A.Holds s) (ha : Session.Alike s s') : A.Holds s' where
  numbered := by
    rw [Session.Numbered, ha.store, ha.inProgress]
    exact h.numbered
  known := by
    intro uri t ht
    rw [ha.built, ha.cache] at ht
    exact (h.known ht).alike ha.store ha.inProgress

theorem Holds.idle (h : A.Holds s) (hi : Session.Idle s s') : A.Holds s' := h.alike hi.alike

theorem mem_finish {t : Schema} {uris : List Uri} {entry : Uri × Schema}
    (h : entry ∈ (s.finish t uris).built) :
    entry ∈ s.built ∨ entry.2 = t ∧ entry.1 ∈ uris := by
  have hfold : ∀ (uris : List Uri) (built : List (Uri × Schema)),
      entry ∈ uris.foldl (fun built uri => Entries.putNew uri t built) built →
      entry ∈ built ∨ entry.2 = t ∧ entry.1 ∈ uris := by
    intro uris
    induction uris with
    | nil => exact fun _ h => Or.inl h
    | cons uri rest ih =>
      intro built h
      rcases ih _ h with h | ⟨ht, hm⟩
      · simp only [Entries.putNew] at h
        split at h
        · exact Or.inl h
        · rcases List.mem_cons.mp h with rfl | h
          · exact Or.inr ⟨rfl, List.mem_cons_self⟩
          · exact Or.inl h
      · exact Or.inr ⟨ht, List.mem_cons_of_mem _ hm⟩
  exact hfold uris s.built h

/-- Finishing a node under URIs that name it. -/
theorem Holds.finish (h : A.Holds s) {t : Schema} {uris : List Uri}
    (ht : ∀ uri ∈ uris, A.Known s uri t) : A.Holds (s.finish t uris) where
  numbered := h.numbered
  known := by
    intro uri found hfound
    have hknown : A.Known s uri found := by
      rcases hfound with hfound | hfound
      · rcases mem_finish hfound with hfound | ⟨rfl, hm⟩
        · exact h.known (Or.inl hfound)
        · exact ht uri hm
      · exact h.known (Or.inr hfound)
    exact ⟨hknown.names, hknown.stored, hknown.sound⟩

theorem Holds.enter (h : A.Holds s) (uris : List Uri) : A.Holds (s.enter uris) where
  numbered := h.numbered.enter uris
  known := by
    intro uri t ht
    obtain ⟨hnames, hstored, hsound⟩ := h.known ht
    obtain ⟨front, heq, _⟩ :=
      Session.register_eq s.store.nodes.size uris { s with store := s.store.reserve.2 }
    refine ⟨hnames, (Store.grows_reserve _).node?_some hstored, ?_⟩
    apply hsound.grows (Store.grows_reserve _) fun entry he => (h.numbered entry he).1
    rw [Session.enter, heq]
    exact List.subset_append_right _ _

/-- The number that a node is read under, among those being read. -/
theorem mem_enter {uris : List Uri} {entry : Uri × Nat}
    (h : entry ∈ (s.enter uris).inProgress) :
    entry.1 ∈ uris ∧ entry.2 = s.store.nodes.size ∨ entry ∈ s.inProgress := by
  obtain ⟨front, heq, _, hfront⟩ :=
    Session.register_eq s.store.nodes.size uris { s with store := s.store.reserve.2 }
  rw [Session.enter, heq] at h
  rcases List.mem_append.mp h with h | h
  · exact Or.inl (hfront entry h)
  · exact Or.inr h

/-- Finishing the node whose keywords have been read. -/
theorem Holds.leave (hA : A.Lawful lib) (hn : s.Numbered) {uris : List Uri} {N : Schema}
    (hf : Session.Frame (s.enter uris) s') (h : A.Holds s') (hid : N.id = s.store.nodes.size)
    (hN : N.reference? = none)
    (hc : ∀ entry ∈ N.children, A.Sound s'.store s'.inProgress entry.2.2)
    (hnames : ∀ uri ∈ uris, A.names uri N) :
    A.Holds (s'.leave N uris) ∧
      ∀ uri ∈ uris, A.Known (s'.leave N uris) uri N := by
  have hframe : Session.Frame s (s'.leave N uris) := hf.leave hid
  have hentered := hf.inProgress (hn.enter uris)
  have hprogress : (s'.leave N uris).inProgress = s.inProgress := hframe.inProgress hn
  obtain ⟨hlt, hpromised⟩ := hf.promised
  rw [← hid] at hlt hpromised
  have hcomplete : ∀ t, t = N ∨ A.Sound s'.store s'.inProgress t →
      A.Sound (s'.leave N uris).store (s'.leave N uris).inProgress t := by
    intro t ht
    apply sound_complete hA hN hpromised hlt hc ?_ ?_ ht
    · intro waiting hm
      rw [hentered] at hm
      rcases mem_enter hm with ⟨hm, _⟩ | hm
      · exact hnames _ hm
      · exact absurd (hn _ hm).1 (by simp [hid])
    · intro entry he hne
      rw [hentered] at he
      rw [hprogress]
      rcases mem_enter he with ⟨_, heq⟩ | hm
      · exact absurd (heq.trans hid.symm) hne
      · exact hm
  obtain ⟨hstored, hkeep⟩ := hf.node?_leave hid
  have hknown : ∀ uri ∈ uris, A.Known (s'.leave N uris) uri N := fun uri hu =>
    ⟨hnames uri hu, hstored, hcomplete N (Or.inl rfl)⟩
  refine ⟨⟨hframe.numbered hn, ?_⟩, hknown⟩
  intro uri t ht
  rcases ht with ht | ht
  · rcases mem_finish ht with ht | ⟨rfl, hu⟩
    · obtain ⟨hnames, hstored, hsound⟩ := h.known (Or.inl ht)
      exact ⟨hnames, hkeep hstored, hcomplete t (Or.inr hsound)⟩
    · exact hknown uri hu
  · obtain ⟨hnames, hstored, hsound⟩ := h.known (Or.inr ht)
    exact ⟨hnames, hkeep hstored, hcomplete t (Or.inr hsound)⟩

/-! ## Loads -/

open LoadM Loading

/-- A loader under which an account goes on to hold. -/
def Keeps (A : Account) (lib : Library) (load : NodeLoader) : Prop :=
  ∀ {p : Position} {hops : Nat} {s s' : Session} {found : Option Schema},
    s.Inside lib p.context → A.reads p → A.Holds s →
    Runs (load p.location p.value hops) s (.ok found) s' →
    A.Holds s' ∧ ∀ t ∈ found, A.Known s' p.location.pointerUri t

variable {load : NodeLoader} {context : OpenDocument} {uri : Uri} {hops : Nat}

theorem Keeps.visits (hk : A.Keeps lib load) (hl : Framed load) {draft : Draft}
    {asked : Location → Json → Prop} {nodes : List Schema}
    (hasked : ∀ location value, asked location value → A.reads ⟨context, location, value⟩)
    (hin : s.Inside lib context) (h : A.Holds s)
    (hv : Digest.Visits (nestedLoad load) draft asked s nodes s') :
    A.Holds s' ∧ ∀ t ∈ nodes, A.Sound s'.store s'.inProgress t := by
  induction hv with
  | start => exact ⟨h, by simp⟩
  | issue severity kind location message _ _ ih =>
    exact ⟨ih.1.idle (Session.idle_record ..), ih.2⟩
  | @boolean s₁ nodes location b hv _ ih =>
    obtain ⟨hs₁, hnodes⟩ := ih
    have hframe := Session.frame_add s₁ location draft (.boolean b)
    refine ⟨hs₁.frame hframe rfl, ?_⟩
    intro t ht
    rcases List.mem_append.mp ht with ht | ht
    · exact (hnodes t ht).frame hframe hs₁.numbered
    · rw [List.mem_singleton.mp ht]
      exact sound_of_children rfl (by simp [Schema.children, Schema.keywords, Store.add, Schema.body])
  | @load s₁ s₂ nodes location value found hv ha hr ih =>
    obtain ⟨hs₁, hnodes⟩ := ih
    have hframe := hl.frame hr
    have hin₁ := hin.frame (hl.visits hv).1
    obtain ⟨hs₂, hfound⟩ :=
      hk (p := ⟨context, location, value⟩) hin₁ (hasked location value ha) hs₁ hr
    refine ⟨hs₂, ?_⟩
    intro t ht
    rcases List.mem_append.mp ht with ht | ht
    · exact (hnodes t ht).frame hframe hs₁.numbered
    · exact (hfound t (Option.mem_toList.mp ht)).sound

theorem Keeps.chase (hk : A.Keeps lib load) (hl : Framed load) (hA : A.Lawful lib)
    {p : Position} {target : Schema} (hin : s.Inside lib p.context) (hp : A.reads p)
    (hu : p.refers? = some uri) (h : A.Holds s)
    (hc : ChaseRun load p.location uri hops s (.ok target) s') :
    A.Holds s' ∧ A.Known s' uri target := by
  cases hc with
  | @reached searched before after document location value _ s₀ s₁ s₂ hs₀ hlist hs hlocate hr =>
    have htarget : lib.target? p.context uri = some ⟨document, location, value⟩ :=
      hl.target?_eq hin hs₀ hlist hs hlocate hr (by simp) (by simp)
    have hs₁ : A.Holds (s₁.push document) :=
      (h.idle (hl.searches_vain hs).1).alike ⟨rfl, rfl, rfl, rfl⟩
    obtain ⟨hs₂, hknown⟩ := hk (p := ⟨document, location, value⟩)
      ((hin.frame (hl.searches hs).1).push document)
      (hA.leads hp (.follows hu htarget)) hs₁ hr
    have hfound := hknown target rfl
    refine ⟨hs₂.alike ⟨rfl, rfl, rfl, rfl⟩, ?_⟩
    exact ⟨hA.follows hp hu htarget hfound.names, hfound.stored, hfound.sound⟩

/-- A reference is sound if its node would be. -/
structure SoundReference (A : Account) (s : Session) (r : Reference) : Prop where
  settled : A.Settled s.store s.inProgress r
  follow : ∀ t, (Store.follow r.target s.store).1 = some t → A.Sound s.store s.inProgress t

/-- A reference to a node that is known at the URI. -/
theorem Known.referenceTo (hA : A.Lawful lib) {t : Schema} (h : A.Known s uri t)
    (written : String) : A.SoundReference s (referenceTo written uri t) := by
  unfold Loading.referenceTo
  cases hr : t.reference? with
  | none =>
    have href : t.isReference = false := by simp [Schema.isReference, hr]
    refine ⟨.finished rfl h.stored href (hA.ends_here h.names href), ?_⟩
    intro t' ht'
    change s.store.node? t.id = some t' at ht'
    rw [h.stored] at ht'
    cases ht'
    exact h.sound
  | some inner =>
    refine ⟨?_, fun t' ht' => h.sound.edge (.target hr ht')⟩
    cases h.sound.settled hr with
    | finished htarget hnode href hends =>
      exact .finished htarget hnode href (hA.ends_beyond h.names hr hends)
    | promised htarget hnode hmem hawaits =>
      exact .promised htarget hnode hmem (hA.awaits_beyond h.names hr hawaits)

theorem referenceTo_uri (written : String) (uri : Uri) (t : Schema) :
    (Loading.referenceTo written uri t).uri = uri := by
  unfold Loading.referenceTo
  split <;> rfl

theorem Keeps.resolve (hk : A.Keeps lib load) (hl : Framed load) (hA : A.Lawful lib)
    {p : Position} {written : String} {r : Reference} (hin : s.Inside lib p.context)
    (hp : A.reads p) (hu : p.refers? = some uri) (h : A.Holds s)
    (hr : ResolveRun load p.location written uri hops s (.ok r) s') :
    A.Holds s' ∧ A.SoundReference s' r ∧ r.uri = uri := by
  cases hr with
  | known hknown =>
    have ht := h.known ((Option.or_eq_some_iff.mp hknown).imp Entries.mem_of_get? And.right)
    exact ⟨h, ht.referenceTo hA written, referenceTo_uri _ _ _⟩
  | reading _ hid =>
    have hm := Entries.mem_of_get? hid
    have hnone := (h.numbered _ hm).2
    refine ⟨h, ⟨.promised rfl hnone hm (hA.awaits_refl uri), ?_⟩, rfl⟩
    intro t ht
    change s.store.node? _ = some t at ht
    rw [hnone] at ht
    cases ht
  | @chased target s₁ _ _ hc =>
    obtain ⟨hs₁, hknown⟩ := hk.chase hl hA (s := s.beginResolving uri)
      (hin.beginResolving uri) hp hu (h.alike ⟨rfl, rfl, rfl, rfl⟩) hc
    have hend : A.Known (s₁.endResolving uri) uri target := hknown.alike rfl rfl
    have hfinish : A.Known ((s₁.endResolving uri).finish target [uri]) uri target :=
      hend.alike rfl rfl
    have hs₂ : A.Holds (s₁.endResolving uri) := hs₁.alike ⟨rfl, rfl, rfl, rfl⟩
    refine ⟨hs₂.finish ?_, ?_, referenceTo_uri _ _ _⟩
    · intro other hother
      rw [List.mem_singleton.mp hother]
      exact hend
    · exact hfinish.referenceTo hA written

/-- A new reference node. -/
theorem SoundReference.add {r : Reference} (hr : A.SoundReference s r) (h : A.Holds s)
    (location : Location) (draft : Draft)
    (hnames : A.names uri (s.store.add location draft (.reference r)).1) :
    A.Known { s with store := (s.store.add location draft (.reference r)).2 } uri
      (s.store.add location draft (.reference r)).1 := by
  have hgrows := Store.grows_add s.store location draft (.reference r)
  have hbelow : ∀ entry ∈ s.inProgress, entry.2 < s.store.nodes.size :=
    fun entry he => (h.numbered entry he).1
  refine ⟨hnames, Store.node?_add _ _ _ _, ?_⟩
  apply sound_of_reference (r := r) rfl (hr.settled.grows hgrows hbelow (List.Subset.refl _))
  intro t ht
  rw [hr.settled.follow_grows hgrows hbelow] at ht
  exact (hr.follow t ht).grows hgrows hbelow (List.Subset.refl _)

theorem Keeps.object (hk : A.Keeps lib load) (hl : Framed load) (hA : A.Lawful lib)
    {p : Position} {members : List (String × Json)} {N : Schema}
    (hin : s.Inside lib p.context) (hp : A.reads p) (hm : p.members? = some members)
    (hv : p.value = .object members) (h : A.Holds s)
    (hr : ObjectRun load p.context p.location members s (.ok N) s') :
    A.Holds s' ∧ A.Known s' p.location.pointerUri N := by
  cases hr with
  | @finished inner declared builder s₁ s₂ hid hread =>
    have hinner : inner = p.inner := hid.inner_eq hv
    subst hinner
    have hs₁ : A.Holds s₁ := h.idle hid.idle
    have hg := keywordsRun_gathers load p.context p.inner members
    obtain ⟨nodes, hvisits, hheld, _⟩ := hg.ok hread
    obtain ⟨hs₂, hsound⟩ := hk.visits hl (fun location value hplace =>
      hA.leads hp (.nested hm hplace)) (hid.inside hin _) (hs₁.enter _) hvisits
    have hframe := (hl.visits hvisits).1
    have hbody := keywordsRun_body hread
    have hN : Schema.reference? (.node s₁.store.nodes.size p.inner p.context.draft
        builder.body) = none := by
      simp [Schema.reference?, Schema.body, hbody]
    have hchildren : ∀ entry ∈ Schema.children (.node s₁.store.nodes.size p.inner
        p.context.draft builder.body), A.Sound s₂.store s₂.inProgress entry.2.2 := by
      intro entry he
      have hchild := (Schema.mem_children (s := .node s₁.store.nodes.size p.inner
        p.context.draft builder.body) hbody).mp ⟨entry.1, entry.2.1, he⟩
      exact hsound _ (hheld hchild)
    obtain ⟨hholds, hknown⟩ := hs₂.leave hA hs₁.numbered hframe rfl hN hchildren (by
      intro uri hu
      rw [hbody]
      exact hA.object hp hm (hid.answers hv hu))
    exact ⟨hholds, hknown _ List.mem_cons_self⟩

/-- Reading a node keeps what is known sound if reading nested nodes does. -/
theorem keeps_loadWith (hk : A.Keeps lib load) (hl : Framed load) (hA : A.Lawful lib) :
    A.Keeps lib (loadWith load) := by
  intro p hops s s' found hin hp h hload
  have hcontext : ∀ {context}, s.current? = some context → context = p.context := by
    intro context hc
    rw [hin.current?] at hc
    exact (Option.some.inj hc).symm
  cases nodeRun_of_runs hload with
  | outside hc =>
    rw [hin.current?] at hc
    cases hc
  | known _ _ hb =>
    refine ⟨h, ?_⟩
    rintro t ⟨⟩
    exact h.known (Or.inl (Entries.mem_of_get? hb))
  | @reference context object written schema _ hc hv _ href hr =>
    cases hr with
    | @refers uri r s₁ hresolve hresolved =>
      have hu : p.refers? = some uri := by
        simp [Position.refers?, Position.written?, hv, Json.member?, href, Json.string?,
          hresolve, Except.toOption]
      obtain ⟨hs₁, hsound, heq⟩ := hk.resolve hl hA hin hp hu h hresolved
      refine ⟨hs₁.frame (Session.frame_add ..) rfl, ?_⟩
      rintro t ⟨⟩
      exact hsound.add hs₁ _ _ (hA.reference hp (by rw [heq, hu]))
  | @object context object schema _ hc hv _ href hr =>
    cases hcontext hc
    have hm : p.members? = some object := by
      simp [Position.members?, hv, Entries.contains, href]
    obtain ⟨hs', hknown⟩ := hk.object hl hA hin hp hm hv h hr
    refine ⟨hs', ?_⟩
    rintro t ⟨⟩
    exact hknown
  | @boolean context b hc hv _ =>
    refine ⟨h.frame (Session.frame_add ..) rfl, ?_⟩
    rintro t ⟨⟩
    refine ⟨hA.boolean hp hv, Store.node?_add _ _ _ _, ?_⟩
    apply sound_of_children rfl
    simp [Schema.children, Schema.keywords, Store.add, Schema.body]
  | refused =>
    refine ⟨h.idle (Session.idle_record ..), ?_⟩
    rintro t ⟨⟩

theorem keeps_loadNode (hA : A.Lawful lib) (steps : Nat) : A.Keeps lib (loadNode steps) := by
  induction steps with
  | zero =>
    intro p hops s s' found _ _ _ hr
    cases (runs_throw.mp hr).1
  | succ steps ih => exact keeps_loadWith ih (framed_loadNode steps) hA

end Account
end SchemaAtlas
