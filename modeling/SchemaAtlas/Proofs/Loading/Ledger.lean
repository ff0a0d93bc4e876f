import SchemaAtlas.Proofs.Graph.Recorded

/-!
# What a load enters under URIs

A load enters the nodes that it finishes under the URIs that they answer to, and the targets
of references under the URIs of these. A node that is entered was made by the same load. What
else is true of it is said by a ledger: which nodes are given for a position, and which are
entered under a URI. `Ledger.keeps_loadNode` says that reading bears out every ledger that
is closed under the ways in which nodes come to be entered.
-/

namespace SchemaAtlas

/-- A node is built at the place of a position. -/
def Position.Places (p : Position) (t : Schema) : Prop := t.location.place = p.location.place

/-- What is claimed of the nodes that a load gives for positions and enters under URIs. -/
structure Ledger where
  gives : Position → Schema → Prop
  enters : Uri → Schema → Prop

/-- A ledger that the steps of a load from `start` bear out. -/
structure Ledger.Lawful (L : Ledger) (lib : Library) (start : Position) : Prop where
  made : ∀ {p t}, p.Places t → L.gives p t
  known : ∀ {p object t}, lib.Meets start p → p.value = .object object →
    L.enters p.location.pointerUri t → L.gives p t
  answers : ∀ {p members uri t}, lib.Meets start p → p.members? = some members →
    p.answers uri → p.Places t → L.enters uri t
  follows : ∀ {p q uri t}, lib.Meets start p → p.refers? = some uri →
    lib.target? p.context uri = some q → L.gives q t → L.enters uri t

namespace Ledger

/-- The ledger that claims nothing. -/
def silent : Ledger := ⟨fun _ _ => True, fun _ _ => True⟩

theorem silent_lawful (lib : Library) (start : Position) : silent.Lawful lib start :=
  ⟨fun _ => trivial, fun _ _ _ => trivial, fun _ _ _ _ => trivial, fun _ _ _ _ => trivial⟩

/-- The session has entered what the ledger says, and only nodes with numbers from `first`
on. -/
structure Kept (L : Ledger) (first : Nat) (s : Session) : Prop where
  numbered : s.Numbered
  size : first ≤ s.store.nodes.size
  built : ∀ entry ∈ s.built, s.Made first entry.2 ∧ L.enters entry.1 entry.2

variable {L : Ledger} {first : Nat} {s s' : Session} {t : Schema}

/-- A step that enters nothing. -/
theorem Kept.frame (h : L.Kept first s) (hf : s.Frame s') (hb : s'.built = s.built) :
    L.Kept first s' where
  numbered := hf.numbered h.numbered
  size := Nat.le_trans h.size hf.store.size
  built := by
    rw [hb]
    exact fun entry he => ⟨(h.built entry he).1.grows hf.store, (h.built entry he).2⟩

theorem Kept.alike (h : L.Kept first s) (ha : s.Alike s') : L.Kept first s' := by
  obtain ⟨hstore, hprogress, hbuilt, _⟩ := ha
  refine ⟨?_, ?_, ?_⟩
  · rw [Session.Numbered, hstore, hprogress]
    exact h.numbered
  · rw [hstore]
    exact h.size
  · rw [hbuilt]
    exact fun entry he => ⟨(h.built entry he).1.grows (hstore ▸ .refl _), (h.built entry he).2⟩

/-- Making a node without entering it. -/
theorem Kept.add (h : L.Kept first s) (location : Location) (draft : Draft)
    (body : Body Schema) :
    L.Kept first { s with store := (s.store.add location draft body).2 } ∧
      Session.Made first { s with store := (s.store.add location draft body).2 }
        (s.store.add location draft body).1 :=
  ⟨h.frame (Session.frame_add s location draft body) rfl, h.size, Store.node?_add _ _ _ _⟩

theorem Kept.enter (h : L.Kept first s) (uris : List Uri) : L.Kept first (s.enter uris) where
  numbered := h.numbered.enter uris
  size := Nat.le_trans h.size (Store.grows_reserve _).size
  built := fun entry he =>
    ⟨(h.built entry he).1.grows (Store.grows_reserve _), (h.built entry he).2⟩

/-- Entering a node that the load made. -/
theorem Kept.finish (h : L.Kept first s) {uris : List Uri} (ht : s.Made first t)
    (hu : ∀ uri ∈ uris, L.enters uri t) : L.Kept first (s.finish t uris) := by
  refine ⟨h.numbered, h.size, ?_⟩
  intro entry he
  rcases Account.mem_finish he with he | ⟨heq, hm⟩
  · exact ⟨(h.built entry he).1.grows (.refl _), (h.built entry he).2⟩
  · rw [heq]
    exact ⟨ht.grows (.refl _), hu _ hm⟩

/-- Finishing the node whose keywords have been read. -/
theorem Kept.leave (h : L.Kept first s) {uris : List Uri} (hf : (s.enter uris).Frame s')
    (hs' : L.Kept first s') {N : Schema} (hid : N.id = s.store.nodes.size)
    (hu : ∀ uri ∈ uris, L.enters uri N) :
    L.Kept first (s'.leave N uris) ∧ (s'.leave N uris).Made first N := by
  have hframe : s.Frame (s'.leave N uris) := hf.leave hid
  obtain ⟨hstored, hkeep⟩ := hf.node?_leave hid
  have hnew : (s'.leave N uris).Made first N := ⟨hid ▸ h.size, hstored⟩
  refine ⟨⟨hframe.numbered h.numbered, Nat.le_trans h.size hframe.store.size, ?_⟩, hnew⟩
  intro entry he
  rcases Account.mem_finish he with he | ⟨heq, hm⟩
  · obtain ⟨hmade, henters⟩ := hs'.built entry he
    exact ⟨⟨hmade.first, hkeep hmade.stored⟩, henters⟩
  · rw [heq]
    exact ⟨hnew, hu _ hm⟩

/-- A loader that keeps the ledger at every position that a load meets. -/
def Keeps (L : Ledger) (lib : Library) (start : Position) (first : Nat)
    (load : Loading.NodeLoader) : Prop :=
  ∀ {p : Position} {hops : Nat} {s s' : Session} {found : Option Schema}, lib.Meets start p →
    s.Inside lib p.context → L.Kept first s →
    Runs (load p.location p.value hops) s (.ok found) s' →
    L.Kept first s' ∧ ∀ t ∈ found, s'.Made first t ∧ L.gives p t

variable {lib : Library} {start p : Position} {load : Loading.NodeLoader} {uri : Uri}
variable {hops : Nat}

open Loading

theorem Keeps.visits (hk : L.Keeps lib start first load) (hl : Framed load)
    {asked : Location → Json → Prop} {nodes : List Schema} {context : OpenDocument}
    (ha : ∀ location value, asked location value → lib.Meets start ⟨context, location, value⟩)
    (hin : s.Inside lib context) (h : L.Kept first s)
    (hv : Digest.Visits (nestedLoad load) context.draft asked s nodes s') :
    L.Kept first s' := by
  induction hv with
  | start => exact h
  | issue severity kind location message _ _ ih => exact ih.alike (Session.idle_record ..).alike
  | @boolean s₁ nodes location b _ _ ih => exact (ih.add location context.draft (.boolean b)).1
  | @load s₁ s₂ nodes location value found hvisits hasked hr ih =>
    have hin₁ := hin.frame (hl.visits hvisits).1
    have hmeets : lib.Meets start ⟨context, location, value⟩ := ha _ _ hasked
    exact (hk hmeets hin₁ ih hr).1

theorem Keeps.object (hk : L.Keeps lib start first load) (hL : L.Lawful lib start)
    (hl : Framed load) (hp : lib.Meets start p) {object : List (String × Json)}
    (hv : p.value = .object object) (hm : p.members? = some object)
    (hin : s.Inside lib p.context) (h : L.Kept first s) {N : Schema}
    (hr : ObjectRun load p.context p.location object s (.ok N) s') :
    L.Kept first s' ∧ s'.Made first N ∧ p.Places N := by
  cases hr with
  | @finished inner declared builder s₁ s₂ hid hread =>
    have hs₁ : L.Kept first s₁ := h.alike hid.idle.alike
    have hinner : inner = p.inner := hid.inner_eq hv
    have hasked : ∀ location value,
        (location, value) ∈ Digest.nested p.context.active inner object →
        lib.Meets start ⟨p.context, location, value⟩ := by
      intro location value ha
      rw [hinner] at ha
      exact hp.tail (.nested hm ha)
    obtain ⟨nodes, hvisits, _⟩ := (keywordsRun_gathers load p.context inner object).ok hread
    have hs₂ := hk.visits hl hasked (hid.inside hin _) (hs₁.enter _) hvisits
    have hplaces : p.Places (.node s₁.store.nodes.size inner p.context.draft builder.body) :=
      hid.place
    have hmade := hs₁.leave (hl.visits hvisits).1 hs₂ rfl
      fun uri hu => hL.answers hp hm (hid.answers hv hu) hplaces
    exact ⟨hmade.1, hmade.2, hplaces⟩

theorem Keeps.reference (hk : L.Keeps lib start first load) (hL : L.Lawful lib start)
    (hl : Framed load) (hp : lib.Meets start p) {written : String}
    (hw : p.written? = some written) (hin : s.Inside lib p.context) (h : L.Kept first s)
    {draft : Draft} {N : Schema}
    (hr : ReferenceRun load draft p.location written hops s (.ok N) s') :
    L.Kept first s' ∧ s'.Made first N ∧ p.Places N := by
  cases hr with
  | @refers uri reference s₁ hu hresolve =>
    have hrefers : p.refers? = some uri := by simp [Position.refers?, hw, hu, Except.toOption]
    have hs₁ : L.Kept first s₁ := by
      cases hresolve with
      | known => exact h
      | reading => exact h
      | @chased target s₂ _ _ hc =>
        cases hc with
        | @reached searched before after document location value _ s₀ s₃ s₄ hs₀ hcand hs hlocate
            hr =>
          have hbegun : L.Kept first (s.beginResolving uri) := h.alike ⟨rfl, rfl, rfl, rfl⟩
          have hin₀ := hin.beginResolving uri
          have htarget := hl.target?_eq hin₀ hs₀ hcand hs hlocate hr (by simp) (by simp)
          have hin₃ := (hin₀.frame (hl.searches hs).1).push document
          have hs₃ : L.Kept first (s₃.push document) :=
            (hbegun.alike (hl.searches_vain hs).1.alike).alike ⟨rfl, rfl, rfl, rfl⟩
          have hmeets : lib.Meets start ⟨document, location, value⟩ :=
            hp.tail (.follows hrefers htarget)
          obtain ⟨hs₄, hgiven⟩ := hk hmeets hin₃ hs₃ hr
          obtain ⟨hmade, hgives⟩ := hgiven target rfl
          have hended : L.Kept first (s₄.pop.endResolving uri) := hs₄.alike ⟨rfl, rfl, rfl, rfl⟩
          refine hended.finish (hmade.grows (.refl _)) ?_
          intro other hother
          rw [List.mem_singleton.mp hother]
          exact hL.follows hp hrefers htarget hgives
    obtain ⟨hs', hmade⟩ := hs₁.add p.location draft (.reference reference)
    exact ⟨hs', hmade, rfl⟩

theorem keeps_loadWith (hk : L.Keeps lib start first load) (hL : L.Lawful lib start)
    (hl : Framed load) : L.Keeps lib start first (loadWith load) := by
  intro p hops s s' found hp hin h hload
  have hsome : ∀ {N : Schema}, L.Kept first s' ∧ s'.Made first N ∧ p.Places N →
      L.Kept first s' ∧ ∀ t ∈ some N, s'.Made first t ∧ L.gives p t := by
    rintro N ⟨hs', hmade, hplaces⟩
    refine ⟨hs', ?_⟩
    rintro t ⟨⟩
    exact ⟨hmade, hL.made hplaces⟩
  have hcurrent : ∀ {context : OpenDocument}, s.current? = some context → p.context = context :=
    fun hc => Option.some.inj (hin.current?.symm.trans hc)
  cases nodeRun_of_runs hload with
  | outside => exact ⟨h, by simp⟩
  | known _ hv hb =>
    refine ⟨h, ?_⟩
    rintro t ⟨⟩
    obtain ⟨hmade, henters⟩ := h.built _ (Entries.mem_of_get? hb)
    exact ⟨hmade, hL.known hp hv henters⟩
  | @reference _ object written schema _ _ hv _ href hr =>
    have hw : p.written? = some written := by
      simp [Position.written?, hv, Json.member?, href, Json.string?]
    exact hsome (hk.reference hL hl hp hw hin h hr)
  | @object _ object _ _ hc hv _ href hr =>
    have hm : p.members? = some object := by
      simp [Position.members?, hv, Entries.contains, href]
    rw [← hcurrent hc] at hr
    exact hsome (hk.object hL hl hp hv hm hin h hr)
  | @boolean context b _ _ _ =>
    obtain ⟨hs', hmade⟩ := h.add p.location context.draft (.boolean b)
    exact hsome ⟨hs', hmade, rfl⟩
  | refused => exact ⟨h.alike (Session.idle_record ..).alike, by simp⟩

/-- Reading keeps every lawful ledger. -/
theorem keeps_loadNode (hL : L.Lawful lib start) (first steps : Nat) :
    L.Keeps lib start first (loadNode steps) := by
  induction steps with
  | zero =>
    intro p hops s s' found _ _ _ hr
    cases (runs_throw.mp hr).1
  | succ steps ih => exact keeps_loadWith ih hL (framed_loadNode steps)

end Ledger
end SchemaAtlas
