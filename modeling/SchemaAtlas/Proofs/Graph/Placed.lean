import SchemaAtlas.Proofs.Graph.Targets
import SchemaAtlas.Proofs.Loading.Commit
import SchemaAtlas.Proofs.Loading.Termination

/-!
# Nodes in place

A call for a place of a document is answered with the node that is entered under the URI of
this place, or with a new node, which is built there. Nodes are entered under URIs of three
sorts, though: the place in the document, the path in the scope, and the identifier that was
declared; and under the URIs of references that lead to them. Where such a URI is that of
another place, the node is given for that place too.

`placed_iff_unmixed` says that this is the only way in which a load comes by a node of another
place, and that it does not happen where the URIs of places are used for nothing else.
-/

namespace SchemaAtlas

/-- Whether the node of another place is entered under the URI of the place of an object. -/
def Session.misplaces (location : Location) (value : Json) (s : Session) : Bool :=
  match s.current?, value, Entries.get? location.pointerUri s.built with
  | some _, .object _, some t => t.location.place ≠ location.place
  | _, _, _ => false

namespace Loading

open LoadM Session

variable {load : NodeLoader} {location : Location} {value : Json} {hops : Nat} {s s' : Session}
variable {t : Schema}

/-! ## Loaders that stop -/

/-- Reads a node like `loadNode`, but stops at an answer that is built at another place. -/
def loadPlaced (steps : Nat) (location : Location) (value : Json) (hops : Nat) :
    LoadM (Option Schema) :=
  match steps with
  | 0 => throw .exhausted
  | steps + 1 => do
    let found ← loadWith (loadPlaced steps) location value hops
    if found.all (·.location.place = location.place) then return found else throw .exhausted

/-- Reads a node like `loadNode`, but stops where the node of another place is entered under
the URI of the place. -/
def loadUnmixed (steps : Nat) (location : Location) (value : Json) (hops : Nat) :
    LoadM (Option Schema) :=
  match steps with
  | 0 => throw .exhausted
  | steps + 1 => do
    if (← get).misplaces location value then throw .exhausted
    else loadWith (loadUnmixed steps) location value hops

/-- A node that was not found under the URI of the place is built there. -/
theorem place_of_loadWith (hs : s.misplaces location value = false)
    (h : Runs (loadWith load location value hops) s (.ok (some t)) s') :
    t.location.place = location.place := by
  cases nodeRun_of_runs h with
  | known hc hv hb =>
    subst hv
    simpa [Session.misplaces, hc, hb] using hs
  | reference _ _ _ _ hr =>
    cases hr with
    | refers => rfl
  | object _ _ _ _ hr =>
    cases hr with
    | finished hid _ => exact hid.place
  | boolean => rfl

/-- The node of another place is given at once. -/
theorem runs_of_misplaces (hs : s.misplaces location value = true) :
    ∃ t, t.location.place ≠ location.place ∧
      Runs (loadWith load location value hops) s (.ok (some t)) s := by
  unfold Session.misplaces at hs
  split at hs
  · rename_i context members t hc hb
    refine ⟨t, of_decide_eq_true hs, ?_⟩
    unfold loadWith
    rw [runs_get_bind]
    simp only [hc]
    rw [runs_get_bind]
    simp only [hb]
    exact runs_pure.mpr ⟨rfl, rfl⟩
  · cases hs

/-- Where no node of another place is entered, the load goes on. -/
theorem coincide_loadUnmixed {steps : Nat} {x : LoadM (Option Schema)}
    (hs : s.misplaces location value = false)
    (h : Coincide (loadWith (loadUnmixed steps) location value hops) x s) :
    Coincide (loadUnmixed (steps + 1) location value hops) x s := by
  rcases hx : (ExceptT.run x).run s with ⟨r, s'⟩
  have hrun : Runs (loadUnmixed (steps + 1) location value hops) s r s' := by
    refine runs_get_bind.mpr ?_
    simp only [hs, Bool.false_eq_true, if_false]
    exact h.trans hx
  exact hrun.trans hx.symm

/-- An answer is built at another place if and only if it was entered under the URI of the
place. -/
theorem loadPlaced_eq_loadUnmixed (steps : Nat) : loadPlaced steps = loadUnmixed steps := by
  induction steps with
  | zero => rfl
  | succ steps ih =>
    funext location value hops
    suffices h : ∀ s, Coincide (loadUnmixed (steps + 1) location value hops)
        (loadPlaced (steps + 1) location value hops) s from (funext h).symm
    intro s
    cases hm : s.misplaces location value with
    | true =>
      obtain ⟨t, hne, hload⟩ := runs_of_misplaces hm
      have hplaced : Runs (loadPlaced (steps + 1) location value hops) s (.error .exhausted) s := by
        refine runs_bind.mpr (Or.inl ⟨some t, s, hload, ?_⟩)
        simp [hne]
      have hunmixed :
          Runs (loadUnmixed (steps + 1) location value hops) s (.error .exhausted) s := by
        refine runs_get_bind.mpr ?_
        simp [hm]
      exact hunmixed.trans hplaced.symm
    | false =>
      refine coincide_loadUnmixed hm ?_
      rcases hload : (ExceptT.run (loadWith (loadUnmixed steps) location value hops)).run s with
        ⟨r, s'⟩
      have hplaced : Runs (loadPlaced (steps + 1) location value hops) s r s' := by
        rcases r with e | found
        · exact runs_bind.mpr (Or.inr ⟨e, ih ▸ hload, rfl⟩)
        · refine runs_bind.mpr (Or.inl ⟨found, s', ih ▸ hload, ?_⟩)
          cases found with
          | none => simp
          | some t => simp [place_of_loadWith hm hload]
      exact hload.trans hplaced.symm

/-! ## Loaders that keep places -/

/-- A loader that answers with nodes of the place that it is called for. -/
structure Placing (load : NodeLoader) : Prop extends Framed load where
  place : ∀ {location value hops s t s'}, Runs (load location value hops) s (.ok (some t)) s' →
    t.location.place = location.place

/-- To stop at an answer of another place is not to give it. -/
theorem runs_loadPlaced {steps : Nat} {r : Except Stop (Option Schema)}
    (h : Runs (loadPlaced (steps + 1) location value hops) s r s') :
    (∃ found, r = .error .exhausted ∧
        Runs (loadWith (loadPlaced steps) location value hops) s (.ok found) s') ∨
      Runs (loadWith (loadPlaced steps) location value hops) s r s' ∧
        ∀ t, r = .ok (some t) → t.location.place = location.place := by
  rcases runs_bind.mp h with ⟨found, s₁, hr, hcheck⟩ | ⟨e, hr, rfl⟩
  · split at hcheck
    · rename_i hplace
      obtain ⟨rfl, rfl⟩ := runs_pure.mp hcheck
      refine Or.inr ⟨hr, ?_⟩
      rintro t ⟨⟩
      simpa using hplace
    · obtain ⟨rfl, rfl⟩ := runs_throw.mp hcheck
      exact Or.inl ⟨found, rfl, hr⟩
  · exact Or.inr ⟨hr, fun t ht => (nomatch ht)⟩

theorem runs_loadPlaced_ok {steps : Nat} {found : Option Schema}
    (h : Runs (loadPlaced (steps + 1) location value hops) s (.ok found) s') :
    Runs (loadWith (loadPlaced steps) location value hops) s (.ok found) s' ∧
      ∀ t ∈ found, t.location.place = location.place := by
  rcases runs_loadPlaced h with ⟨_, hend, _⟩ | ⟨hr, hplace⟩
  · cases hend
  · exact ⟨hr, fun t ht => hplace t (congrArg Except.ok ht)⟩

theorem placing_loadPlaced (steps : Nat) : Placing (loadPlaced steps) := by
  induction steps with
  | zero =>
    refine ⟨framed_exhausted, ?_⟩
    intro location value hops s t s' h
    cases (runs_throw.mp h).1
  | succ steps ih =>
    have hl : Framed (loadWith (loadPlaced steps)) := framed_loadWith ih.toFramed
    refine ⟨⟨?_, ?_, ?_, ?_⟩, ?_⟩
    · intro location value hops s r s' h
      rcases runs_loadPlaced h with ⟨found, _, hr⟩ | ⟨hr, _⟩
      · exact hl.frame hr
      · exact hl.frame hr
    · intro location value hops s found s' h
      rcases runs_loadPlaced h with ⟨_, heq, _⟩ | ⟨hr, _⟩
      · cases heq
      · exact hl.calm hr
    · intro location value hops context s s' hc h
      rcases runs_loadPlaced h with ⟨_, heq, _⟩ | ⟨hr, _⟩
      · cases heq
      · exact hl.refusal hc hr
    · intro location value hops context s r s' hc h hnone hend
      rcases runs_loadPlaced h with ⟨_, rfl, _⟩ | ⟨hr, _⟩
      · exact absurd rfl hend
      · exact hl.accepts hc hr hnone hend
    · intro location value hops s t s' h
      rcases runs_loadPlaced h with ⟨_, heq, _⟩ | ⟨_, hplace⟩
      · cases heq
      · exact hplace t rfl

end Loading

/-! ## Documents whose places keep their URIs to themselves -/

namespace Load

/-- The URI of the place of an object that is met is used for nothing else. -/
structure Apart (l : Load) : Prop where
  /-- No object of another place is known under it. -/
  answers : ∀ {p q members object}, l.Meets p → l.Meets q → p.members? = some members →
    q.value = .object object → p.answers q.location.pointerUri →
    p.location.place = q.location.place
  /-- No reference to it leads to another place. -/
  follows : ∀ {p q r object}, l.Meets p → l.Meets q → q.value = .object object →
    p.refers? = some q.location.pointerUri →
    l.library.target? p.context q.location.pointerUri = some r →
    r.location.place = q.location.place

end Load

/-- The ledger in which only its own node is entered under the URI of the place of an object. -/
def Ledger.inPlace (l : Load) : Ledger where
  gives p t := p.Places t
  enters uri t := ∀ q object, l.Meets q → q.value = .object object →
    q.location.pointerUri = uri → q.Places t

namespace Load

open Loading LoadM Session

variable {l : Load} {start p : Position} {s : Session}

theorem Apart.lawful (h : l.Apart) (hstart : l.start? = some start) :
    (Ledger.inPlace l).Lawful l.library start where
  made hplaces := hplaces
  known hp hv henters := henters _ _ ⟨start, hstart, hp⟩ hv rfl
  answers := by
    intro p members uri t hp hm ha ht q object hq hv huri
    subst huri
    exact ht.trans (h.answers ⟨start, hstart, hp⟩ hq hm hv ha)
  follows := by
    intro p r uri t hp hu hr ht q object hq hv huri
    subst huri
    exact Eq.trans ht (h.follows ⟨start, hstart, hp⟩ hq hv hu hr)

/-- Where a load arrives with the ledger kept, no node of another place is entered. -/
theorem not_misplaces (hstart : l.start? = some start) {first : Nat}
    (h : Arrives l.library start (Ledger.inPlace l) first p s) :
    s.misplaces p.location p.value = false := by
  unfold misplaces
  split
  · rename_i object t _ hv hb
    have henters := (h.kept.built _ (Entries.mem_of_get? hb)).2
    have hplaces : t.location.place = p.location.place :=
      henters p object ⟨start, hstart, h.meets object hv⟩ hv rfl
    simpa using hplaces
  · rfl

/-- Every call is answered with a node of the place that it was made for: to stop at any other
answer changes nothing. -/
def Placed (l : Load) : Prop := l.runBy loadPlaced = l.run

/-- No call finds the node of another place under the URI of its own: to stop there changes
nothing. -/
def Unmixed (l : Load) : Prop := l.runBy loadUnmixed = l.run

/-- Where the URIs of places are kept apart, the load never finds the node of another place. -/
theorem Apart.unmixed (h : l.Apart) : l.Unmixed :=
  runBy_eq h.lawful rfl fun hstart _ _ _ _ harrives =>
    coincide_loadUnmixed (not_misplaces hstart harrives) (.refl _ _)

theorem Apart.placed (h : l.Apart) : l.Placed :=
  (congrArg l.runBy (funext loadPlaced_eq_loadUnmixed)).trans h.unmixed

/-- A document without identifiers whose references stay in it keeps the URIs of its places
apart. -/
theorem IsLocal.apart (h : l.IsLocal) : l.Apart := by
  have hplace : ∀ {p q : Position} {path path' : List String}, l.Places p path →
      l.Places q path' → q.location.pointerUri.place? = some path →
      p.location.place = q.location.place := by
    intro p q path path' hp hq hpath
    rw [hq.location] at hpath ⊢
    cases Option.some.inj ((Uri.place?_withPath _ _).symm.trans hpath)
    rw [hp.location]
    rfl
  constructor
  · intro p q members object hp hq hm hv ha
    obtain ⟨path, hpath⟩ := h.places hp
    obtain ⟨path', hpath'⟩ := h.places hq
    exact hplace hpath hpath' (h.place?_of_answers hpath ha)
  · intro p q r object hp hq hv hu hr
    obtain ⟨path, hpath⟩ := h.places hp
    obtain ⟨path', hpath'⟩ := h.places hq
    obtain ⟨target, htarget, hr⟩ :=
      h.target?_at hpath (fun written => h.fragment p written hp) hu hr
    exact hplace hr hpath' htarget

end Load

open Load

/-- A load answers every call with a node of its own place exactly if it never finds the node
of another place under the URI of a place; and it does so if the URIs of places are kept
apart. -/
theorem placed_iff_unmixed {request : Request} {policy : Policy} {w : Workspace} {l : Load}
    (hl : request.load? policy w = some l) :
    l.run.1 ≠ .error .exhausted ∧ (l.Placed ↔ l.Unmixed) ∧ (l.Apart → l.Placed) := by
  have heq : l.runBy Loading.loadPlaced = l.runBy Loading.loadUnmixed :=
    congrArg l.runBy (funext Loading.loadPlaced_eq_loadUnmixed)
  refine ⟨(Request.begins_of_load? hl).ne_exhausted, ?_, ?_⟩
  · rw [Placed, Unmixed, heq]
  · intro h
    rw [Placed, heq]
    exact h.unmixed

theorem linked_placed : ∃ l, Request.linked.load? .standard .empty = some l ∧ l.Apart ∧
    l.Placed ∧ l.Unmixed := by
  have hloads : Request.linked.loadsPlain .standard .empty = true := by
    decide +kernel
  obtain ⟨l, hl, hplain, hfragments⟩ := Request.isPlain_of_loadsPlain hloads
  have hapart : l.Apart := (hplain.isLocal hfragments).apart
  obtain ⟨_, hiff, hplaced⟩ := placed_iff_unmixed hl
  exact ⟨l, hl, hapart, hplaced hapart, hiff.mp (hplaced hapart)⟩

/-- A schema whose identifier is the URI of the schema beside it. -/
def Request.borrowed : Request :=
  .named ⟨"http", some "e.com", .segments ["r.json"], none, none⟩
    (.object [
      ("definitions", .object [
        ("a", .object [("$id", .string "#/definitions/b")]),
        ("b", .object [("type", .string "string")])])])

/-- Its node is given for the schema beside it too. -/
theorem borrowed_misplaced : ∃ l s w',
    Request.borrowed.load? .standard .empty = some l ∧
      Request.borrowed.run .standard .empty = (.ok s, w') ∧ ¬ l.Placed ∧
      ∃ t, (.definitions, some "b", t) ∈ s.children ∧
        t.location.path.segments = ["definitions", "a"] := by
  have hcheck : (Request.borrowed.run .standard .empty).1.toOption.any (fun s =>
      s.children.any fun entry => entry.1 = .definitions && entry.2.1 = some "b" &&
        entry.2.2.location.path.segments = ["definitions", "a"]) = true := by
    decide +kernel
  have hstops : (Request.borrowed.load? .standard .empty).any (fun l =>
      l.run.1.isOk && !(l.runBy Loading.loadPlaced).1.isOk) = true := by
    decide +kernel
  obtain ⟨l, hl, hstopped⟩ := Request.exists_of_any_load? hstops
  obtain ⟨s, w', hr, hs⟩ := Request.exists_of_any_run hcheck
  obtain ⟨⟨kind, name, t⟩, ht, hnamed⟩ := List.any_eq_true.mp hs
  simp only [Bool.and_eq_true, decide_eq_true_eq] at hnamed
  obtain ⟨⟨rfl, rfl⟩, hpath⟩ := hnamed
  refine ⟨l, s, w', hl, hr, fun hplaced => ?_, t, ht, hpath⟩
  rw [hplaced] at hstopped
  simp at hstopped

end SchemaAtlas
