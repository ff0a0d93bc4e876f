import SchemaAtlas.Proofs.Loading.Frame

/-!
# Balanced sessions

The functions that read nodes call each other, and each of them marks in the session what it
is about to do and takes its marks back when the calls inside it are over. A relation between
sessions that the single changes respect (`Carried`) therefore holds between the sessions
before and after every call, however it ends (`after_of_carried`). One such relation is that the
marks are as they were and that what was known stays known (`Balanced`).
-/

namespace SchemaAtlas

namespace Session

/-- A relation between an earlier and a later session that every change respects which a load
makes: the single ones, and the pairs of which the second undoes the first. -/
structure Carried (R : Session → Session → Prop) : Prop where
  refl : ∀ s, R s s
  trans : ∀ {s s₁ s₂}, R s s₁ → R s₁ s₂ → R s s₂
  record : ∀ (s : Session) (severity : Severity) (kind : IssueKind) (document : Uri)
    (path : Pointer) (message : String), R s (s.record severity kind document path message)
  add : ∀ (s : Session) (location : Location) (draft : Draft) (body : Body Schema),
    R s { s with store := (s.store.add location draft body).2 }
  opens : ∀ {uri s document s'}, Opens uri s document s' → R s s'
  finish : ∀ (s : Session) (schema : Schema) (uris : List Uri), R s (s.finish schema uris)
  pop : ∀ {document s s'}, R (s.push document) s' → R s s'.pop
  endResolving : ∀ {uri s s'}, R (s.beginResolving uri) s' → R s (s'.endResolving uri)
  release : ∀ {uris s s'}, R (s.enter uris) s' → R s (s'.release s.store.nodes.size uris)
  complete : ∀ (s : Session) (schema : Schema), R s { s with store := s.store.complete schema }

variable {R : Session → Session → Prop}

theorem Carried.leave (hR : Carried R) {s s' : Session} {uris : List Uri} {schema : Schema}
    (hid : schema.id = s.store.nodes.size) (h : R (s.enter uris) s') :
    R s (s'.leave schema uris) := by
  have hreleased : R s (s'.release schema.id uris) := by
    rw [hid]
    exact hR.release h
  exact hR.trans (hR.trans hreleased (hR.complete _ schema)) (hR.finish _ schema uris)

end Session

namespace Loading

open LoadM Session

/-- A call of one of the functions that read nodes. -/
inductive Call where
  | node (location : Location) (value : Json) (hops : Nat)
  | reference (draft : Draft) (location : Location) (written : String) (hops : Nat)
  | resolve (location : Location) (written : String) (uri : Uri) (hops : Nat)
  | chase (location : Location) (uri : Uri) (hops : Nat)
  | target (document : OpenDocument) (uri : Uri) (hops : Nat)

/-- The session after a call, whatever the call comes to. -/
def Call.after (load : NodeLoader) (s : Session) : Call → Session
  | node location value hops => ((load location value hops).run.run s).2
  | reference draft location written hops =>
    ((loadReference load draft location written hops).run.run s).2
  | resolve location written uri hops =>
    ((Loading.resolve load location written uri hops).run.run s).2
  | chase location uri hops => ((Loading.chase load location uri hops).run.run s).2
  | target document uri hops => ((buildTarget load document uri hops).run.run s).2

/-! ## One step -/

/-- The sessions before and after each call of a loader are related. -/
def Keeps (R : Session → Session → Prop) (load : NodeLoader) : Prop :=
  ∀ {location value hops s r s'}, Runs (load location value hops) s r s' → R s s'

variable {R : Session → Session → Prop} {load : NodeLoader} {uri : Uri} {hops : Nat}
variable {s s' : Session}

theorem Keeps.visits (hl : Keeps R load) (hR : Carried R) {draft : Draft}
    {asked : Location → Json → Prop} {nodes : List Schema}
    (h : Digest.Visits (nestedLoad load) draft asked s nodes s') : R s s' := by
  induction h with
  | start => exact hR.refl _
  | issue severity kind location message _ _ ih => exact hR.trans ih (hR.record ..)
  | boolean _ _ ih => exact hR.trans ih (hR.add ..)
  | load _ _ hr ih => exact hR.trans ih (hl hr)

theorem Keeps.keywords (hl : Keeps R load) (hR : Carried R) {context : OpenDocument}
    {inner : Location} {object : List (String × Json)} {r : Except Stop Builder}
    (h : Runs (keywordsRun load context inner object) s r s') : R s s' := by
  have hg := keywordsRun_gathers load context inner object
  cases r with
  | ok builder =>
    obtain ⟨_, hv, _⟩ := hg.ok h
    exact hl.visits hR hv
  | error e =>
    obtain ⟨_, _, _, _, hv, _, hr⟩ := hg.error h
    exact hR.trans (hl.visits hR hv) (hl hr)

theorem Keeps.searches (hl : Keeps R load) (hR : Carried R) {documents : List OpenDocument}
    (h : Searches load uri hops s documents s') : R s s' := by
  induction h with
  | start => exact hR.refl _
  | absent _ _ ih => exact ih
  | refused _ _ hr ih => exact hR.trans ih (hR.pop (hl hr))
  | opened _ ho ih => exact hR.trans ih (hR.opens ho)

theorem Keeps.target (hl : Keeps R load) (hR : Carried R) {documents : List OpenDocument}
    {r : Except Stop (Option Schema)} (h : TryRun load uri hops documents s r s') : R s s' := by
  cases h with
  | vain hs => exact hl.searches hR hs
  | found _ hs _ hr _ => exact hR.trans (hl.searches hR hs) (hR.pop (hl hr))

theorem Keeps.chase (hl : Keeps R load) (hR : Carried R) {origin : Location}
    {r : Except Stop Schema} (h : ChaseRun load origin uri hops s r s') : R s s' := by
  cases h with
  | reached _ _ hs _ hr => exact hR.trans (hl.searches hR hs) (hR.pop (hl hr))
  | ends _ _ hs _ hr => exact hR.trans (hl.searches hR hs) (hR.pop (hl hr))
  | lost _ hs _ => exact hR.trans (hl.searches hR hs) (hR.record ..)

theorem Keeps.resolve (hl : Keeps R load) (hR : Carried R) {location : Location}
    {written : String} {r : Except Stop Reference}
    (h : ResolveRun load location written uri hops s r s') : R s s' := by
  cases h with
  | known => exact hR.refl s
  | reading => exact hR.refl s
  | tooFar => exact hR.record ..
  | cycle => exact hR.record ..
  | chased _ _ hc => exact hR.trans (hR.endResolving (hl.chase hR hc)) (hR.finish ..)
  | ends _ _ hc => exact hR.endResolving (hl.chase hR hc)

theorem Keeps.reference (hl : Keeps R load) (hR : Carried R) {draft : Draft}
    {location : Location} {written : String} {r : Except Stop Schema}
    (h : ReferenceRun load draft location written hops s r s') : R s s' := by
  cases h with
  | malformed => exact hR.record ..
  | refers _ hr => exact hR.trans (hl.resolve hR hr) (hR.add ..)
  | ends _ hr => exact hl.resolve hR hr

theorem Keeps.object (hl : Keeps R load) (hR : Carried R) {context : OpenDocument}
    {location : Location} {object : List (String × Json)} {r : Except Stop Schema}
    (h : ObjectRun load context location object s r s') : R s s' := by
  have identified : ∀ {inner declared s₁},
      Identified context.active.idKeys location object s inner declared s₁ → R s s₁ := by
    intro inner declared s₁ hid
    cases hid with
    | anonymous => exact hR.refl s
    | declared => exact hR.refl s
    | repeated => exact hR.record ..
    | broken => exact hR.record ..
  cases h with
  | finished hid hm => exact hR.trans (identified hid) (hR.leave rfl (hl.keywords hR hm))
  | ends hid hm => exact hR.trans (identified hid) (hR.release (hl.keywords hR hm))

theorem keeps_loadWith (hl : Keeps R load) (hR : Carried R) : Keeps R (loadWith load) := by
  intro location value hops s r s' h
  cases nodeRun_of_runs h with
  | outside => exact hR.refl s
  | known => exact hR.refl s
  | badReference => exact hR.record ..
  | reference _ _ _ _ hr => exact hl.reference hR hr
  | referenceEnds _ _ _ _ hr => exact hl.reference hR hr
  | object _ _ _ _ hr => exact hl.object hR hr
  | objectEnds _ _ _ _ hr => exact hl.object hR hr
  | boolean => exact hR.add ..
  | refused => exact hR.record ..

/-! ## Every call -/

theorem keeps_loadNode (hR : Carried R) (steps : Nat) : Keeps R (loadNode steps) := by
  induction steps with
  | zero =>
    intro location value hops s r s' h
    obtain ⟨_, rfl⟩ := runs_throw.mp h
    exact hR.refl _
  | succ steps ih => exact keeps_loadWith ih hR

/-- A relation that the single changes respect holds across every call. -/
theorem after_of_carried (hR : Carried R) (steps : Nat) (s : Session) (call : Call) :
    R s (call.after (loadNode steps) s) := by
  have hl : Keeps R (loadNode steps) := keeps_loadNode hR steps
  cases call with
  | node location value hops =>
    have h : Runs (loadNode steps location value hops) s _ _ := rfl
    exact hl h
  | reference draft location written hops =>
    have h : Runs (loadReference (loadNode steps) draft location written hops) s _ _ := rfl
    exact hl.reference hR (referenceRun_of_runs h)
  | resolve location written uri hops =>
    have h : Runs (Loading.resolve (loadNode steps) location written uri hops) s _ _ := rfl
    exact hl.resolve hR (resolveRun_of_runs h)
  | chase location uri hops =>
    have h : Runs (Loading.chase (loadNode steps) location uri hops) s _ _ := rfl
    exact hl.chase hR (chaseRun_of_runs h)
  | target document uri hops =>
    have h : Runs (buildTarget (loadNode steps) document uri hops) s _ _ := rfl
    exact hl.target hR (tryRun_of_buildTarget h)

end Loading

/-! ## What is kept -/

namespace Session

/-- The numbers of the nodes being read have been given out, so a new node has none of them. -/
def Slotted (s : Session) : Prop :=
  ∀ entry ∈ s.inProgress, entry.2 < s.store.nodes.size

instance (s : Session) : Decidable s.Slotted :=
  inferInstanceAs (Decidable (∀ entry ∈ s.inProgress, entry.2 < s.store.nodes.size))

/-- The marks that the functions leave in a session are the same in a later one, what was
opened and built is there under its URIs, and issues were only added. -/
structure Balanced (s s' : Session) : Prop where
  stack : s'.stack = s.stack
  inProgress : s'.inProgress = s.inProgress
  resolving : s'.resolving = s.resolving
  opened : ∀ {uri document}, Entries.get? uri s.opened = some document →
    Entries.get? uri s'.opened = some document
  built : ∀ {uri schema}, Entries.get? uri s.built = some schema →
    Entries.get? uri s'.built = some schema
  report : s.report.issues <+: s'.report.issues
  numbers : s.store.nodes.size ≤ s'.store.nodes.size

variable {s s₁ s₂ s' : Session}

theorem Balanced.refl (s : Session) : Balanced s s :=
  ⟨rfl, rfl, rfl, id, id, List.prefix_refl _, Nat.le_refl _⟩

theorem Balanced.trans (h : Balanced s s₁) (h' : Balanced s₁ s₂) : Balanced s s₂ where
  stack := h'.stack.trans h.stack
  inProgress := h'.inProgress.trans h.inProgress
  resolving := h'.resolving.trans h.resolving
  opened := fun ho => h'.opened (h.opened ho)
  built := fun hb => h'.built (h.built hb)
  report := h.report.trans h'.report
  numbers := Nat.le_trans h.numbers h'.numbers

theorem Balanced.slotted (h : Balanced s s') (hs : s.Slotted) : s'.Slotted := by
  intro entry he
  rw [h.inProgress] at he
  exact Nat.lt_of_lt_of_le (hs entry he) h.numbers

theorem balanced_openDocument (s : Session) (uri : Uri) (value : Json) :
    Balanced s (s.openDocument uri value).2 := by
  cases ho : Entries.get? uri s.opened with
  | some found =>
    simp only [openDocument, ho]
    exact .refl s
  | none =>
    have hopened : ∀ {other document found}, Entries.get? other s.opened = some document →
        Entries.get? other (Entries.put uri found s.opened) = some document := by
      intro other document found hother
      have hne : other ≠ uri := by
        rintro rfl
        rw [ho] at hother
        cases hother
      rw [Entries.get?_put, if_neg hne, hother]
    simp only [openDocument, ho]
    split
    · exact ⟨rfl, rfl, rfl, hopened, id, List.prefix_append _ _, Nat.le_refl _⟩
    · exact ⟨rfl, rfl, rfl, hopened, id, List.prefix_refl _, Nat.le_refl _⟩

theorem Opens.balanced {uri : Uri} {document : OpenDocument} (h : Opens uri s document s') :
    Balanced s s' := by
  cases h with
  | again => exact .refl s
  | loaded => exact balanced_openDocument s uri _
  | @fetched value documents =>
    have hfetched : Balanced s { s with documents } :=
      ⟨rfl, rfl, rfl, id, id, List.prefix_refl _, Nat.le_refl _⟩
    exact hfetched.trans (balanced_openDocument { s with documents } uri value)

theorem Slotted.enter (h : s.Slotted) (uris : List Uri) : (s.enter uris).Slotted := by
  obtain ⟨front, heq, _, hfront⟩ :=
    register_eq s.store.nodes.size uris { s with store := s.store.reserve.2 }
  intro entry he
  rw [Session.enter, heq] at he
  change entry.2 < s.store.reserve.2.nodes.size
  rw [Store.size_reserve]
  rcases List.mem_append.mp he with he | he
  · rw [(hfront entry he).2]
    exact Nat.lt_succ_self _
  · exact Nat.lt_succ_of_lt (h entry he)

/-- The registrations of a node are those under the number that it was given, so taking them
back restores the URIs at which an outer node is being read. -/
theorem Balanced.release {uris : List Uri} (hs : s.Slotted) (h : Balanced (s.enter uris) s') :
    Balanced s (s'.release s.store.nodes.size uris) where
  stack := h.stack
  inProgress := by
    refine release_register (s := { s with store := s.store.reserve.2 }) ?_ h.inProgress
    exact fun entry he => Nat.ne_of_lt (hs entry he)
  resolving := h.resolving
  opened := h.opened
  built := h.built
  report := h.report
  numbers := Nat.le_trans (Store.grows_reserve s.store).size h.numbers

/-- Between sessions whose numbers have been given out, every change is balanced. -/
theorem carried_balanced : Carried fun s s' => s.Slotted → Balanced s s' where
  refl := fun s _ => .refl s
  trans := fun h h' hs => (h hs).trans (h' ((h hs).slotted hs))
  record := fun _ _ _ _ _ _ _ =>
    ⟨rfl, rfl, rfl, id, id, List.prefix_append _ _, Nat.le_refl _⟩
  add := fun s location draft body _ =>
    ⟨rfl, rfl, rfl, id, id, List.prefix_refl _, (s.store.grows_add location draft body).size⟩
  opens := fun h _ => h.balanced
  finish := fun _ _ _ _ =>
    ⟨rfl, rfl, rfl, id, get?_finish_of_some, List.prefix_refl _, Nat.le_refl _⟩
  pop := fun h hs => { h hs with stack := by rw [Session.pop, (h hs).stack]; rfl }
  endResolving := fun h hs =>
    { h hs with
      resolving := by
        rw [Session.endResolving, (h hs).resolving]
        exact List.erase_cons_head _ _ }
  release := fun h hs => (h (hs.enter _)).release hs
  complete := fun s schema _ =>
    ⟨rfl, rfl, rfl, id, id, List.prefix_refl _, Nat.le_of_eq (s.store.size_complete schema).symm⟩

/-- Every call of the functions that read nodes is balanced, whether it gives a node or
nothing or ends the load, and the numbers of the nodes being read stay given out. -/
theorem balanced_after (steps : Nat) {s : Session} (hs : s.Slotted) (call : Loading.Call) :
    Balanced s (call.after (Loading.loadNode steps) s) ∧
      (call.after (Loading.loadNode steps) s).Slotted := by
  have h := Loading.after_of_carried carried_balanced steps s call hs
  exact ⟨h, h.slotted hs⟩

/-- A document whose inner schema refers to what it lacks. -/
def lacking : OpenDocument where
  uri := ⟨"http", some "e.com", .segments ["r.json"], none, none⟩
  document := .object [("not", .object [("$ref", .string "#/missing")])]
  draft := .draft7
  active := .only .draft7

/-- The document is being read, and its root is marked as a node. -/
def insideLacking : Session where
  policy := .standard
  cache := .empty
  documents := Documents.empty.register lacking.uri lacking.document
  store := Store.empty.reserve.2
  report := .empty
  stack := [lacking]
  opened := [(lacking.uri, lacking)]
  inProgress := [(lacking.uri, 0)]
  resolving := [lacking.uri]
  built := []

/-- Reading the root again ends with a fatal issue inside a node whose URI belongs to the
outer one; the marks of the outer one are still there. -/
theorem balanced_after_lacking : insideLacking.Slotted ∧
    (Loading.Call.after (Loading.loadNode 2) insideLacking
      (.node (.ofDocument lacking.uri) lacking.document 0)).report.issues.map (·.kind) =
        [.unresolvedReference] ∧
    Balanced insideLacking (Loading.Call.after (Loading.loadNode 2) insideLacking
      (.node (.ofDocument lacking.uri) lacking.document 0)) := by
  have hs : insideLacking.Slotted := by decide
  exact ⟨hs, by decide +kernel, (balanced_after 2 hs _).1⟩

end Session
end SchemaAtlas
