import SchemaAtlas.Proofs.Graph.Targets

/-!
# Reported cycles

A load reports a cycle when it comes to a reference to a URI that it is following already.
Where it passed references only, these are a loop without a schema in it. But the URIs are
followed until the node at the end of the chain is finished, and the references below this
node count as well; one that names the node by the first of the URIs is then reported,
although the chain did reach a schema. `verdict_of_cycle` says that a reported reference is
of exactly one of the two kinds.
-/

namespace SchemaAtlas

open Relation

/-! ## Loops and detours -/

namespace Library

/-- One step along references. -/
def Follows (lib : Library) (p q : Position) : Prop :=
  ∃ uri, p.refers? = some uri ∧ lib.target? p.context uri = some q

/-- A move from a position that does not refer to a URI and is not known under it. -/
structure Passes (lib : Library) (uri : Uri) (p q : Position) : Prop where
  leads : lib.Leads p q
  refers : p.refers? ≠ some uri
  unknown : p.members? ≠ none → ¬ p.answers uri

/-- Following a reference again and again meets references only, and comes to one to the
same URI. -/
def Loops (lib : Library) (a : Position) : Prop :=
  ∃ uri target b, a.refers? = some uri ∧ lib.target? a.context uri = some target ∧
    ReflTransGen lib.Follows target b ∧ b.refers? = some uri

/-- Following a reference again and again comes to an object, and reading it to a reference
to the same URI, which no object on the way is known under. -/
def Detours (lib : Library) (a : Position) : Prop :=
  ∃ uri target object b, a.refers? = some uri ∧ lib.target? a.context uri = some target ∧
    ReflTransGen (fun p q => lib.Follows p q ∧ p.refers? ≠ some uri) target object ∧
    object.members? ≠ none ∧ ReflTransGen (lib.Passes uri) object b ∧ b.refers? = some uri

variable {lib : Library} {a p q b target object : Position} {uri : Uri}

theorem refers?_of_members? (h : p.members? ≠ none) : p.refers? = none := by
  have hwritten : p.written? = none := by
    unfold Position.members? at h
    unfold Position.written?
    split at h
    · rename_i members hv
      split at h
      · exact absurd rfl h
      · rename_i hcontains
        have hnone : Entries.get? "$ref" members = none := by
          simpa [Entries.contains] using hcontains
        rw [hv, Json.member?, hnone, Option.bind_none]
    · exact absurd rfl h
  rw [Position.refers?, hwritten, Option.bind_none]

theorem Follows.unique {q' : Position} (h : lib.Follows p q) (h' : lib.Follows p q') :
    q = q' := by
  obtain ⟨uri, hu, hq⟩ := h
  obtain ⟨uri', hu', hq'⟩ := h'
  cases Option.some.inj (hu.symm.trans hu')
  exact Option.some.inj (hq.symm.trans hq')

/-- Moves past a URI follow references to the end, or up to an object. -/
theorem follows_or_object (h : ReflTransGen (lib.Passes uri) p b) :
    ReflTransGen lib.Follows p b ∨ ∃ object,
      ReflTransGen (fun p q => lib.Follows p q ∧ p.refers? ≠ some uri) p object ∧
        object.members? ≠ none ∧ ReflTransGen (lib.Passes uri) object b := by
  induction h using ReflTransGen.head_induction_on with
  | refl => exact Or.inl .refl
  | @head p q hstep hrest ih =>
    cases hstep.leads with
    | nested hm => exact Or.inr ⟨p, .refl, by simp [hm], .head hstep hrest⟩
    | follows hu hq =>
      have hfollows : lib.Follows p q := ⟨_, hu, hq⟩
      rcases ih with hloop | ⟨object, hchain, hobject, hbelow⟩
      · exact Or.inl (.head hfollows hloop)
      · exact Or.inr ⟨object, .head ⟨hfollows, hstep.refers⟩ hchain, hobject, hbelow⟩

/-- A chain that comes to an object comes to no reference to the URI. -/
theorem not_follows_of_object
    (h : ReflTransGen (fun p q => lib.Follows p q ∧ p.refers? ≠ some uri) p object)
    (hobject : object.members? ≠ none) (hb : b.refers? = some uri) :
    ¬ ReflTransGen lib.Follows p b := by
  induction h using ReflTransGen.head_induction_on with
  | refl =>
    intro hloop
    have hnone := refers?_of_members? hobject
    rcases hloop.cases_head with rfl | ⟨q, ⟨uri', hu, _⟩, _⟩
    · rw [hnone] at hb
      cases hb
    · rw [hnone] at hu
      cases hu
  | head hstep _ ih =>
    intro hloop
    rcases hloop.cases_head with rfl | ⟨q, hnext, hloop⟩
    · exact hstep.2 hb
    · rw [hnext.unique hstep.1] at hloop
      exact ih hloop

/-- A reference that leads to another one to its URI loops or makes a detour, not both. -/
theorem loops_iff_of_passes (ha : a.refers? = some uri)
    (ht : lib.target? a.context uri = some target)
    (h : ReflTransGen (lib.Passes uri) target b) (hb : b.refers? = some uri) :
    lib.Loops a ↔ ¬ lib.Detours a := by
  constructor
  · rintro ⟨uri₁, target₁, b₁, ha₁, ht₁, hloop, hb₁⟩
    rintro ⟨uri₂, target₂, object, b₂, ha₂, ht₂, hchain, hobject, _, _⟩
    cases Option.some.inj (ha.symm.trans ha₁)
    cases Option.some.inj (ha.symm.trans ha₂)
    cases Option.some.inj (ht.symm.trans ht₁)
    cases Option.some.inj (ht.symm.trans ht₂)
    exact not_follows_of_object hchain hobject hb₁ hloop
  · intro hdetours
    rcases follows_or_object h with hloop | ⟨object, hchain, hobject, hbelow⟩
    · exact ⟨uri, target, b, ha, ht, hloop, hb⟩
    · exact absurd ⟨uri, target, object, b, ha, ht, hchain, hobject, hbelow, hb⟩ hdetours

/-- An issue about a reference that loops or makes a detour. -/
def Judged (lib : Library) (start : Position) (issue : Issue) : Prop :=
  ∃ a uri, lib.Meets start a ∧ a.refers? = some uri ∧
    issue.message = s!"reference chain through {uri} never reaches a schema" ∧
    (lib.Loops a ↔ ¬ lib.Detours a)

end Library

/-! ## Sessions -/

namespace Session

/-- A session that reads a position, to which all references being followed led it past
nothing that is known under their URIs, but for those URIs at which a node is known now. -/
structure Trails (lib : Library) (start p : Position) (s : Session) : Prop where
  inside : s.Inside lib p.context
  numbered : s.Numbered
  met : lib.Meets start p
  trail : ∀ uri ∈ s.resolving, s.knows uri = true ∨ ∃ a target, lib.Meets start a ∧
    a.refers? = some uri ∧ lib.target? a.context uri = some target ∧
    ReflTransGen (lib.Passes uri) target p

variable {lib : Library} {start p q : Position} {s s' : Session} {uri : Uri}

theorem Frame.knows (h : Frame s s') (hn : s.Numbered) (hk : s.knows uri = true) :
    s'.knows uri = true := by
  rw [Session.knows, Bool.or_eq_true] at hk ⊢
  rcases hk with hk | hk
  · left
    rw [h.inProgress hn]
    exact hk
  · right
    obtain ⟨schema, hb⟩ := Option.isSome_iff_exists.mp hk
    exact Option.isSome_iff_exists.mpr ⟨schema, h.built hb⟩

theorem knows_enter_of_mem {uris : List Uri} (h : uri ∈ uris) :
    (s.enter uris).knows uri = true := by
  rw [Session.knows, Bool.or_eq_true]
  exact Or.inl (Entries.contains_putNew _ (Or.inl h))

theorem knows_enter (uris : List Uri) (h : s.knows uri = true) :
    (s.enter uris).knows uri = true := by
  rw [Session.knows, Bool.or_eq_true] at h ⊢
  exact h.imp_left fun h => Entries.contains_putNew _ (Or.inr h)

/-- Following a reference goes on from it, to a target of its own. -/
theorem Trails.follow (h : s.Trails lib start p) (hu : p.refers? = some uri)
    (hnew : uri ∉ s.resolving) (hq : lib.target? p.context uri = some q)
    (hf : Frame (s.beginResolving uri) s₁) : (s₁.push q.context).Trails lib start q := by
  have hlead : lib.Leads p q := .follows hu hq
  have hnumbered : (s.beginResolving uri).Numbered := h.numbered
  refine ⟨((h.inside.beginResolving uri).frame hf).push _, hf.numbered hnumbered, h.met.tail hlead, ?_⟩
  intro other hother
  change other ∈ s₁.resolving at hother
  rw [hf.resolving] at hother
  rcases List.mem_cons.mp hother with rfl | hother
  · exact Or.inr ⟨p, q, h.met, hu, hq, .refl⟩
  · rcases h.trail other hother with hk | ⟨a, target, ha, hrefers, htarget, htrail⟩
    · exact Or.inl (hf.knows hnumbered hk)
    · have hne : p.refers? ≠ some other := by
        intro heq
        cases Option.some.inj (hu.symm.trans heq)
        exact hnew hother
      have hpasses : lib.Passes other p q := by
        refine ⟨hlead, hne, ?_⟩
        intro hobject
        rw [Library.refers?_of_members? hobject] at hu
        cases hu
      exact Or.inr ⟨a, target, ha, hrefers, htarget, htrail.tail hpasses⟩

theorem Calm.cycle (h : Calm s s') {issue : Issue} (hi : issue ∈ s'.report.issues)
    (hk : issue.kind = .referenceCycle) : issue ∈ s.report.issues := by
  rcases h issue hi with hi | hcalm
  · exact hi
  · rw [hk] at hcalm
    cases hcalm

theorem cycle_of_record {severity : Severity} {kind : IssueKind} {document : Uri}
    {path : Pointer} {message : String} {issue : Issue}
    (hi : issue ∈ (s.record severity kind document path message).report.issues)
    (hk : issue.kind = .referenceCycle) :
    issue ∈ s.report.issues ∨ kind = .referenceCycle ∧ issue.message = message := by
  rcases List.mem_append.mp hi with hi | hi
  · exact Or.inl hi
  · cases List.mem_singleton.mp hi
    exact Or.inr ⟨hk, rfl⟩

end Session

/-! ## Loads -/

namespace Loading

open LoadM Session

variable {lib : Library} {start p q : Position} {s s₁ s₂ s' : Session} {uri : Uri}
variable {load : NodeLoader}

/-- All URIs under which an object is known are registered for it, or known before. -/
theorem Identified.mem_or_knows {inner : Location} {object : List (String × Json)}
    {declared : List Uri}
    (h : Identified p.context.active.idKeys p.location object s inner declared s')
    (hv : p.value = .object object) (hu : p.answers uri) :
    uri ∈ p.location.pointerUri :: p.location.uri :: declared ∨ s.knows uri = true := by
  rcases hu with rfl | rfl | ⟨hdeclared, rfl⟩
  · exact Or.inl List.mem_cons_self
  · exact Or.inl (List.mem_cons_of_mem _ List.mem_cons_self)
  · have hinner : inner = p.inner := h.inner_eq hv
    rw [← hinner]
    cases h with
    | anonymous hid =>
      rw [hv, hid] at hdeclared
      exact absurd rfl hdeclared
    | declared => simp
    | repeated _ _ hknown => exact Or.inr hknown
    | broken => simp

/-- Reading the keywords of an object goes on from it, past it or with it known. -/
theorem Identified.trails (h : s.Trails lib start p) {inner : Location}
    {object : List (String × Json)} {declared : List Uri} {place : Location × Json}
    (hm : p.members? = some object) (hv : p.value = .object object)
    (hid : Identified p.context.active.idKeys p.location object s inner declared s₁)
    (hf : Frame (s₁.enter (p.location.pointerUri :: p.location.uri :: declared)) s₂)
    (hp : place ∈ Digest.nested p.context.active p.inner object) :
    s₂.Trails lib start ⟨p.context, place.1, place.2⟩ := by
  have hlead : lib.Leads p ⟨p.context, place.1, place.2⟩ := .nested hm hp
  have hframe := hid.frame.1
  have hnumbered := (hframe.numbered h.numbered).enter
    (p.location.pointerUri :: p.location.uri :: declared)
  have hknows : ∀ {uri}, s.knows uri = true → s₂.knows uri = true := fun hk =>
    hf.knows hnumbered (knows_enter _ (hframe.knows h.numbered hk))
  refine ⟨(hid.inside h.inside _).frame hf, hf.numbered hnumbered, h.met.tail hlead, ?_⟩
  intro uri hu
  have hu' : uri ∈ s.resolving := by
    rw [hf.resolving] at hu
    change uri ∈ s₁.resolving at hu
    rwa [hframe.resolving] at hu
  rcases h.trail uri hu' with hk | ⟨a, target, ha, hrefers, htarget, htrail⟩
  · exact Or.inl (hknows hk)
  · by_cases hanswers : p.answers uri
    · rcases hid.mem_or_knows hv hanswers with hmem | hk
      · exact Or.inl (hf.knows hnumbered (knows_enter_of_mem hmem))
      · exact Or.inl (hknows hk)
    · have hnone : p.refers? = none := Library.refers?_of_members? (by simp [hm])
      have hpasses : lib.Passes uri p ⟨p.context, place.1, place.2⟩ :=
        ⟨hlead, by simp [hnone], fun _ => hanswers⟩
      exact Or.inr ⟨a, target, ha, hrefers, htarget, htrail.tail hpasses⟩

/-- A loader that reports cycles only at references that loop or make a detour. -/
def Judges (lib : Library) (start : Position) (load : NodeLoader) : Prop :=
  ∀ {p : Position} {hops : Nat} {s s' : Session}, s.Trails lib start p →
    Runs (load p.location p.value hops) s (.error .fatal) s' →
    ∀ issue ∈ s'.report.issues, issue.kind = .referenceCycle →
      issue ∈ s.report.issues ∨ lib.Judged start issue

theorem Judges.resolve (hj : Judges lib start load) (hl : Framed load)
    (h : s.Trails lib start p) {written : String} {hops : Nat} (hu : p.refers? = some uri)
    (hr : ResolveRun load p.location written uri hops s (.error .fatal) s') :
    ∀ issue ∈ s'.report.issues, issue.kind = .referenceCycle →
      issue ∈ s.report.issues ∨ lib.Judged start issue := by
  intro issue hi hk
  cases hr with
  | tooFar =>
    rcases cycle_of_record hi hk with hi | ⟨hkind, _⟩
    · exact Or.inl hi
    · cases hkind
  | cycle hunknown _ hmem hmessage =>
    rcases cycle_of_record hi hk with hi | ⟨_, heq⟩
    · exact Or.inl hi
    · right
      rcases h.trail uri hmem with hknown | ⟨a, target, ha, hrefers, htarget, htrail⟩
      · rw [hunknown] at hknown
        cases hknown
      · exact ⟨a, uri, ha, hrefers, heq.trans hmessage,
          Library.loops_iff_of_passes hrefers htarget htrail hu⟩
  | @ends _ s₁ _ hnew hc =>
    change issue ∈ s₁.report.issues at hi
    have hinside := h.inside.beginResolving uri
    cases hc with
    | @ends searched before after document location value _ s₂ s₃ s₄ hs₂ hlist hs₃ hlocate hrun =>
      have htarget : lib.target? p.context uri = some ⟨document, location, value⟩ :=
        hl.target?_eq hinside hs₂ hlist hs₃ hlocate hrun (by simp) (by simp)
      obtain ⟨hframe, hcalm⟩ := hl.searches hs₃
      rcases hj (h.follow hu hnew htarget hframe) hrun issue hi hk with hi | hjudged
      · exact Or.inl (hcalm.cycle hi hk)
      · exact Or.inr hjudged
    | lost _ hs₃ hkind =>
      rcases cycle_of_record hi hk with hi | ⟨heq, _⟩
      · exact Or.inl ((hl.searches hs₃).2.cycle hi hk)
      · rw [heq] at hkind
        rcases hkind with hkind | hkind
        · cases hkind
        · cases hkind

theorem Judges.object (hj : Judges lib start load) (hl : Framed load)
    (h : s.Trails lib start p) {object : List (String × Json)}
    (hm : p.members? = some object) (hv : p.value = .object object)
    (hr : ObjectRun load p.context p.location object s (.error .fatal) s') :
    ∀ issue ∈ s'.report.issues, issue.kind = .referenceCycle →
      issue ∈ s.report.issues ∨ lib.Judged start issue := by
  intro issue hi hk
  cases hr with
  | @ends inner declared _ s₁ s₂ hid hread =>
    change issue ∈ s₂.report.issues at hi
    have hinner : inner = p.inner := hid.inner_eq hv
    subst hinner
    obtain ⟨nodes, s₃, location, value, hvisits, hplace, hrun⟩ :=
      (keywordsRun_gathers load p.context p.inner object).error hread
    obtain ⟨hframe, hcalm⟩ := hl.visits hvisits
    have htrails : s₃.Trails lib start ⟨p.context, location, value⟩ :=
      hid.trails h hm hv hframe hplace
    rcases hj htrails hrun issue hi hk with hi | hjudged
    · exact Or.inl (hid.frame.2.cycle (hcalm.cycle hi hk) hk)
    · exact Or.inr hjudged

theorem judges_loadWith (hj : Judges lib start load) (hl : Framed load) :
    Judges lib start (loadWith load) := by
  intro p hops s s' h hload issue hi hk
  have hcontext : ∀ {context}, s.current? = some context → context = p.context := by
    intro context hc
    rw [h.inside.current?] at hc
    exact (Option.some.inj hc).symm
  cases nodeRun_of_runs hload with
  | badReference =>
    rcases cycle_of_record hi hk with hi | ⟨hkind, _⟩
    · exact Or.inl hi
    · cases hkind
  | @referenceEnds context object written _ _ _ hv _ href hr =>
    cases hr with
    | malformed =>
      rcases cycle_of_record hi hk with hi | ⟨hkind, _⟩
      · exact Or.inl hi
      · cases hkind
    | @ends uri _ _ hresolve hresolved =>
      have hu : p.refers? = some uri := by
        simp [Position.refers?, Position.written?, hv, Json.member?, href, Json.string?,
          hresolve, Except.toOption]
      exact hj.resolve hl h hu hresolved issue hi hk
  | @objectEnds context object _ _ hc hv _ href hr =>
    cases hcontext hc
    have hm : p.members? = some object := by
      simp [Position.members?, hv, Entries.contains, href]
    exact hj.object hl h hm hv hr issue hi hk

theorem judges_loadNode (lib : Library) (start : Position) (steps : Nat) :
    Judges lib start (loadNode steps) := by
  induction steps with
  | zero =>
    intro p hops s s' _ hr
    cases (runs_throw.mp hr).1
  | succ steps ih => exact judges_loadWith ih (framed_loadNode steps)

end Loading

/-- A reference that is reported as a cycle loops, unless it makes a detour. -/
theorem verdict_of_cycle {w w' : Workspace} {policy : Policy} {request : Request} {l : Load}
    {report : Report} {issue : Issue} (hl : request.load? policy w = some l)
    (h : request.run policy w = (.error (.loading report), w')) (hi : issue ∈ report.issues)
    (hk : issue.kind = .referenceCycle) :
    ∃ a uri, l.Meets a ∧ a.refers? = some uri ∧
      issue.message = s!"reference chain through {uri} never reaches a schema" ∧
      (l.library.Loops a ↔ ¬ l.library.Detours a) := by
  have hrun : l.run.1 = .error (.loading report) := by
    rw [Request.run_of_load? hl] at h
    cases hr : l.run.1 with
    | ok result =>
      rw [hr] at h
      cases (Prod.ext_iff.mp h).1
    | error failure =>
      rw [hr] at h
      cases (Prod.ext_iff.mp h).1
      rfl
  obtain ⟨start, outcome, s, hlocate, hruns, hend, hissues⟩ := Load.run_loading hrun
  have hstart : l.start? = some ⟨l.context, start.1, start.2⟩ := by
    rw [Load.start?, hlocate]
    rfl
  have hbefore : issue ∉ l.session.report.issues := by
    intro hmem
    rw [l.session_report issue hmem] at hk
    cases hk
  have hmem : issue ∈ s.report.issues := by
    rcases hissues issue hi with hmem | hkind
    · exact hmem
    · rw [hkind] at hk
      cases hk
  have hframed := Loading.framed_loadNode l.workspace.stepLimit
  cases outcome with
  | ok found => exact absurd ((hframed.calm hruns).cycle hmem hk) hbefore
  | error e =>
    cases e with
    | exhausted => exact absurd rfl hend
    | fatal =>
      have htrails : l.session.Trails l.library ⟨l.context, start.1, start.2⟩
          ⟨l.context, start.1, start.2⟩ := by
        refine ⟨l.inside, ?_, .refl, ?_⟩
        · rw [l.session_eq]
          intro entry he
          cases he
        · rw [l.session_eq]
          intro uri hu
          cases hu
      rcases Loading.judges_loadNode l.library ⟨l.context, start.1, start.2⟩
        l.workspace.stepLimit htrails hruns issue hmem hk with hold | hjudged
      · exact absurd hold hbefore
      · obtain ⟨a, uri, ha, hrefers, hmessage, hverdict⟩ := hjudged
        exact ⟨a, uri, ⟨_, hstart, ha⟩, hrefers, hmessage, hverdict⟩

/-! ## A reference that only makes a detour -/

namespace Load

/-- What a value of the document at `root` refers to. -/
def refersIn? (root : Uri) (value : Json) : Option Uri :=
  ((value.member? "$ref").bind Json.string?).bind fun written =>
    ((root.join written).map Uri.normalized).toOption

/-- A reference to a reference refers to a URI of a higher rank than that one. -/
def descends (root : Uri) (document : Json) (rank : Uri → Nat) (value : Json) : Bool :=
  match refersIn? root value with
  | none => true
  | some uri => ((uri.place?.bind fun path => document.at? path).bind (refersIn? root)).all
      fun next => decide (rank next < rank uri)

variable {l : Load} {p : Position} {path : List String}

theorem Places.refers?_eq (hp : l.Places p path) :
    p.refers? = refersIn? l.documentUri p.value := by
  rw [Position.refers?, hp.location]
  rfl

/-- Where references descend, none of them loops. -/
theorem IsLocal.not_loops (h : l.IsLocal) {rank : Uri → Nat}
    (hrank : l.document.all (descends l.documentUri l.document rank) = true) {a : Position}
    (ha : l.Meets a) : ¬ l.library.Loops a := by
  have hstep : ∀ {p q : Position} {uri next : Uri}, l.Meets p → p.refers? = some uri →
      l.library.target? p.context uri = some q → q.refers? = some next →
      rank next < rank uri := by
    intro p q uri next hp hu hq hnext
    obtain ⟨path, hplaces⟩ := h.places hp
    obtain ⟨target, hplace, htarget⟩ :=
      h.target?_at hplaces (fun written => h.fragment p written hp) hu hq
    have hself := Json.all_self (Lookup.all_at? hrank hplaces.value)
    rw [hplaces.refers?_eq] at hu
    rw [htarget.refers?_eq] at hnext
    simp only [descends, hu, hplace, Option.bind_some, htarget.value, hnext] at hself
    simpa using hself
  rintro ⟨uri, target, b, hu, htarget, hchain, hb⟩
  obtain ⟨start, hstart, hmeets⟩ := id ha
  -- all references of the chain have a lower rank than the one that it began with
  have hbelow : l.Meets b ∧ ∀ next, b.refers? = some next → rank next < rank uri := by
    clear hb
    induction hchain with
    | refl =>
      exact ⟨⟨start, hstart, hmeets.tail (.follows hu htarget)⟩,
        fun next hnext => hstep ha hu htarget hnext⟩
    | tail _ hfollows ih =>
      obtain ⟨⟨start', hstart', hmet⟩, hlower⟩ := ih
      obtain ⟨other, hother, hq⟩ := hfollows
      refine ⟨⟨start', hstart', hmet.tail (.follows hother hq)⟩, ?_⟩
      intro next hnext
      exact Nat.lt_trans (hstep ⟨start', hstart', hmet⟩ hother hq hnext) (hlower other hother)
  exact Nat.lt_irrefl _ (hbelow.2 uri hb)

end Load

/-- A schema that names its definition by an alias, as the definition does. -/
def Request.renamed : Request :=
  .named ⟨"http", some "e.com", .segments ["r.json"], none, none⟩
    (.object [
      ("additionalProperties", .object [("$ref", .string "#/definitions/alias")]),
      ("definitions", .object [
        ("alias", .object [("$ref", .string "#/definitions/q")]),
        ("q", .object [
          ("properties", .object [("x", .object [("$ref", .string "#/definitions/alias")])])])])])

theorem Request.renamed_fails : ∃ l report issue w',
    renamed.load? .standard .empty = some l ∧
      renamed.run .standard .empty = (.error (.loading report), w') ∧
      issue ∈ report.issues ∧ issue.kind = .referenceCycle ∧
      ∀ a, l.Meets a → ¬ l.library.Loops a := by
  have hcheck : (renamed.refusal? .standard .empty).any
      (·.issues.any (·.kind = .referenceCycle)) = true := by
    decide +kernel
  have hloads : renamed.loadsPlain .standard .empty = true := by
    decide +kernel
  obtain ⟨l, hl, hplain, hfragments⟩ := isPlain_of_loadsPlain hloads
  have hlocal := hplain.isLocal hfragments
  have hrank : l.document.all (Load.descends l.documentUri l.document fun uri =>
      if uri.fragment = some "/definitions/alias" then 1 else 0) = true := by
    cases hl
    decide +kernel
  obtain ⟨report, w', hr, hreported⟩ := exists_of_any_refusal? hcheck
  obtain ⟨issue, hi, hk⟩ := List.any_eq_true.mp hreported
  exact ⟨l, report, issue, w', hl, hr, hi, by simpa using hk,
    fun a ha => hlocal.not_loops hrank ha⟩

/-- The reference that is reported makes a detour by the definition. -/
theorem verdict_of_renamed : ∃ l report w' a,
    Request.renamed.load? .standard .empty = some l ∧
      Request.renamed.run .standard .empty = (.error (.loading report), w') ∧
      l.Meets a ∧ l.library.Detours a := by
  obtain ⟨l, report, issue, w', hl, hr, hi, hk, hnone⟩ := Request.renamed_fails
  obtain ⟨a, uri, ha, _, _, hverdict⟩ := verdict_of_cycle hl hr hi hk
  refine ⟨l, report, w', a, hl, hr, ha, ?_⟩
  apply Classical.byContradiction
  intro hdetours
  exact hnone a ha (hverdict.mpr hdetours)

/-- A cycle is reported although no reference loops. -/
theorem cycle_without_loop : ∃ l report w',
    Request.renamed.load? .standard .empty = some l ∧ 3 ≤ Policy.standard.maxHops ∧
      Request.renamed.run .standard .empty = (.error (.loading report), w') ∧
      (∃ issue ∈ report.issues, issue.kind = .referenceCycle) ∧
      ∀ a, l.Meets a → ¬ l.library.Loops a := by
  obtain ⟨l, report, issue, w', hl, hr, hi, hk, hnone⟩ := Request.renamed_fails
  exact ⟨l, report, w', hl, by decide, hr, ⟨issue, hi, hk⟩, hnone⟩

end SchemaAtlas
