import SchemaAtlas.Proofs.Graph.Cycles
import SchemaAtlas.Proofs.History.Following

/-!
# What a load leaves behind

A load that succeeds has put into the cache whatever it came to: all nodes that it knows stand for
positions which can be read, and what their reading looks up is in the cache too. `Covered` says
this of a position, and `surveys_loadNode` that reading keeps it up for all that a session knows.
-/

namespace SchemaAtlas

theorem Entries.contains_putNew_iff {κ α : Type} [DecidableEq κ] {key : κ} {keys : List κ} {value : α}
    {table : List (κ × α)} :
    contains key (keys.foldl (fun table key => putNew key value table) table) = true ↔
      key ∈ keys ∨ contains key table = true := by
  refine ⟨fun h => ?_, contains_putNew value⟩
  induction keys generalizing table with
  | nil => exact Or.inr h
  | cons other rest ih =>
    rcases ih h with hm | hc
    · exact Or.inl (List.mem_cons_of_mem _ hm)
    · rw [contains, get?_putNew] at hc
      split at hc
      · rename_i heq
        exact Or.inl (heq ▸ List.mem_cons_self)
      · exact Or.inr hc

/-! ## Positions -/

/-- A position that can be read, such that a cache has what its reading looks up. -/
structure Position.Covered (c : Cache) (p : Position) : Prop where
  accepted : p.context.accepts p.value = true
  object : p.members? ≠ none → ∀ {uri}, p.answers uri → c.contains uri = true
  reference : p.value.member? "$ref" ≠ none →
    ∃ uri, p.refers? = some uri ∧ c.contains uri = true

theorem Position.Covered.mono {c c' : Cache} {p : Position} (h : p.Covered c)
    (hc : ∀ uri, c.contains uri = true → c'.contains uri = true) : p.Covered c' where
  accepted := h.accepted
  object := fun hm _ ha => hc _ (h.object hm ha)
  reference := fun hr => by
    obtain ⟨uri, hu, hcontains⟩ := h.reference hr
    exact ⟨uri, hu, hc uri hcontains⟩

/-! ## Sessions -/

namespace Session

variable {shelf : Shelf} {policy : Policy} {context : OpenDocument} {c : Cache}
variable {s s' : Session} {uri : Uri}

theorem Frame.finds (h : Frame s s') (hn : s.Numbered) (hf : s.finds uri = true) :
    s'.finds uri = true := by
  rw [Session.finds, Bool.or_eq_true] at hf ⊢
  rw [h.cache]
  exact hf.imp_left (h.knows hn)

/-- What is known in a session is in a cache, and no error has been recorded. -/
structure Banked (c : Cache) (s : Session) : Prop where
  finds : ∀ {uri}, s.finds uri = true → c.contains uri = true
  report : s.report.hasErrors = false

theorem Banked.of_frame (h : s'.Banked c) (hn : s.Numbered) (hf : Frame s s') : s.Banked c where
  finds := fun hs => h.finds (hf.finds hn hs)
  report := hf.hasErrors_eq_false h.report

/-- The URIs under which nodes are known name covered positions. -/
def Mapped (shelf : Shelf) (c : Cache) (s : Session) : Prop :=
  ∀ {uri}, s.knows uri = true → ∃ p, shelf.at? uri = some p ∧ p.Covered c

/-- The nodes that a session knows are those of covered positions, and the positions of the finished
ones have a mark. -/
structure Surveyed (shelf : Shelf) (c : Cache) (marked : Position → Prop) (s : Session) : Prop where
  mapped : s.Mapped shelf c
  marked : ∀ {uri p}, Entries.contains uri s.built = true → shelf.at? uri = some p → marked p

variable {marked : Position → Prop}

namespace Surveyed

/-- Only the tables of a session matter. -/
theorem congr (h : s.Surveyed shelf c marked) (hi : s'.inProgress = s.inProgress)
    (hb : s'.built = s.built) : s'.Surveyed shelf c marked where
  mapped := by
    intro uri hk
    rw [Session.knows, hi, hb] at hk
    exact h.mapped hk
  marked := by
    intro uri p hk
    rw [hb] at hk
    exact h.marked hk

theorem steady (h : s.Surveyed shelf c marked) (hs : Steady s s') : s'.Surveyed shelf c marked :=
  h.congr hs.idle.alike.inProgress hs.idle.alike.built

theorem finish (h : s.Surveyed shelf c marked) (schema : Schema) {uris : List Uri} {p : Position}
    (hu : ∀ uri ∈ uris, shelf.at? uri = some p) (hp : p.Covered c) (hm : marked p) :
    (s.finish schema uris).Surveyed shelf c marked where
  mapped := by
    intro uri hk
    rcases Bool.or_eq_true_iff.mp hk with hk | hk
    · exact h.mapped (Bool.or_eq_true_iff.mpr (Or.inl hk))
    · rcases Entries.contains_putNew_iff.mp hk with hk | hk
      · exact ⟨p, hu uri hk, hp⟩
      · exact h.mapped (Bool.or_eq_true_iff.mpr (Or.inr hk))
  marked := by
    intro uri q hk hq
    rcases Entries.contains_putNew_iff.mp hk with hk | hk
    · cases (hu uri hk).symm.trans hq
      exact hm
    · exact h.marked hk hq

theorem enter (h : s.Surveyed shelf c marked) {uris : List Uri} {p : Position}
    (hu : ∀ uri ∈ uris, shelf.at? uri = some p) (hp : p.Covered c) :
    (s.enter uris).Surveyed shelf c marked where
  mapped := by
    intro uri hk
    rcases Bool.or_eq_true_iff.mp hk with hk | hk
    · rcases Entries.contains_putNew_iff.mp hk with hk | hk
      · exact ⟨p, hu uri hk, hp⟩
      · exact h.mapped (Bool.or_eq_true_iff.mpr (Or.inl hk))
    · exact h.mapped (Bool.or_eq_true_iff.mpr (Or.inr hk))
  marked := h.marked

end Surveyed

/-- What is known while keywords are read is known when the node is finished. -/
theorem Frame.finds_leave {uris : List Uri} {schema : Schema} (h : Frame (s.enter uris) s')
    (hid : schema.id = s.store.nodes.size) (hn : s.Numbered) (hf : s'.finds uri = true) :
    (s'.leave schema uris).finds uri = true := by
  have hback : (s'.leave schema uris).inProgress = s.inProgress := (h.leave hid).inProgress hn
  rcases Bool.or_eq_true_iff.mp hf with hk | hc
  · refine Bool.or_eq_true_iff.mpr (Or.inl (Bool.or_eq_true_iff.mpr ?_))
    rcases Bool.or_eq_true_iff.mp hk with hk | hk
    · rw [h.inProgress (hn.enter uris)] at hk
      rcases Entries.contains_putNew_iff.mp hk with hk | hk
      · exact Or.inr (Entries.contains_putNew_iff.mpr (Or.inl hk))
      · rw [hback]
        exact Or.inl hk
    · exact Or.inr (Entries.contains_putNew_iff.mpr (Or.inr hk))
  · exact Bool.or_eq_true_iff.mpr (Or.inr hc)

end Session

namespace Loading

open LoadM Session

variable {shelf : Shelf} {policy : Policy} {c : Cache} {marked : Position → Prop}
variable {load : NodeLoader} {p : Position} {uri : Uri} {hops : Nat} {s s' : Session}

/-- A mark of positions that all objects have whose keywords were read by some load without an error,
while it came to covered positions only. -/
structure Marks (shelf : Shelf) (policy : Policy) (c : Cache) (marked : Position → Prop) : Prop where
  plain : ∀ {p}, p.members? = none → marked p
  object : ∀ {p members steps s builder s'}, p.members? = some members →
    s.On shelf policy p.context → s.Mapped shelf c →
    Runs (keywordsRun (loadNode steps) p.context p.inner members) s (.ok builder) s' →
    s'.Banked c → marked p

/-- A loader that comes to covered positions only. -/
def Surveys (shelf : Shelf) (policy : Policy) (c : Cache) (marked : Position → Prop)
    (load : NodeLoader) : Prop :=
  ∀ {p hops s found s'}, shelf.Holds p → s.On shelf policy p.context →
    s.Surveyed shelf c marked → Runs (load p.location p.value hops) s (.ok found) s' →
    s'.Banked c → s'.Surveyed shelf c marked ∧ (found ≠ none → p.Covered c ∧ marked p)

theorem Surveys.chase (hshelf : shelf.Orderly) (hl : Framed load)
    (hload : Surveys shelf policy c marked load) {context : OpenDocument} {origin : Location}
    {target : Schema} (hon : s.On shelf policy context) (hs : s.Surveyed shelf c marked)
    (h : ChaseRun load origin uri hops s (.ok target) s') (hb : s'.Banked c) :
    s'.Surveyed shelf c marked ∧ ∃ q, shelf.at? uri = some q ∧ q.Covered c ∧ marked q := by
  obtain ⟨q, hat⟩ := at?_of_chase hshelf hl hon h
  obtain ⟨s₁, s₂, hsteady, hr, rfl⟩ := chase_cases hshelf hl hon hat h
  obtain ⟨hholds, -⟩ := hshelf.holds_of_at? hat
  obtain ⟨hsurveyed, hfound⟩ := hload hholds ((hon.frame hsteady.frame).push hholds.toHas)
    ((hs.steady hsteady).congr rfl rfl) hr ⟨hb.finds, hb.report⟩
  obtain ⟨hcovered, hmarked⟩ := hfound (by simp)
  exact ⟨hsurveyed.congr rfl rfl, q, hat, hcovered, hmarked⟩

theorem Surveys.link (hshelf : shelf.Orderly) (hl : Framed load)
    (hload : Surveys shelf policy c marked load) {context : OpenDocument} {draft : Draft}
    {location : Location} {found : Option Schema} (hon : s.On shelf policy context)
    (hs : s.Surveyed shelf c marked)
    (h : LinkRun load draft location uri hops s (.ok found) s') (hb : s'.Banked c) :
    s'.Surveyed shelf c marked ∧ c.contains uri = true := by
  cases h with
  | found hf => exact ⟨hs.congr rfl rfl, hb.finds hf⟩
  | @followed _ target s₁ s₂ _ _ _ hchase heq =>
    subst heq
    have hfinish : ∀ {other}, s₁.finds other = true →
        ((s₁.endResolving uri).finish target [uri]).finds other = true := fun hf =>
      (frame_finish (s₁.endResolving uri) target [uri]).finds
        (((hl.chase hchase).1.endResolving).numbered hon.numbered) hf
    obtain ⟨hsurveyed, q, hat, hcovered, hmarked⟩ := Surveys.chase hshelf hl hload
      (hon.beginResolving uri) (hs.congr rfl rfl) hchase ⟨fun hf => hb.finds (hfinish hf), hb.report⟩
    refine ⟨?_, hb.finds ?_⟩
    · refine ((hsurveyed.congr rfl rfl).finish target (fun other hm => ?_) hcovered hmarked).congr rfl rfl
      rw [List.mem_singleton.mp hm]
      exact hat
    · exact Bool.or_eq_true_iff.mpr (Or.inl (Bool.or_eq_true_iff.mpr
        (Or.inr (Entries.contains_putNew_iff.mpr (Or.inl List.mem_cons_self)))))

/-- The nested places of an object are read one after the other. -/
theorem Surveys.visits (hshelf : shelf.Orderly) (hl : Framed load)
    (hload : Surveys shelf policy c marked load) (hp : shelf.Holds p)
    {members : List (String × Json)} (hv : p.value = .object members)
    (hon : s.On shelf policy p.context) (hs : s.Surveyed shelf c marked) {nodes : List Schema}
    (h : Digest.Visits (nestedLoad load) p.context.draft (fun location value =>
      (location, value) ∈ Digest.nested p.context.active p.inner members) s nodes s')
    (hb : s'.Banked c) : s'.Surveyed shelf c marked := by
  induction h with
  | start => exact hs
  | issue severity kind location message hvisits _ ih =>
    have hbefore := hb.of_frame ((hl.visits hvisits).1.numbered hon.numbered) (frame_record ..)
    exact (ih hbefore).congr rfl rfl
  | boolean hvisits _ ih =>
    have hbefore := hb.of_frame ((hl.visits hvisits).1.numbered hon.numbered) (frame_add ..)
    exact (ih hbefore).congr rfl rfl
  | @load s₁ s₂ _ location value found hvisits hplace hr ih =>
    have hframe := (hl.visits hvisits).1
    have hbefore := hb.of_frame (hframe.numbered hon.numbered) (hl.frame hr)
    exact (hload (p := ⟨p.context, location, value⟩) (hp.nested hshelf hv hplace)
      (hon.frame hframe) (ih hbefore) hr hb).1

theorem Surveys.object (hshelf : shelf.Orderly) (hmarks : Marks shelf policy c marked) {steps : Nat}
    (hload : Surveys shelf policy c marked (loadNode steps)) (hp : shelf.Holds p)
    {members : List (String × Json)} (hv : p.value = .object members)
    (href : Entries.get? "$ref" members = none) {schema : Schema}
    (hon : s.On shelf policy p.context) (hs : s.Surveyed shelf c marked)
    (h : ObjectRun (loadNode steps) p.context p.location members s (.ok schema) s')
    (hb : s'.Banked c) : s'.Surveyed shelf c marked ∧ p.Covered c ∧ marked p := by
  have hl := framed_loadNode steps
  cases h with
  | @finished inner declared builder s₁ s₂ hid hm =>
    obtain ⟨rfl, hanswers, hknown, -, hsteady⟩ := identifies_of_holds hshelf hp hv hid
    have hframe := (hl.keywords hm).1
    have hon₁ := hon.frame hsteady.frame
    have haccepts : p.context.accepts p.value = true := by rw [hv]; rfl
    have huris := fun other hm => hp.at?_of_answers hshelf haccepts (hanswers other hm)
    have hcovered : p.Covered c := by
      refine ⟨haccepts, fun _ {other} ha => hb.finds ?_, fun hm => ?_⟩
      · rcases hknown ha with hm | hknows
        · exact Bool.or_eq_true_iff.mpr (Or.inl (Bool.or_eq_true_iff.mpr
            (Or.inr (Entries.contains_putNew_iff.mpr (Or.inl hm)))))
        · exact (hsteady.frame.trans (hframe.leave rfl)).finds hon.numbered
            (Bool.or_eq_true_iff.mpr (Or.inl hknows))
      · rw [hv] at hm
        exact absurd href hm
    have hbanked : s₂.Banked c :=
      ⟨fun hf => hb.finds (hframe.finds_leave rfl hon₁.numbered hf), hb.report⟩
    have hentered := (hs.steady hsteady).enter huris hcovered
    have hmarked := hmarks.object (p.members?_of_object hv href) (hon₁.enter _) hentered.mapped hm
      hbanked
    obtain ⟨nodes, hvisits, -⟩ := (keywordsRun_gathers _ p.context p.inner members).ok hm
    have hread := hload.visits hshelf hl hp hv (hon₁.enter _) hentered hvisits hbanked
    refine ⟨?_, hcovered, hmarked⟩
    have hback := (@Frame.leave s₁ s₂ _ (.node s₁.store.nodes.size p.inner p.context.draft
      builder.body) hframe rfl).inProgress hon₁.numbered
    have hfinished := hread.finish (.node s₁.store.nodes.size p.inner p.context.draft
      builder.body) huris hcovered hmarked
    refine ⟨fun {uri} hk => ?_, hfinished.marked⟩
    rcases Bool.or_eq_true_iff.mp hk with hk | hk
    · rw [hback] at hk
      exact (hs.steady hsteady).mapped (Bool.or_eq_true_iff.mpr (Or.inl hk))
    · exact hfinished.mapped (Bool.or_eq_true_iff.mpr (Or.inr hk))

theorem surveys_loadNode (hshelf : shelf.Orderly) (hmarks : Marks shelf policy c marked)
    (steps : Nat) : Surveys shelf policy c marked (loadNode steps) := by
  induction steps with
  | zero =>
    intro p hops s found s' _ _ _ h
    cases (runs_throw.mp h).1
  | succ steps ih =>
    intro p hops s found s' hp hon hs h hb
    have hl := framed_loadNode steps
    have hcurrent := hon.current?
    have hr : Runs (loadWith (loadNode steps) p.location p.value hops) s (.ok found) s' := h
    cases nodeRun_of_runs hr with
    | outside hnone => cases hcurrent.symm.trans hnone
    | @known context object schema hc hv hbuilt =>
      have haccepts : p.context.accepts p.value = true := by rw [hv]; rfl
      have hat := hp.at?_pointerUri hshelf haccepts
      have hcontains : Entries.contains p.location.pointerUri s.built = true :=
        Option.isSome_iff_exists.mpr ⟨schema, hbuilt⟩
      obtain ⟨q, hq, hcovered⟩ := hs.mapped (Bool.or_eq_true_iff.mpr (Or.inr hcontains))
      cases hat.symm.trans hq
      exact ⟨hs, fun _ => ⟨hcovered, hs.marked hcontains hat⟩⟩
    | @reference context object written schema _ hc hv hbuilt href hrun =>
      cases hcurrent.symm.trans hc
      cases hrun with
      | refers hu =>
        rw [hv] at hr
        rcases link_of_runs hc href hu hr with ⟨known, hknown, -⟩ | ⟨-, hlink⟩
        · cases hbuilt.symm.trans hknown
        · obtain ⟨hsurveyed, hcontains⟩ := Surveys.link hshelf hl ih hon hs hlink hb
          have hplain : p.members? = none := by
            simp [Position.members?, hv, Entries.contains, href]
          refine ⟨hsurveyed, fun _ => ⟨⟨?_, fun hm => absurd hplain hm, fun _ => ?_⟩,
            hmarks.plain hplain⟩⟩
          · rw [hv]
            rfl
          · exact ⟨_, p.refers?_of_object hv href hu, hcontains⟩
    | @object context object schema _ hc hv _ href hrun =>
      cases hcurrent.symm.trans hc
      obtain ⟨hsurveyed, hfound⟩ := Surveys.object hshelf hmarks ih hp hv href hon hs hrun hb
      exact ⟨hsurveyed, fun _ => hfound⟩
    | @boolean context b hc hv hallowed =>
      cases hcurrent.symm.trans hc
      have hplain : p.members? = none := by rw [Position.members?, hv]
      refine ⟨hs.congr rfl rfl, fun _ => ⟨⟨?_, fun hm => absurd hplain hm, fun hm => ?_⟩,
        hmarks.plain hplain⟩⟩
      · rw [hv]
        exact hallowed
      · rw [hv] at hm
        exact absurd rfl hm
    | refused => exact ⟨hs.congr rfl rfl, fun hm => absurd rfl hm⟩

end Loading
end SchemaAtlas
