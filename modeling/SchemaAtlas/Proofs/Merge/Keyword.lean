import SchemaAtlas.Proofs.Merge.Content

/-!
# What two keywords merge into

`Gives x s a s'` says that a step of a merge, begun in state `s`, gives `a` and ends in `s'`.
The functions on keywords take the merging of nested schemas as a parameter. For any such
function, `blend_of_gives` says that the merged keyword has the content of the override and,
unless a conflict is reported, that of the base, and that each of its nested schemas comes
from one of the two or is what a pair of them was merged into.
-/

namespace SchemaAtlas

namespace Members

variable {α : Type} [LT α] [DecidableLT α] [DecidableEq α]

theorem subset_union_left (a b : List α) : a ⊆ union a b :=
  fun y hy => (mem_union a b y).mpr (Or.inl hy)

theorem subset_union_right (a b : List α) : b ⊆ union a b :=
  fun y hy => (mem_union a b y).mpr (Or.inr hy)

end Members

namespace Keyword

/-- The schemas of two keywords that are merged with each other. -/
def pairs {σ τ : Type} : Keyword σ → Keyword τ → List (σ × τ)
  | .schema b, .schema o | .items b, .items o => [(b, o)]
  | .schemaList bs, .schemaList os | .tuple bs, .tuple os =>
    if bs.length = os.length then bs.zip os else []
  | .schemaMap bs, .schemaMap os => os.filterMap fun (name, o) =>
    (Entries.get? name bs).map fun b => (b, o)
  | .dependencies bs, .dependencies os => os.filterMap fun (name, d) =>
    match Entries.get? name bs, d with
    | some (.schema b), .schema o => some (b, o)
    | _, _ => none
  | _, _ => []

theorem pairs_map {σ σ' τ : Type} (f : σ → σ') (k : Keyword σ) (o : Keyword τ) :
    (k.map f).pairs o = (k.pairs o).map (Prod.map f id) := by
  cases k with
  | schema | items | string | uri | number | count | boolean | names | types | union | limit
  | json | jsonList => cases o <;> rfl
  | schemaList bs | tuple bs =>
    cases o <;> try rfl
    simp only [map, pairs, List.length_map]
    split
    · simp [List.zip_map_left]
    · rfl
  | schemaMap bs =>
    cases o <;> try rfl
    simp [map, pairs, Entries.get?_mapValues, List.map_filterMap, Option.map_map,
      Function.comp_def]
  | dependencies bs =>
    cases o <;> try rfl
    rename_i os
    simp only [map, pairs, Entries.get?_mapValues, List.map_filterMap]
    congr 1
    funext entry
    obtain ⟨name, d⟩ := entry
    rcases Entries.get? name bs with _ | _ | _ <;> cases d <;> rfl

theorem mem_indexed {segment : Option String} {c : Schema} {list : List Schema} :
    (segment, c) ∈ indexed list ↔ ∃ i : Nat, list[i]? = some c ∧ segment = some (toString i) := by
  simp only [indexed, List.mem_map, Prod.exists, Prod.mk.injEq, List.mk_mem_zipIdx_iff_getElem?]
  constructor
  · rintro ⟨s, i, hs, rfl, rfl⟩
    exact ⟨i, hs, rfl⟩
  · rintro ⟨i, hs, rfl⟩
    exact ⟨c, i, hs, rfl, rfl⟩

theorem mem_subschemas_schemaMap {segment : Option String} {c : Schema}
    {entries : List (String × Schema)} (h : (Entries.keys entries).Nodup) :
    (segment, c) ∈ (Keyword.schemaMap entries).subschemas ↔
      ∃ name, Entries.get? name entries = some c ∧ segment = some name := by
  simp only [subschemas, List.mem_map, Prod.exists, Prod.mk.injEq]
  constructor
  · rintro ⟨name, s, hs, rfl, rfl⟩
    exact ⟨name, Entries.get?_of_mem h hs, rfl⟩
  · rintro ⟨name, hs, rfl⟩
    exact ⟨name, c, Entries.mem_of_get? hs, rfl, rfl⟩

theorem mem_subschemas_dependencies {name : String} {c : Schema}
    {entries : List (String × Dependency Schema)}
    (h : Entries.get? name entries = some (.schema c)) :
    (some name, c) ∈ (Keyword.dependencies entries).subschemas :=
  List.mem_filterMap.mpr ⟨_, Entries.mem_of_get? h, rfl⟩

theorem get?_of_mem_subschemas {segment : Option String} {c : Schema}
    {entries : List (String × Dependency Schema)} (h : (Entries.keys entries).Nodup)
    (hc : (segment, c) ∈ (Keyword.dependencies entries).subschemas) :
    ∃ name, Entries.get? name entries = some (.schema c) ∧ segment = some name := by
  obtain ⟨⟨name, d⟩, hmem, heq⟩ := List.mem_filterMap.mp hc
  cases d with
  | schema s =>
    cases heq
    exact ⟨name, Entries.get?_of_mem h hmem, rfl⟩
  | properties _ => cases heq

end Keyword

namespace Merge

variable {α β : Type} {s s' s₁ : MergeState} {x : MergeM α}

/-- The step `x` leads from `s` to `s'` and gives `a`. -/
def Gives (x : MergeM α) (s : MergeState) (a : α) (s' : MergeState) : Prop :=
  StateT.run x s = (a, s')

@[simp] theorem gives_pure {a b : α} : Gives (pure a) s b s' ↔ b = a ∧ s' = s := by
  constructor
  · intro h
    cases h
    exact ⟨rfl, rfl⟩
  · rintro ⟨rfl, rfl⟩
    rfl

theorem gives_bind {f : α → MergeM β} {b : β} :
    Gives (x >>= f) s b s' ↔ ∃ a s₁, Gives x s a s₁ ∧ Gives (f a) s₁ b s' := by
  constructor
  · intro h
    exact ⟨(StateT.run x s).1, (StateT.run x s).2, rfl, h⟩
  · rintro ⟨a, s₁, hx, hf⟩
    unfold Gives at hx hf ⊢
    rw [StateT.run_bind, hx]
    exact hf

theorem gives_map {f : α → β} {b : β} :
    Gives (do return f (← x)) s b s' ↔ ∃ a, Gives x s a s' ∧ b = f a := by
  rw [gives_bind]
  constructor
  · rintro ⟨a, s₁, hx, hf⟩
    obtain ⟨rfl, rfl⟩ := gives_pure.mp hf
    exact ⟨a, hx, rfl⟩
  · rintro ⟨a, hx, rfl⟩
    exact ⟨a, s', hx, gives_pure.mpr ⟨rfl, rfl⟩⟩

@[simp] theorem gives_record {path : Pointer} {verb : MergeVerb} {message : Option String}
    {u : Unit} :
    Gives (record path verb message) s u s' ↔
      s' = { s with report := s.report.record { path, verb, message } } := by
  constructor
  · intro h
    cases h
    rfl
  · rintro rfl
    rfl

@[simp] theorem gives_onStore {step : Store → α × Store} {a : α} :
    Gives (onStore step) s a s' ↔
      a = (step s.store).1 ∧ s' = { s with store := (step s.store).2 } := by
  constructor
  · intro h
    cases h
    exact ⟨rfl, rfl⟩
  · rintro ⟨rfl, rfl⟩
    rfl

section

variable {merger : Schema → Merger}

/-- A schema with the function that merges into it. -/
abbrev withMerger (merger : Schema → Merger) (s : Schema) : Schema × Merger := (s, merger s)

theorem entries_of_withMerger (entries : List (String × Schema)) :
    Entries.mapValues Prod.fst (Entries.mapValues (withMerger merger) entries) = entries := by
  simp [Entries.mapValues, Function.comp_def]

theorem dependencies_of_withMerger (entries : List (String × Dependency Schema)) :
    Entries.mapValues (Dependency.map Prod.fst)
      (Entries.mapValues (Dependency.map (withMerger merger)) entries) = entries := by
  have hid : ∀ d : Dependency Schema,
      (d.map (withMerger merger)).map Prod.fst = d := by
    intro d
    cases d <;> rfl
  simp [Entries.mapValues, Function.comp_def, hid]

/-- Merges what stands under one name. -/
def mergeEntry (path : Pointer) : Option (Schema × Merger) → Schema → MergeM Schema
  | some (_, merger), override => merger path override
  | none, override => do
    record path .add none
    pure override

theorem mergeEntries_cons (path : Pointer) (bases : List (String × Schema × Merger))
    (merged rest : List (String × Schema)) (name : String) (override : Schema) :
    mergeEntries path bases merged ((name, override) :: rest) = (do
      let schema ← mergeEntry (path.child name) (Entries.get? name bases) override
      mergeEntries path bases (Entries.insert name schema merged) rest) := by
  rw [mergeEntries]
  cases Entries.get? name bases <;> rfl

/-! ## Properties of all steps -/

/-- A property of steps, told of each with a path that it records at or below, which what is
composed of steps has with them. -/
structure Compositional (P : Pointer → ∀ {α : Type}, MergeM α → Prop) : Prop where
  pure {α : Type} (path : Pointer) (a : α) : P path (Pure.pure a)
  bind {α β : Type} {path : Pointer} {x : MergeM α} {f : α → MergeM β} :
    P path x → (∀ a, P path (f a)) → P path (x >>= f)
  record (path : Pointer) (verb : MergeVerb) (message : Option String) :
    P path (Merge.record path verb message)
  onStore {α : Type} (path : Pointer) (step : Store → α × Store) : P path (Merge.onStore step)
  child {α : Type} {path : Pointer} {segment : String} {x : MergeM α} :
    P (path.child segment) x → P path x

namespace Compositional

variable {P : Pointer → ∀ {α : Type}, MergeM α → Prop} {path : Pointer}

theorem map (hP : Compositional P) {x : MergeM α} {f : α → β} (hx : P path x) :
    P path (do return f (← x)) :=
  hP.bind hx fun _ => hP.pure _ _

theorem mergePairs (hP : Compositional P) (hm : ∀ b p o, P p (merger b p o)) {index : Nat}
    {bases overrides : List Schema} :
    P path (mergePairs path index (bases.map (withMerger merger)) overrides) := by
  induction bases generalizing index overrides with
  | nil => exact hP.pure _ _
  | cons b bases ih =>
    cases overrides with
    | nil => exact hP.pure _ _
    | cons o overrides => exact hP.bind (hP.child (hm b _ o)) fun _ => hP.map ih

theorem mergeLists (hP : Compositional P) (hm : ∀ b p o, P p (merger b p o))
    {kind : KeywordKind} {form : List Schema → Keyword Schema}
    {bases overrides : List Schema} :
    P path (mergeLists kind path form (bases.map (withMerger merger)) overrides) := by
  unfold Merge.mergeLists
  split
  · exact hP.map (hP.mergePairs hm)
  · exact hP.pure _ _

theorem mergeEntry (hP : Compositional P) (hm : ∀ b p o, P p (merger b p o))
    {base : Option Schema} {override : Schema} :
    P path (mergeEntry path (base.map (withMerger merger)) override) := by
  cases base with
  | some b => exact hm b _ override
  | none => exact hP.bind (hP.record _ _ _) fun _ => hP.pure _ _

theorem mergeEntries (hP : Compositional P) (hm : ∀ b p o, P p (merger b p o))
    {bases merged overrides : List (String × Schema)} :
    P path (mergeEntries path (Entries.mapValues (withMerger merger) bases) merged
      overrides) := by
  induction overrides generalizing merged with
  | nil => exact hP.pure _ _
  | cons entry rest ih =>
    obtain ⟨name, o⟩ := entry
    rw [mergeEntries_cons, Entries.get?_mapValues]
    exact hP.bind (hP.child (hP.mergeEntry hm)) fun _ => ih

theorem mergeDependency (hP : Compositional P) (hm : ∀ b p o, P p (merger b p o))
    {name : String} {base : Option (Dependency Schema)} {override : Dependency Schema} :
    P path (mergeDependency path name (base.map (Dependency.map (withMerger merger)))
      override) := by
  unfold Merge.mergeDependency
  cases base with
  | none => exact hP.bind (hP.record _ _ _) fun _ => hP.pure _ _
  | some d =>
    cases d with
    | schema b =>
      cases override with
      | schema o => exact hP.map (hm b _ o)
      | properties _ => exact hP.pure _ _
    | properties _ => cases override <;> exact hP.pure _ _

theorem mergeDependencies (hP : Compositional P) (hm : ∀ b p o, P p (merger b p o))
    {bases merged overrides : List (String × Dependency Schema)} {conflicts : List String} :
    P path (mergeDependencies path (Entries.mapValues (Dependency.map (withMerger merger)) bases)
      merged conflicts overrides) := by
  induction overrides generalizing merged conflicts with
  | nil => exact hP.pure _ _
  | cons entry rest ih =>
    obtain ⟨name, o⟩ := entry
    unfold Merge.mergeDependencies
    rw [Entries.get?_mapValues]
    exact hP.bind (hP.child (hP.mergeDependency hm)) fun _ => ih

theorem mergeKeyword (hP : Compositional P) (hm : ∀ b p o, P p (merger b p o))
    {kind : KeywordKind} {k o : Keyword Schema} :
    P path (mergeKeyword kind path (k.map (withMerger merger)) o) := by
  unfold Merge.mergeKeyword
  cases k <;> cases o <;> first
    | exact hP.pure _ _
    | exact hP.mergeLists hm
    | exact hP.map (hm _ _ _)
    | exact hP.map (hP.mergeEntries hm)
    | exact hP.bind (hP.mergeDependencies hm) fun _ => hP.pure _ _

end Compositional

/-! ## Reports grow -/

/-- What a step records is added to the report. -/
def Adds (x : MergeM α) : Prop :=
  ∀ s a s', Gives x s a s' → s.report.actions ⊆ s'.report.actions

theorem adds_record (path : Pointer) (verb : MergeVerb) (message : Option String) :
    Adds (record path verb message) := by
  intro s u s' h
  rw [gives_record.mp h]
  exact List.subset_append_left _ _

theorem adds_onStore (step : Store → α × Store) : Adds (onStore step) := by
  intro s a s' h
  obtain ⟨_, rfl⟩ := gives_onStore.mp h
  exact List.Subset.refl _

theorem adds_compositional : Compositional fun _ {_} x => Adds x where
  pure _ a s b s' h := by
    obtain ⟨_, rfl⟩ := gives_pure.mp h
    exact List.Subset.refl _
  bind hx hf s b s' h := by
    obtain ⟨a, s₁, ha, hb⟩ := gives_bind.mp h
    exact List.Subset.trans (hx _ _ _ ha) (hf a _ _ _ hb)
  record := adds_record
  onStore _ := adds_onStore
  child h := h

theorem adds_mergePairs (hm : ∀ b p o, Adds (merger b p o)) {path : Pointer} {index : Nat}
    {bases overrides : List Schema} :
    Adds (mergePairs path index (bases.map (withMerger merger)) overrides) :=
  adds_compositional.mergePairs hm

theorem adds_mergeEntries (hm : ∀ b p o, Adds (merger b p o)) {path : Pointer}
    {bases merged overrides : List (String × Schema)} :
    Adds (mergeEntries path (Entries.mapValues (withMerger merger) bases) merged overrides) :=
  adds_compositional.mergeEntries hm

theorem adds_mergeDependencies (hm : ∀ b p o, Adds (merger b p o)) {path : Pointer}
    {bases merged overrides : List (String × Dependency Schema)} {conflicts : List String} :
    Adds (mergeDependencies path (Entries.mapValues (Dependency.map (withMerger merger)) bases)
      merged conflicts overrides) :=
  adds_compositional.mergeDependencies hm

/-! ## Nested schemas -/

/-- The schemas `b` and `o` were merged at a path into `r`; the report holds what was
recorded then. -/
def MergedTo (merger : Schema → Merger) (report : MergeReport) (path : Pointer)
    (b o r : Schema) : Prop :=
  ∃ s s', Gives (merger b path o) s r s' ∧ s'.report.actions ⊆ report.actions

theorem MergedTo.mono {report report' : MergeReport} {path : Pointer} {b o r : Schema}
    (h : MergedTo merger report path b o r) (hr : report.actions ⊆ report'.actions) :
    MergedTo merger report' path b o r := by
  obtain ⟨s, s', hg, hs⟩ := h
  exact ⟨s, s', hg, List.Subset.trans hs hr⟩

theorem mergedTo_of_mergePairs (hm : ∀ b p o, Adds (merger b p o)) {path : Pointer}
    {index : Nat} {bases overrides merged : List Schema}
    (hlen : bases.length = overrides.length)
    (h : Gives (mergePairs path index (bases.map (withMerger merger)) overrides) s merged s') :
    merged.length = bases.length ∧
      ∀ i b o, bases[i]? = some b → overrides[i]? = some o →
        ∃ r, merged[i]? = some r ∧
          MergedTo merger s'.report (path.childIndex (index + i)) b o r := by
  induction bases generalizing index overrides merged s with
  | nil =>
    obtain ⟨rfl, -⟩ := gives_pure.mp h
    exact ⟨rfl, fun i b o hb => by cases hb⟩
  | cons b bases ih =>
    cases overrides with
    | nil => cases hlen
    | cons o overrides =>
      obtain ⟨r, s₁, hr, hrest⟩ := gives_bind.mp h
      obtain ⟨rs, hrs, rfl⟩ := gives_map.mp hrest
      obtain ⟨hl, hat⟩ := ih (Nat.succ.inj hlen) hrs
      refine ⟨congrArg Nat.succ hl, ?_⟩
      intro i b' o' hb ho
      cases i with
      | zero =>
        cases hb
        cases ho
        exact ⟨r, rfl, s, s₁, hr, adds_mergePairs hm _ _ _ hrs⟩
      | succ i =>
        obtain ⟨r', hr', hmerged⟩ := hat i b' o' hb ho
        rw [show index + 1 + i = index + (i + 1) by omega] at hmerged
        exact ⟨r', hr', hmerged⟩

/-- What stands under a name in a merged map. -/
inductive EntryFate (merger : Schema → Merger) (report : MergeReport) (path : Pointer) :
    Option Schema → Schema → Schema → Prop
  | added (o : Schema) : EntryFate merger report path none o o
  | merged {b o r : Schema} : MergedTo merger report path b o r →
      EntryFate merger report path (some b) o r

theorem fate_of_mergeEntries (hm : ∀ b p o, Adds (merger b p o)) {path : Pointer}
    {bases merged overrides result : List (String × Schema)}
    (hnodup : (Entries.keys overrides).Nodup)
    (h : Gives (mergeEntries path (Entries.mapValues (withMerger merger) bases) merged overrides)
      s result s') (name : String) :
    (Entries.get? name overrides = none →
      Entries.get? name result = Entries.get? name merged) ∧
    ∀ o, Entries.get? name overrides = some o →
      ∃ r, Entries.get? name result = some r ∧
        EntryFate merger s'.report (path.child name) (Entries.get? name bases) o r := by
  induction overrides generalizing merged s with
  | nil =>
    obtain ⟨rfl, -⟩ := gives_pure.mp h
    exact ⟨fun _ => rfl, fun o ho => by cases ho⟩
  | cons entry rest ih =>
    obtain ⟨first, o⟩ := entry
    obtain ⟨hnew, hrest⟩ := List.nodup_cons.mp hnodup
    rw [mergeEntries_cons, Entries.get?_mapValues] at h
    obtain ⟨r, s₁, hr, htail⟩ := gives_bind.mp h
    have hadds := adds_mergeEntries hm _ _ _ htail
    obtain ⟨hout, hin⟩ := ih hrest htail
    have hfate : EntryFate merger s'.report (path.child first) (Entries.get? first bases) o r := by
      cases hb : Entries.get? first bases with
      | some b =>
        rw [hb] at hr
        exact .merged ⟨s, s₁, hr, hadds⟩
      | none =>
        rw [hb] at hr
        obtain ⟨_, _, _, hpure⟩ := gives_bind.mp hr
        obtain ⟨rfl, -⟩ := gives_pure.mp hpure
        exact .added _
    by_cases hname : name = first
    · subst hname
      refine ⟨fun habsent => by simp [Entries.get?] at habsent, fun o' ho' => ⟨r, ?_, ?_⟩⟩
      · rw [hout (Entries.get?_eq_none.mpr hnew), Entries.get?_insert, if_pos rfl]
      · simp only [Entries.get?, if_true, Option.some.injEq] at ho'
        exact ho' ▸ hfate
    · simp only [Entries.get?, if_neg hname]
      refine ⟨fun habsent => ?_, hin⟩
      rw [hout habsent, Entries.get?_insert, if_neg hname]

/-- What a property depends on after a merge, and the conflicts of that. -/
inductive DependencyFate (merger : Schema → Merger) (report : MergeReport) (path : Pointer) :
    Option (Dependency Schema) → Dependency Schema → Dependency Schema → List String → Prop
  | added (o : Dependency Schema) : DependencyFate merger report path none o o []
  | merged {b o r : Schema} : MergedTo merger report path b o r →
      DependencyFate merger report path (some (.schema b)) (.schema o) (.schema r) []
  | united (a b conflicts : List String) : DependencyFate merger report path
      (some (.properties a)) (.properties b) (.properties (Members.union a b)) conflicts
  | replaced (b o : Dependency Schema) (conflict : String) :
      DependencyFate merger report path (some b) o o [conflict]

theorem fate_of_mergeDependency {report : MergeReport} {path : Pointer} {name : String}
    {base : Option (Dependency Schema)} {override : Dependency Schema}
    {result : Dependency Schema × List String}
    (h : Gives (mergeDependency path name (base.map (Dependency.map (withMerger merger)))
      override) s result s')
    (hr : s'.report.actions ⊆ report.actions) :
    DependencyFate merger report path base override result.1 result.2 := by
  unfold mergeDependency at h
  cases base with
  | none =>
    obtain ⟨_, _, _, hpure⟩ := gives_bind.mp h
    obtain ⟨rfl, -⟩ := gives_pure.mp hpure
    exact .added _
  | some d =>
    cases d with
    | schema b =>
      cases override with
      | schema o =>
        obtain ⟨r, hm, rfl⟩ := gives_map.mp h
        exact .merged ⟨s, s', hm, hr⟩
      | properties ps =>
        obtain ⟨rfl, -⟩ := gives_pure.mp h
        exact .replaced ..
    | properties ps =>
      cases override with
      | schema o =>
        obtain ⟨rfl, -⟩ := gives_pure.mp h
        exact .replaced ..
      | properties ps' =>
        obtain ⟨rfl, -⟩ := gives_pure.mp h
        exact .united ..

theorem fate_of_mergeDependencies (hm : ∀ b p o, Adds (merger b p o)) {path : Pointer}
    {bases merged overrides : List (String × Dependency Schema)} {conflicts : List String}
    {result : List (String × Dependency Schema) × List String}
    (hnodup : (Entries.keys overrides).Nodup)
    (h : Gives (mergeDependencies path
      (Entries.mapValues (Dependency.map (withMerger merger)) bases) merged conflicts overrides)
      s result s') :
    conflicts ⊆ result.2 ∧ ∀ name,
      (Entries.get? name overrides = none →
        Entries.get? name result.1 = Entries.get? name merged) ∧
      ∀ o, Entries.get? name overrides = some o →
        ∃ d more, Entries.get? name result.1 = some d ∧ more ⊆ result.2 ∧
          DependencyFate merger s'.report (path.child name) (Entries.get? name bases) o d
            more := by
  induction overrides generalizing merged conflicts s with
  | nil =>
    obtain ⟨rfl, -⟩ := gives_pure.mp h
    exact ⟨List.Subset.refl _, fun name => ⟨fun _ => rfl, fun o ho => by cases ho⟩⟩
  | cons entry rest ih =>
    obtain ⟨first, o⟩ := entry
    obtain ⟨hnew, hrest⟩ := List.nodup_cons.mp hnodup
    unfold mergeDependencies at h
    rw [Entries.get?_mapValues] at h
    obtain ⟨⟨d, more⟩, s₁, hd, htail⟩ := gives_bind.mp h
    have hfate := fate_of_mergeDependency hd (adds_mergeDependencies hm _ _ _ htail)
    obtain ⟨hconflicts, hat⟩ := ih hrest htail
    refine ⟨List.Subset.trans (List.subset_append_left _ _) hconflicts, fun name => ?_⟩
    obtain ⟨hout, hin⟩ := hat name
    by_cases hname : name = first
    · subst hname
      refine ⟨fun habsent => by simp [Entries.get?] at habsent,
        fun o' ho' => ⟨d, more, ?_, ?_, ?_⟩⟩
      · rw [hout (Entries.get?_eq_none.mpr hnew), Entries.get?_insert, if_pos rfl]
      · exact List.Subset.trans (List.subset_append_right _ _) hconflicts
      · simp only [Entries.get?, if_true, Option.some.injEq] at ho'
        exact ho' ▸ hfate
    · simp only [Entries.get?, if_neg hname]
      refine ⟨fun habsent => ?_, hin⟩
      rw [hout habsent, Entries.get?_insert, if_neg hname]

/-! ## Content -/

/-- The merged keyword has what the override says and, without a conflict, what the base
says; each entry is one of theirs or what a pair of them was merged into. -/
structure Blend (merger : Schema → Merger) (report : MergeReport) (path : Pointer)
    (k o : Keyword Schema) (m : Merged) : Prop where
  base : m.conflict = none → k.PlainContained m.keyword
  override : o.PlainContained m.keyword
  base_entry : m.conflict = none → ∀ {segment b}, (segment, b) ∈ k.subschemas →
    ∃ r, (segment, r) ∈ m.keyword.subschemas ∧
      (r = b ∨ ∃ c, (b, c) ∈ k.pairs o ∧ MergedTo merger report (path.under segment) b c r)
  override_entry : ∀ {segment c}, (segment, c) ∈ o.subschemas →
    ∃ r, (segment, r) ∈ m.keyword.subschemas ∧
      (r = c ∨ ∃ b, (b, c) ∈ k.pairs o ∧ MergedTo merger report (path.under segment) b c r)

variable {report : MergeReport} {path : Pointer}

theorem Blend.mono {report' : MergeReport} {k o : Keyword Schema} {m : Merged}
    (h : Blend merger report path k o m) (hr : report.actions ⊆ report'.actions) :
    Blend merger report' path k o m where
  base := h.base
  override := h.override
  base_entry := fun hnone _ _ hb =>
    let ⟨r, hr', hor⟩ := h.base_entry hnone hb
    ⟨r, hr', hor.imp_right fun ⟨c, hp, hmerged⟩ => ⟨c, hp, hmerged.mono hr⟩⟩
  override_entry := fun hc =>
    let ⟨r, hr', hor⟩ := h.override_entry hc
    ⟨r, hr', hor.imp_right fun ⟨b, hp, hmerged⟩ => ⟨b, hp, hmerged.mono hr⟩⟩

theorem Blend.of_plain {k o : Keyword Schema} {m : Merged} (hk : k.subschemas = [])
    (ho : o.subschemas = []) (base : m.conflict = none → k.PlainContained m.keyword)
    (override : o.PlainContained m.keyword) : Blend merger report path k o m where
  base
  override
  base_entry := fun _ _ _ h => by rw [hk] at h; cases h
  override_entry := fun h => by rw [ho] at h; cases h

theorem blend_replace {k o : Keyword Schema} (hk : k.subschemas = []) (ho : o.subschemas = [])
    (hsame : Schema.sameKeyword k o = true → o.PlainContained k) :
    Blend merger report path k o (replace k o) := by
  unfold replace
  split
  · rename_i h
    exact .of_plain hk ho (fun _ => (Keyword.Contained.refl k).plain) (hsame h)
  · exact .of_plain hk ho (fun h => by cases h) (Keyword.Contained.refl o).plain

theorem mem_uniteValues {a b : List Json} :
    a ⊆ uniteValues a b ∧ ∀ v ∈ b, ∃ w ∈ uniteValues a b, v.equals w = true := by
  induction b generalizing a with
  | nil => exact ⟨List.Subset.refl _, fun v hv => by cases hv⟩
  | cons x rest ih =>
    obtain ⟨hsub, hall⟩ := @ih (if a.any (· == x) then a else a ++ [x])
    have hstep : a ⊆ if a.any (· == x) then a else a ++ [x] := by
      split
      · exact List.Subset.refl _
      · exact List.subset_append_left _ _
    refine ⟨List.Subset.trans hstep hsub, fun v hv => ?_⟩
    rcases List.mem_cons.mp hv with rfl | hv
    · by_cases hany : a.any (· == v) = true
      · obtain ⟨w, hw, hequal⟩ := List.any_eq_true.mp hany
        refine ⟨w, hsub (hstep hw), ?_⟩
        rw [Json.equals_comm]
        exact hequal
      · refine ⟨v, hsub ?_, v.equals_self⟩
        rw [if_neg hany]
        exact List.mem_append_right _ List.mem_cons_self
    · exact hall v hv

theorem boundContained_mergeBound (name : String) (a b : Option Number) :
    Limit.boundContained b (mergeBound name a b).1 ∧
      ((mergeBound name a b).2 = [] → Limit.boundContained a (mergeBound name a b).1) := by
  cases a with
  | none => exact ⟨fun n h => ⟨n, by simp [mergeBound, h], n.equals_self⟩, fun _ n h => by cases h⟩
  | some x =>
    cases b with
    | none => exact ⟨fun n h => (nomatch h), fun _ n h => ⟨n, h, n.equals_self⟩⟩
    | some y =>
      refine ⟨fun n h => ⟨n, h, n.equals_self⟩, fun hnone n h => ⟨y, rfl, ?_⟩⟩
      cases h
      simpa [mergeBound] using hnone

theorem joined_eq_none {conflicts : List String} : joined conflicts = none ↔ conflicts = [] := by
  cases conflicts <;> simp [joined]

theorem blend_limits (a b : Limit) :
    Blend merger report path (.limit a) (.limit b) (mergeLimit a b) := by
  obtain ⟨hover, hbase⟩ := boundContained_mergeBound "inclusive" a.inclusive b.inclusive
  obtain ⟨hover', hbase'⟩ := boundContained_mergeBound "exclusive" a.exclusive b.exclusive
  refine .of_plain rfl rfl (fun h => ?_) ⟨hover, hover'⟩
  obtain ⟨hi, he⟩ := List.append_eq_nil_iff.mp (joined_eq_none.mp h)
  exact ⟨hbase hi, hbase' he⟩

/-- Two lists are blended if their elements are merged in pairs. -/
theorem Blend.of_lists {k o : Keyword Schema} {m : Merged} {bases overrides merged : List Schema}
    (hk : k.subschemas = Keyword.indexed bases) (ho : o.subschemas = Keyword.indexed overrides)
    (hm : m.keyword.subschemas = Keyword.indexed merged)
    (base : k.PlainContained m.keyword) (override : o.PlainContained m.keyword)
    (hlen : bases.length = overrides.length) (hpairs : k.pairs o = bases.zip overrides)
    (hat : ∀ i b c, bases[i]? = some b → overrides[i]? = some c → ∃ r, merged[i]? = some r ∧
      MergedTo merger report (path.childIndex i) b c r) : Blend merger report path k o m := by
  have hpair : ∀ (i : Nat) b c, bases[i]? = some b → overrides[i]? = some c →
      ∃ r, (some (toString i), r) ∈ m.keyword.subschemas ∧ (b, c) ∈ k.pairs o ∧
        MergedTo merger report (path.under (some (toString i))) b c r := by
    intro i b c hb hc
    obtain ⟨r, hr, hmerged⟩ := hat i b c hb hc
    rw [hm, hpairs]
    exact ⟨r, Keyword.mem_indexed.mpr ⟨i, hr, rfl⟩,
      List.mem_of_getElem? (List.getElem?_zip_eq_some.mpr ⟨hb, hc⟩), hmerged⟩
  refine ⟨fun _ => base, override, ?_, ?_⟩
  · intro _ segment b hb
    obtain ⟨i, hi, rfl⟩ := Keyword.mem_indexed.mp (hk ▸ hb)
    have hlt : i < overrides.length := hlen ▸ (List.getElem?_eq_some_iff.mp hi).1
    obtain ⟨r, hr, hp, hmerged⟩ := hpair i b _ hi (List.getElem?_eq_getElem hlt)
    exact ⟨r, hr, Or.inr ⟨_, hp, hmerged⟩⟩
  · intro segment c hc
    obtain ⟨i, hi, rfl⟩ := Keyword.mem_indexed.mp (ho ▸ hc)
    have hlt : i < bases.length := hlen ▸ (List.getElem?_eq_some_iff.mp hi).1
    obtain ⟨r, hr, hp, hmerged⟩ := hpair i _ c (List.getElem?_eq_getElem hlt) hi
    exact ⟨r, hr, Or.inr ⟨_, hp, hmerged⟩⟩

theorem blend_of_mergeLists (hm : ∀ b p o, Adds (merger b p o)) {kind : KeywordKind}
    {form : List Schema → Keyword Schema} {bases overrides : List Schema} {m : Merged}
    (hform : form = .schemaList ∨ form = .tuple)
    (h : Gives (mergeLists kind path form (bases.map (withMerger merger)) overrides) s (.ok m)
      s') :
    Blend merger s'.report path (form bases) (form overrides) m := by
  unfold mergeLists at h
  split at h
  · rename_i hlen
    rw [List.length_map] at hlen
    obtain ⟨rs, hrs, hm'⟩ := gives_map.mp h
    cases hm'
    obtain ⟨hlength, hat⟩ := mergedTo_of_mergePairs hm hlen hrs
    simp only [Nat.zero_add] at hat
    rcases hform with rfl | rfl
    · exact .of_lists rfl rfl rfl hlength.symm (hlength.trans hlen).symm hlen (if_pos hlen) hat
    · exact .of_lists rfl rfl rfl hlength.symm (hlength.trans hlen).symm hlen (if_pos hlen) hat
  · cases (gives_pure.mp h).1

theorem blend_of_mergeEntries (hm : ∀ b p o, Adds (merger b p o))
    {bases overrides merged : List (String × Schema)} (hb : (Entries.keys bases).Nodup)
    (ho : (Entries.keys overrides).Nodup)
    (h : Gives (mergeEntries path (Entries.mapValues (withMerger merger) bases) bases overrides)
      s merged s') :
    Blend merger s'.report path (.schemaMap bases) (.schemaMap overrides)
      ⟨.schemaMap merged, none⟩ := by
  have hfate := fate_of_mergeEntries hm ho h
  have hin : ∀ {name r}, Entries.get? name merged = some r →
      (some name, r) ∈ (Keyword.schemaMap merged).subschemas :=
    fun hr => List.mem_map_of_mem (f := fun e : String × Schema => (some e.1, e.2))
      (Entries.mem_of_get? hr)
  have hpair : ∀ {name b o}, Entries.get? name bases = some b →
      Entries.get? name overrides = some o →
      (b, o) ∈ (Keyword.schemaMap bases).pairs (.schemaMap overrides) := by
    intro name b o hbase hover
    exact List.mem_filterMap.mpr ⟨(name, o), Entries.mem_of_get? hover, by simp [hbase]⟩
  refine ⟨fun _ => trivial, trivial, ?_, ?_⟩
  · intro _ segment b hmem
    obtain ⟨name, hname, rfl⟩ := (Keyword.mem_subschemas_schemaMap hb).mp hmem
    obtain ⟨hout, hfate⟩ := hfate name
    cases hover : Entries.get? name overrides with
    | none => exact ⟨b, hin ((hout hover).trans hname), Or.inl rfl⟩
    | some o =>
      obtain ⟨r, hr, hf⟩ := hfate o hover
      rw [hname] at hf
      cases hf with
      | merged hmerged => exact ⟨r, hin hr, Or.inr ⟨o, hpair hname hover, hmerged⟩⟩
  · intro segment o hmem
    obtain ⟨name, hover, rfl⟩ := (Keyword.mem_subschemas_schemaMap ho).mp hmem
    obtain ⟨r, hr, hf⟩ := (hfate name).2 o hover
    cases hbase : Entries.get? name bases with
    | none =>
      rw [hbase] at hf
      cases hf with
      | added => exact ⟨_, hin hr, Or.inl rfl⟩
    | some b =>
      rw [hbase] at hf
      cases hf with
      | merged hmerged => exact ⟨r, hin hr, Or.inr ⟨b, hpair hbase hover, hmerged⟩⟩

theorem blend_of_mergeDependencies (hm : ∀ b p o, Adds (merger b p o))
    {bases overrides : List (String × Dependency Schema)}
    {result : List (String × Dependency Schema) × List String}
    (hb : (Entries.keys bases).Nodup) (ho : (Entries.keys overrides).Nodup)
    (h : Gives (mergeDependencies path
      (Entries.mapValues (Dependency.map (withMerger merger)) bases) bases [] overrides)
      s result s') :
    Blend merger s'.report path (.dependencies bases) (.dependencies overrides)
      ⟨.dependencies result.1, joined result.2⟩ := by
  obtain ⟨-, hfate⟩ := fate_of_mergeDependencies hm ho h
  have hpair : ∀ {name b o}, Entries.get? name bases = some (.schema b) →
      Entries.get? name overrides = some (.schema o) →
      (b, o) ∈ (Keyword.dependencies bases).pairs (.dependencies overrides) := by
    intro name b o hbase hover
    exact List.mem_filterMap.mpr ⟨(name, .schema o), Entries.mem_of_get? hover, by simp [hbase]⟩
  refine ⟨?_, ?_, ?_, ?_⟩
  · intro hnone name ps hmem
    obtain ⟨hout, hfate⟩ := hfate name
    have hbase := Entries.get?_of_mem hb hmem
    cases hover : Entries.get? name overrides with
    | none =>
      exact ⟨ps, Entries.mem_of_get? ((hout hover).trans hbase), List.Subset.refl _⟩
    | some o =>
      obtain ⟨d, more, hd, hmore, hf⟩ := hfate o hover
      rw [hbase] at hf
      cases hf with
      | united a b => exact ⟨_, Entries.mem_of_get? hd, Members.subset_union_left _ _⟩
      | replaced b o conflict =>
        rw [joined_eq_none.mp hnone] at hmore
        exact absurd (hmore List.mem_cons_self) List.not_mem_nil
  · intro name ps hmem
    obtain ⟨d, more, hd, -, hf⟩ := (hfate name).2 _ (Entries.get?_of_mem ho hmem)
    cases hf' : Entries.get? name bases with
    | none =>
      rw [hf'] at hf
      cases hf
      exact ⟨ps, Entries.mem_of_get? hd, List.Subset.refl _⟩
    | some b =>
      rw [hf'] at hf
      cases hf with
      | united a b => exact ⟨_, Entries.mem_of_get? hd, Members.subset_union_right _ _⟩
      | replaced b o conflict => exact ⟨ps, Entries.mem_of_get? hd, List.Subset.refl _⟩
  · intro hnone segment b hmem
    obtain ⟨name, hbase, rfl⟩ := Keyword.get?_of_mem_subschemas hb hmem
    obtain ⟨hout, hfate⟩ := hfate name
    cases hover : Entries.get? name overrides with
    | none =>
      exact ⟨b, Keyword.mem_subschemas_dependencies ((hout hover).trans hbase), Or.inl rfl⟩
    | some o =>
      obtain ⟨d, more, hd, hmore, hf⟩ := hfate o hover
      rw [hbase] at hf
      cases hf with
      | merged hmerged =>
        exact ⟨_, Keyword.mem_subschemas_dependencies hd,
          Or.inr ⟨_, hpair hbase hover, hmerged⟩⟩
      | replaced b o conflict =>
        rw [joined_eq_none.mp hnone] at hmore
        exact absurd (hmore List.mem_cons_self) List.not_mem_nil
  · intro segment o hmem
    obtain ⟨name, hover, rfl⟩ := Keyword.get?_of_mem_subschemas ho hmem
    obtain ⟨d, more, hd, -, hf⟩ := (hfate name).2 _ hover
    cases hbase : Entries.get? name bases with
    | none =>
      rw [hbase] at hf
      cases hf
      exact ⟨o, Keyword.mem_subschemas_dependencies hd, Or.inl rfl⟩
    | some b =>
      rw [hbase] at hf
      cases hf with
      | merged hmerged =>
        exact ⟨_, Keyword.mem_subschemas_dependencies hd,
          Or.inr ⟨_, hpair hbase hover, hmerged⟩⟩
      | replaced => exact ⟨o, Keyword.mem_subschemas_dependencies hd, Or.inl rfl⟩

/-- One schema is blended with another if they are merged. -/
theorem Blend.of_single {k o : Keyword Schema} {m : Merged} {b c r : Schema}
    (hk : k.subschemas = [(none, b)]) (ho : o.subschemas = [(none, c)])
    (hm : m.keyword.subschemas = [(none, r)]) (base : k.PlainContained m.keyword)
    (override : o.PlainContained m.keyword) (hpair : (b, c) ∈ k.pairs o)
    (h : MergedTo merger report path b c r) : Blend merger report path k o m := by
  refine ⟨fun _ => base, override, ?_, ?_⟩
  · intro _ segment b' hb'
    rw [hk] at hb'
    cases List.mem_singleton.mp hb'
    exact ⟨r, hm ▸ List.mem_singleton.mpr rfl, Or.inr ⟨c, hpair, h⟩⟩
  · intro segment c' hc'
    rw [ho] at hc'
    cases List.mem_singleton.mp hc'
    exact ⟨r, hm ▸ List.mem_singleton.mpr rfl, Or.inr ⟨b, hpair, h⟩⟩

/-- What a merge of two keywords gives, if it does not fail, is a blend of the two. -/
theorem blend_of_gives (hm : ∀ b p o, Adds (merger b p o)) {kind : KeywordKind}
    {k o : Keyword Schema} {m : Merged} (hk : k.distinct = true) (ho : o.distinct = true)
    (h : Gives (mergeKeyword kind path (k.map (withMerger merger)) o) s (.ok m) s') :
    Blend merger s'.report path k o m := by
  cases k with
  | string a | uri a | count a | boolean a =>
    cases o <;> cases (gives_pure.mp h).1
    exact blend_replace rfl rfl fun h => (beq_iff_eq.mp h).symm
  | number a =>
    cases o <;> cases (gives_pure.mp h).1
    exact blend_replace rfl rfl fun h => (Number.equals_comm _ _).trans h
  | json a =>
    cases o <;> cases (gives_pure.mp h).1
    exact blend_replace rfl rfl fun h => (Json.equals_comm _ _).trans h
  | names a | types a =>
    cases o <;> cases (gives_pure.mp h).1
    exact .of_plain rfl rfl (fun _ => Members.subset_union_left _ _)
      (Members.subset_union_right _ _)
  | jsonList a =>
    cases o <;> cases (gives_pure.mp h).1
    refine .of_plain rfl rfl (fun _ v hv => ?_) mem_uniteValues.2
    exact ⟨v, mem_uniteValues.1 hv, v.equals_self⟩
  | limit a =>
    cases o <;> cases (gives_pure.mp h).1
    exact blend_limits _ _
  | union a ss => cases o <;> cases (gives_pure.mp h).1
  | schema b =>
    cases o with
    | schema c =>
      obtain ⟨r, hr, heq⟩ := gives_map.mp h
      cases heq
      exact .of_single rfl rfl rfl trivial trivial List.mem_cons_self ⟨_, _, hr, List.Subset.refl _⟩
    | _ => cases (gives_pure.mp h).1
  | items b =>
    cases o with
    | items c =>
      obtain ⟨r, hr, heq⟩ := gives_map.mp h
      cases heq
      exact .of_single rfl rfl rfl trivial trivial List.mem_cons_self ⟨_, _, hr, List.Subset.refl _⟩
    | _ => cases (gives_pure.mp h).1
  | schemaList bs =>
    cases o with
    | schemaList os => exact blend_of_mergeLists hm (Or.inl rfl) h
    | _ => cases (gives_pure.mp h).1
  | tuple bs =>
    cases o with
    | tuple os => exact blend_of_mergeLists hm (Or.inr rfl) h
    | _ => cases (gives_pure.mp h).1
  | schemaMap bs =>
    cases o with
    | schemaMap os =>
      obtain ⟨merged, hmerged, heq⟩ := gives_map.mp h
      cases heq
      rw [entries_of_withMerger] at hmerged
      exact blend_of_mergeEntries hm (of_decide_eq_true hk) (of_decide_eq_true ho) hmerged
    | _ => cases (gives_pure.mp h).1
  | dependencies bs =>
    cases o with
    | dependencies os =>
      obtain ⟨result, s₁, hresult, hpure⟩ := gives_bind.mp h
      obtain ⟨heq, rfl⟩ := gives_pure.mp hpure
      cases heq
      rw [dependencies_of_withMerger] at hresult
      exact blend_of_mergeDependencies hm (of_decide_eq_true hk) (of_decide_eq_true ho) hresult
    | _ => cases (gives_pure.mp h).1

end
end Merge
end SchemaAtlas
