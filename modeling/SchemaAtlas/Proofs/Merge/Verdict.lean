import SchemaAtlas.Proofs.Merge.Refused
import SchemaAtlas.Proofs.Pointer.Text

/-!
# The verdict on a keyword

A keyword that base and override both have gets a verdict: merged, conflicting or in error.
`Keyword.MetAt` says where two keywords meet, at any depth. What is reported at their path
comes from the one step that merges them: steps beside it report elsewhere (`Quiet`), and steps
around it pass on what it reports (`Through`). A keyword that holds one schema shares its path
with the merge of that schema, whose own conflict then comes before the verdict.
-/

namespace SchemaAtlas

namespace Pointer

variable {p q : Pointer}

theorem child_inj {a b : String} (ha : (p.child a).segments <+: q.segments)
    (hb : (p.child b).segments <+: q.segments) : a = b := by
  have hsegments := (List.prefix_of_prefix_length_le ha hb (by simp)).eq_of_length (by simp)
  simpa using hsegments

theorem childIndex_inj {i j : Nat} (hi : (p.childIndex i).segments <+: q.segments)
    (hj : (p.childIndex j).segments <+: q.segments) : i = j :=
  toString_inj (child_inj hi hj)

theorem not_child_prefix_self (p : Pointer) (segment : String) :
    ¬ (p.child segment).segments <+: p.segments := by
  intro h
  have hlength := h.length_le
  simp at hlength

end Pointer

namespace Schema

/-- Whether exactly one of two schemas is `false`, the other being no reference and, as an
override, not `true`. -/
def clash (base override : Schema) : Bool :=
  !(base.isReference || override.isReference) &&
    match base.boolean?, override.boolean? with
    | some false, none | some true, some false | none, some false => true
    | _, _ => false

/-- The schema has no other keyword with the key of this kind. -/
def Unshared (s : Schema) (kind : KeywordKind) : Prop :=
  ∀ other ∈ Entries.keys s.keywords, other.key = kind.key → other = kind

instance (s : Schema) (kind : KeywordKind) : Decidable (s.Unshared kind) :=
  inferInstanceAs (Decidable (∀ other ∈ Entries.keys s.keywords, other.key = kind.key → other = kind))

end Schema

namespace Keyword

/-- Whether two keywords hold one schema each, of which one is `false`. -/
def clash : Keyword Schema → Keyword Schema → Bool
  | .schema b, .schema o | .items b, .items o => b.clash o
  | _, _ => false

/-- Two keywords of a kind meet in a merge of two schemas, at the end of a path: both schemas
have one, or schemas that are merged with each other do. -/
inductive MetAt (kind : KeywordKind) (k l : Keyword Schema) : Schema → Schema → List String → Prop
  | here {base override : Schema} : base.keyword? kind = some k →
      override.keyword? kind = some l → override.Unshared kind →
      MetAt kind k l base override [kind.key]
  | inside {base override b o : Schema} {outer : KeywordKind} {k' l' : Keyword Schema}
      {segment : Option String} {path : List String} : outer ≠ .id →
      base.keyword? outer = some k' → override.keyword? outer = some l' →
      override.Unshared outer → k'.fits l' = true → (segment, b) ∈ k'.subschemas →
      (segment, o) ∈ l'.subschemas → MetAt kind k l b o path →
      MetAt kind k l base override (outer.key :: (segment.toList ++ path))

theorem MetAt.ne_nil {kind : KeywordKind} {k l : Keyword Schema} {base override : Schema}
    {path : List String} (h : MetAt kind k l base override path) : path ≠ [] := by
  cases h <;> exact List.cons_ne_nil _ _

end Keyword

namespace Merge

variable {α β : Type} {x : MergeM α} {s s' t : MergeState} {path q : Pointer}
  {merger : Schema → Merger}

theorem logs_merging (b : Schema) (p : Pointer) (o : Schema) : Logs p (merging b p o) :=
  logs_compositional.mergeAt p b o

/-! ## Steps that report elsewhere -/

/-- The step reports nothing at the path. -/
def Quiet (q : Pointer) (x : MergeM α) : Prop :=
  ∀ s a s', Gives x s a s' → s'.report.actionsAt q = s.report.actionsAt q

theorem actionsAt_of_append {log : List MergeAction}
    (h : s'.report.actions = s.report.actions ++ log) :
    s'.report.actionsAt q = s.report.actionsAt q ++ log.filter (·.path = q) := by
  rw [MergeReport.actionsAt, h, List.filter_append]
  rfl

theorem Logs.quiet (h : Logs path x) (hq : ¬ path.segments <+: q.segments) : Quiet q x := by
  intro s a s' hx
  obtain ⟨log, hlog, hreport, -⟩ := h s a s' hx
  have hnone : log.filter (·.path = q) = [] := by
    refine List.filter_eq_nil_iff.mpr fun action hmem hpath => hq ?_
    rw [← of_decide_eq_true hpath]
    exact hlog action hmem
  rw [actionsAt_of_append hreport, hnone, List.append_nil]

theorem quiet_pure (a : α) : Quiet q (pure a) := by
  intro s b s' h
  rw [(gives_pure.mp h).2]

theorem quiet_onStore (step : Store → α × Store) : Quiet q (onStore step) := by
  intro s a s' h
  rw [(gives_onStore.mp h).2]

theorem Quiet.bind {f : α → MergeM β} (hx : Quiet q x) (hf : ∀ a, Quiet q (f a)) :
    Quiet q (x >>= f) := by
  intro s b s' h
  obtain ⟨a, s₁, ha, hb⟩ := gives_bind.mp h
  exact (hf a _ _ _ hb).trans (hx _ _ _ ha)

theorem Quiet.map {f : α → β} (hx : Quiet q x) : Quiet q (do return f (← x)) :=
  hx.bind fun _ => quiet_pure _

theorem quiet_mergePairs (hm : ∀ b p o, Logs p (merger b p o)) {index : Nat}
    {bases overrides : List Schema}
    (hq : ∀ i, index ≤ i → ¬ (path.childIndex i).segments <+: q.segments) :
    Quiet q (mergePairs path index (bases.map (withMerger merger)) overrides) := by
  induction bases generalizing index overrides with
  | nil => exact quiet_pure _
  | cons b bases ih =>
    cases overrides with
    | nil => exact quiet_pure _
    | cons o overrides =>
      refine ((hm b _ o).quiet (hq index (Nat.le_refl _))).bind fun _ => ?_
      exact (ih fun i hi => hq i (by omega)).map

theorem quiet_mergeEntries (hm : ∀ b p o, Logs p (merger b p o))
    {bases merged overrides : List (String × Schema)}
    (hq : ∀ name ∈ Entries.keys overrides, ¬ (path.child name).segments <+: q.segments) :
    Quiet q (mergeEntries path (Entries.mapValues (withMerger merger) bases) merged
      overrides) := by
  induction overrides generalizing merged with
  | nil => exact quiet_pure _
  | cons entry rest ih =>
    obtain ⟨name, o⟩ := entry
    rw [mergeEntries_cons, Entries.get?_mapValues]
    exact ((logs_compositional.mergeEntry hm).quiet (hq name List.mem_cons_self)).bind fun _ =>
      ih fun other hmem => hq other (List.mem_cons_of_mem _ hmem)

theorem quiet_mergeDependencies (hm : ∀ b p o, Logs p (merger b p o))
    {bases merged overrides : List (String × Dependency Schema)} {conflicts : List String}
    (hq : ∀ name ∈ Entries.keys overrides, ¬ (path.child name).segments <+: q.segments) :
    Quiet q (mergeDependencies path
      (Entries.mapValues (Dependency.map (withMerger merger)) bases) merged conflicts
      overrides) := by
  induction overrides generalizing merged conflicts with
  | nil => exact quiet_pure _
  | cons entry rest ih =>
    obtain ⟨name, o⟩ := entry
    unfold mergeDependencies
    rw [Entries.get?_mapValues]
    exact ((logs_compositional.mergeDependency hm).quiet (hq name List.mem_cons_self)).bind
      fun _ => ih fun other hmem => hq other (List.mem_cons_of_mem _ hmem)

theorem quiet_mergeMembers (hm : ∀ b p o, Logs p (merger b p o))
    {base override : List (KeywordKind × Keyword Schema)} {builder : Builder}
    (hq : ∀ kind ∈ Entries.keys override, ¬ (path.child kind.key).segments <+: q.segments) :
    Quiet q (mergeMembers path (Entries.mapValues (Keyword.map (withMerger merger)) base) override
      builder) := by
  induction override generalizing builder with
  | nil => exact quiet_pure _
  | cons member rest ih =>
    obtain ⟨kind, o⟩ := member
    have hrest : ∀ other ∈ Entries.keys rest, ¬ (path.child other.key).segments <+: q.segments :=
      fun other hmem => hq other (List.mem_cons_of_mem _ hmem)
    unfold mergeMembers
    split
    · exact ih hrest
    · exact ((logs_compositional.mergeMember hm).quiet (hq kind List.mem_cons_self)).bind
        fun _ => ih hrest

/-! ## Steps around a step -/

/-- What is reported at the path between two states is what the step reports there. -/
def Through (q : Pointer) (x : MergeM α) (s s' : MergeState) : Prop :=
  ∃ t a t', Gives x t a t' ∧ t.report.actionsAt q = s.report.actionsAt q ∧
    s'.report.actionsAt q = t'.report.actionsAt q

theorem Gives.through {a : α} (h : Gives x s a s') (q : Pointer) : Through q x s s' :=
  ⟨s, a, s', h, rfl, rfl⟩

theorem Through.after (h : Through q x t s')
    (hq : t.report.actionsAt q = s.report.actionsAt q) : Through q x s s' := by
  obtain ⟨t₁, a, t₂, hx, hbefore, hafter⟩ := h
  exact ⟨t₁, a, t₂, hx, hbefore.trans hq, hafter⟩

theorem Through.before (h : Through q x s t)
    (hq : s'.report.actionsAt q = t.report.actionsAt q) : Through q x s s' := by
  obtain ⟨t₁, a, t₂, hx, hbefore, hafter⟩ := h
  exact ⟨t₁, a, t₂, hx, hbefore, hq.trans hafter⟩

theorem through_mergePairs (hm : ∀ b p o, Logs p (merger b p o)) {index i : Nat} {b o : Schema}
    {bases overrides merged : List Schema} (hb : bases[i]? = some b) (ho : overrides[i]? = some o)
    (hq : (path.childIndex (index + i)).segments <+: q.segments)
    (h : Gives (mergePairs path index (bases.map (withMerger merger)) overrides) s merged s') :
    Through q (merger b (path.childIndex (index + i)) o) s s' := by
  induction bases generalizing index i overrides merged s with
  | nil => cases hb
  | cons c bases ih =>
    cases overrides with
    | nil => cases ho
    | cons d overrides =>
      obtain ⟨r, s₁, hr, hrest⟩ := gives_bind.mp h
      obtain ⟨rs, hrs, -⟩ := gives_map.mp hrest
      cases i with
      | zero =>
        cases hb
        cases ho
        refine (hr.through q).before (quiet_mergePairs hm (fun j hj hbelow => ?_) _ _ _ hrs)
        have := Pointer.childIndex_inj hbelow hq
        omega
      | succ i =>
        have hquiet : Quiet q (merger c (path.childIndex index) d) := by
          refine (hm c _ d).quiet fun hbelow => ?_
          have := Pointer.childIndex_inj hbelow hq
          omega
        rw [show index + (i + 1) = index + 1 + i by omega] at hq ⊢
        exact (ih hb ho hq hrs).after (hquiet _ _ _ hr)

theorem through_mergeEntries (hm : ∀ b p o, Logs p (merger b p o)) {name : String} {b o : Schema}
    {bases merged overrides result : List (String × Schema)}
    (hnodup : (Entries.keys overrides).Nodup) (hb : Entries.get? name bases = some b)
    (ho : Entries.get? name overrides = some o)
    (hq : (path.child name).segments <+: q.segments)
    (h : Gives (mergeEntries path (Entries.mapValues (withMerger merger) bases) merged overrides)
      s result s') :
    Through q (merger b (path.child name) o) s s' := by
  induction overrides generalizing merged s with
  | nil => cases ho
  | cons entry rest ih =>
    obtain ⟨first, d⟩ := entry
    obtain ⟨hnew, hrest⟩ := List.nodup_cons.mp hnodup
    rw [mergeEntries_cons, Entries.get?_mapValues] at h
    obtain ⟨r, s₁, hr, htail⟩ := gives_bind.mp h
    by_cases heq : name = first
    · subst heq
      rw [Entries.get?, if_pos rfl] at ho
      cases ho
      rw [hb] at hr
      refine (Gives.through hr q).before (quiet_mergeEntries hm (fun other hmem hbelow => ?_)
        _ _ _ htail)
      exact hnew (Pointer.child_inj hq hbelow ▸ hmem)
    · rw [Entries.get?, if_neg heq] at ho
      refine (ih hrest ho htail).after ((logs_compositional.mergeEntry hm).quiet ?_ _ _ _ hr)
      exact fun hbelow => heq (Pointer.child_inj hq hbelow)

theorem through_mergeDependencies (hm : ∀ b p o, Logs p (merger b p o)) {name : String}
    {b o : Schema} {bases merged overrides : List (String × Dependency Schema)}
    {conflicts : List String} {result : List (String × Dependency Schema) × List String}
    (hnodup : (Entries.keys overrides).Nodup)
    (hb : Entries.get? name bases = some (.schema b))
    (ho : Entries.get? name overrides = some (.schema o))
    (hq : (path.child name).segments <+: q.segments)
    (h : Gives (mergeDependencies path
      (Entries.mapValues (Dependency.map (withMerger merger)) bases) merged conflicts overrides)
      s result s') :
    Through q (merger b (path.child name) o) s s' := by
  induction overrides generalizing merged conflicts s with
  | nil => cases ho
  | cons entry rest ih =>
    obtain ⟨first, d⟩ := entry
    obtain ⟨hnew, hrest⟩ := List.nodup_cons.mp hnodup
    unfold mergeDependencies at h
    rw [Entries.get?_mapValues] at h
    obtain ⟨⟨r, more⟩, s₁, hr, htail⟩ := gives_bind.mp h
    by_cases heq : name = first
    · subst heq
      rw [Entries.get?, if_pos rfl] at ho
      cases ho
      rw [hb] at hr
      obtain ⟨r', hmerged, -⟩ := gives_map.mp hr
      refine (Gives.through hmerged q).before (quiet_mergeDependencies hm
        (fun other hmem hbelow => ?_) _ _ _ htail)
      exact hnew (Pointer.child_inj hq hbelow ▸ hmem)
    · rw [Entries.get?, if_neg heq] at ho
      refine (ih hrest ho htail).after ((logs_compositional.mergeDependency hm).quiet ?_ _ _ _ hr)
      exact fun hbelow => heq (Pointer.child_inj hq hbelow)

/-- Schemas under the same segment of two keywords that fit are merged with each other. -/
theorem through_mergeKeyword (hm : ∀ b p o, Logs p (merger b p o)) {kind : KeywordKind}
    {k l : Keyword Schema} {segment : Option String} {b o : Schema}
    {result : Except MergeFault Merged} (hk : k.distinct = true) (hl : l.distinct = true)
    (hfits : k.fits l = true) (hb : (segment, b) ∈ k.subschemas)
    (ho : (segment, o) ∈ l.subschemas) (hq : (path.under segment).segments <+: q.segments)
    (h : Gives (mergeKeyword kind path (k.map (withMerger merger)) l) s result s') :
    Through q (merger b (path.under segment) o) s s' := by
  have hlists : ∀ {form : List Schema → Keyword Schema} {bs os : List Schema},
      bs.length = os.length → (segment, b) ∈ Keyword.indexed bs →
      (segment, o) ∈ Keyword.indexed os →
      Gives (mergeLists kind path form (bs.map (withMerger merger)) os) s result s' →
      Through q (merger b (path.under segment) o) s s' := by
    intro form bs os hlen hb ho h
    obtain ⟨i, hi, rfl⟩ := Keyword.mem_indexed.mp hb
    obtain ⟨j, hj, heq⟩ := Keyword.mem_indexed.mp ho
    obtain rfl := Pointer.toString_inj (Option.some.inj heq)
    rw [mergeLists, List.length_map, if_pos hlen] at h
    obtain ⟨merged, hmerged, -⟩ := gives_map.mp h
    have hthrough := through_mergePairs (q := q) (i := i) hm hi hj (by rwa [Nat.zero_add]) hmerged
    rwa [Nat.zero_add] at hthrough
  cases k with
  | string | uri | number | count | boolean | names | types | limit | json | jsonList => cases hb
  | union => cases l <;> cases hfits
  | schemaList bs =>
    cases l <;> try cases hfits
    exact hlists (of_decide_eq_true hfits) hb ho h
  | tuple bs =>
    cases l <;> try cases hfits
    exact hlists (of_decide_eq_true hfits) hb ho h
  | schema c | items c =>
    cases l <;> try cases hfits
    obtain ⟨rfl, rfl⟩ := Prod.mk.inj (List.mem_singleton.mp hb)
    obtain ⟨-, rfl⟩ := Prod.mk.inj (List.mem_singleton.mp ho)
    obtain ⟨r, hr, -⟩ := gives_map.mp h
    exact Gives.through hr q
  | schemaMap bs =>
    cases l <;> try cases hfits
    obtain ⟨name, hb', rfl⟩ := (Keyword.mem_subschemas_schemaMap (of_decide_eq_true hk)).mp hb
    obtain ⟨_, ho', heq⟩ := (Keyword.mem_subschemas_schemaMap (of_decide_eq_true hl)).mp ho
    cases heq
    obtain ⟨merged, hmerged, -⟩ := gives_map.mp h
    exact through_mergeEntries hm (of_decide_eq_true hl) hb' ho' hq hmerged
  | dependencies bs =>
    cases l <;> try cases hfits
    obtain ⟨name, hb', rfl⟩ := Keyword.get?_of_mem_subschemas (of_decide_eq_true hk) hb
    obtain ⟨_, ho', heq⟩ := Keyword.get?_of_mem_subschemas (of_decide_eq_true hl) ho
    cases heq
    obtain ⟨⟨merged, conflicts⟩, s₁, hmerged, hpure⟩ := gives_bind.mp h
    obtain ⟨-, rfl⟩ := gives_pure.mp hpure
    exact through_mergeDependencies hm (of_decide_eq_true hl) hb' ho' hq hmerged

theorem through_mergeMembers (hm : ∀ b p o, Logs p (merger b p o)) {kind : KeywordKind}
    {o : Keyword Schema} {base override : List (KeywordKind × Keyword Schema)}
    {builder builder' : Builder} (hkind : kind ≠ .id) (hnodup : (Entries.keys override).Nodup)
    (hunshared : ∀ other ∈ Entries.keys override, other.key = kind.key → other = kind)
    (ho : Entries.get? kind override = some o)
    (hq : (path.child kind.key).segments <+: q.segments)
    (h : Gives (mergeMembers path (Entries.mapValues (Keyword.map (withMerger merger)) base)
      override builder) s builder' s') :
    ∃ b, Through q (mergeMember path (Entries.mapValues (Keyword.map (withMerger merger)) base)
      kind o b) s s' := by
  induction override generalizing builder s with
  | nil => cases ho
  | cons member rest ih =>
    obtain ⟨first, l⟩ := member
    obtain ⟨hnew, hrest⟩ := List.nodup_cons.mp hnodup
    have hothers : ∀ other ∈ Entries.keys rest, other.key = kind.key → other = kind :=
      fun other hmem => hunshared other (List.mem_cons_of_mem _ hmem)
    unfold mergeMembers at h
    by_cases heq : kind = first
    · subst heq
      rw [Entries.get?, if_pos rfl] at ho
      cases ho
      rw [KeywordKind.isIdentity, if_neg (fun hid => hkind (of_decide_eq_true hid))] at h
      obtain ⟨b, s₁, hfirst, htail⟩ := gives_bind.mp h
      refine ⟨builder, (hfirst.through q).before (quiet_mergeMembers hm
        (fun other hmem hbelow => hnew ?_) _ _ _ htail)⟩
      exact hothers other hmem (Pointer.child_inj hbelow hq) ▸ hmem
    · rw [Entries.get?, if_neg heq] at ho
      split at h
      · exact ih hrest hothers ho h
      · obtain ⟨b, s₁, hfirst, htail⟩ := gives_bind.mp h
        obtain ⟨c, hthrough⟩ := ih hrest hothers ho htail
        refine ⟨c, hthrough.after ((logs_compositional.mergeMember hm).quiet ?_ _ _ _ hfirst)⟩
        intro hbelow
        exact heq (hunshared first List.mem_cons_self
          (Pointer.child_inj hbelow hq)).symm

/-! ## Verdicts -/

/-- The action that tells what became of two keywords. -/
def verdict (path : Pointer) : Except MergeFault Merged → MergeAction
  | .ok ⟨_, none⟩ => ⟨path, .merge, none⟩
  | .ok ⟨_, some message⟩ => ⟨path, .conflict, some message⟩
  | .error fault => ⟨path, .error, some fault.message⟩

@[simp] theorem verdict_path (path : Pointer) (result : Except MergeFault Merged) :
    (verdict path result).path = path := by
  rcases result with _ | ⟨_, _ | _⟩ <;> rfl

theorem verdict_verb (path : Pointer) (result : Except MergeFault Merged) :
    (verdict path result).verb ∈ [.merge, .conflict, .error] := by
  rcases result with _ | ⟨_, _ | _⟩ <;> simp [verdict]

theorem verdict_of_mergeMember {bases : List (KeywordKind × Keyword (Schema × Merger))}
    {kind : KeywordKind} {k : Keyword (Schema × Merger)} {o : Keyword Schema}
    {builder builder' : Builder} (hk : Entries.get? kind bases = some k)
    (h : Gives (mergeMember path bases kind o builder) s builder' s') :
    ∃ result t, Gives (mergeKeyword kind (path.child kind.key) k o) s result t ∧
      s'.report.actions = t.report.actions ++ [verdict (path.child kind.key) result] := by
  unfold mergeMember at h
  rw [hk] at h
  obtain ⟨result, t, hresult, hrest⟩ := gives_bind.mp h
  refine ⟨result, t, hresult, ?_⟩
  rcases result with fault | ⟨m, _ | message⟩ <;>
  · obtain ⟨_, s₁, hrecord, hpure⟩ := gives_bind.mp hrest
    obtain ⟨-, rfl⟩ := gives_pure.mp hpure
    rw [gives_record.mp hrecord]
    rfl

/-- The conflict of `false` with another schema. -/
def refusal (path : Pointer) : MergeAction :=
  ⟨path, .conflict, some "false schema cannot be merged"⟩

/-- A merge of two schemas reports a clash at its own path, and nothing else there. -/
theorem own_of_mergeAt {base override R : Schema} (h : Gives (mergeAt path base override) s R s') :
    s'.report.actionsAt path =
      s.report.actionsAt path ++ if base.clash override then [refusal path] else [] := by
  rw [mergeAt_eq] at h
  change Gives (step base (base.body.map (withMerger merging)) path override) s R s' at h
  have hpure : ∀ {S : Schema}, Gives (pure S) s R s' →
      s'.report.actionsAt path = s.report.actionsAt path ++ [] := by
    intro S h
    rw [(gives_pure.mp h).2, List.append_nil]
  have hconflict : Gives (do
        record path .conflict (some "false schema cannot be merged")
        return override) s R s' →
      s'.report.actionsAt path = s.report.actionsAt path ++ [refusal path] := by
    intro h
    obtain ⟨_, s₁, hrecord, hpure⟩ := gives_bind.mp h
    obtain ⟨-, rfl⟩ := gives_pure.mp hpure
    obtain rfl := gives_record.mp hrecord
    rw [actionsAt_of_append rfl]
    simp [refusal]
  have hcombine : Gives (combine base (base.body.map (withMerger merging)) path override) s R s' →
      s'.report.actionsAt path = s.report.actionsAt path ++ [] := by
    intro h
    rw [combine_eq, keywordsOf_map] at h
    obtain ⟨builder, s₁, hmembers, hbuild⟩ := gives_bind.mp h
    have hquiet := quiet_mergeMembers logs_merging
      (fun kind _ => path.not_child_prefix_self kind.key) _ _ _ hmembers
    rw [quiet_onStore _ _ _ _ hbuild, hquiet, List.append_nil]
  unfold step at h
  unfold Schema.clash
  by_cases href : (base.isReference || override.isReference) = true
  · rw [if_pos href] at h
    rw [href]
    exact hpure h
  · rw [if_neg href] at h
    rw [Bool.eq_false_of_not_eq_true href]
    -- Of the booleans that the two can be, `step` and `clash` distinguish the same.
    rcases hbase : base.boolean? with _ | _ | _ <;>
      rcases hover : override.boolean? with _ | _ | _ <;>
        simp only [hbase, hover] at h ⊢ <;> first
          | exact hpure h
          | exact hconflict h
          | exact hcombine h

/-- A merge of two keywords reports at their own path only what a merge of the schemas does
that it holds there, which is then without conflict. -/
theorem own_of_mergeKeyword {kind : KeywordKind} {k l : Keyword Schema}
    {result : Except MergeFault Merged}
    (h : Gives (mergeKeyword kind path (k.map (withMerger merging)) l) s result s') :
    s'.report.actionsAt path =
        s.report.actionsAt path ++ (if k.clash l then [refusal path] else []) ∧
      (k.clash l = true → (verdict path result).verb = .merge) := by
  have hquiet : Quiet path (mergeKeyword kind path (k.map (withMerger merging)) l) →
      k.clash l = false →
      s'.report.actionsAt path =
          s.report.actionsAt path ++ (if k.clash l then [refusal path] else []) ∧
        (k.clash l = true → (verdict path result).verb = .merge) := by
    intro hquiet hclash
    rw [hclash, hquiet _ _ _ h]
    exact ⟨(List.append_nil _).symm, nofun⟩
  cases k with
  | schema b | items b =>
    cases l with
    | schema o | items o =>
      first
        | exact hquiet (quiet_pure _) rfl
        | obtain ⟨r, hr, rfl⟩ := gives_map.mp h
          exact ⟨own_of_mergeAt hr, fun _ => rfl⟩
    | _ => exact hquiet (quiet_pure _) rfl
  | schemaList bs | tuple bs =>
    cases l with
    | schemaList os | tuple os =>
      first
        | exact hquiet (quiet_pure _) rfl
        | refine hquiet ?_ rfl
          simp only [mergeKeyword, Keyword.map, mergeLists]
          split
          · exact (quiet_mergePairs logs_merging
              fun i _ => path.not_child_prefix_self (toString i)).map
          · exact quiet_pure _
    | _ => exact hquiet (quiet_pure _) rfl
  | schemaMap bs =>
    cases l with
    | schemaMap os =>
      exact hquiet (quiet_mergeEntries logs_merging
        fun name _ => path.not_child_prefix_self name).map rfl
    | _ => exact hquiet (quiet_pure _) rfl
  | dependencies bs =>
    cases l with
    | dependencies os =>
      exact hquiet ((quiet_mergeDependencies logs_merging
        fun name _ => path.not_child_prefix_self name).bind fun _ => quiet_pure _) rfl
    | _ => exact hquiet (quiet_pure _) rfl
  | string | uri | number | count | boolean | names | types | union | limit | json | jsonList =>
    cases l <;> exact hquiet (quiet_pure _) rfl

/-- What a merge of two schemas reports at or below the path of a keyword of both comes from
the member of the override. -/
theorem through_mergeAt {base override R : Schema} {kind : KeywordKind} {k l : Keyword Schema}
    (hkind : kind ≠ .id) (hnodup : (Entries.keys override.keywords).Nodup)
    (hk : base.keyword? kind = some k) (hl : override.keyword? kind = some l)
    (hunshared : override.Unshared kind) (hq : (path.child kind.key).segments <+: q.segments)
    (h : Gives (mergeAt path base override) s R s') :
    ∃ builder, Through q (mergeMember path
      (Entries.mapValues (Keyword.map (withMerger merging)) base.keywords) kind l builder) s s' := by
  obtain ⟨href, hbool⟩ := Schema.object_of_keyword? hk
  obtain ⟨href', hbool'⟩ := Schema.object_of_keyword? hl
  rw [mergeAt_of_objects href hbool href' hbool', combine_eq, keywordsOf_map] at h
  obtain ⟨builder, s₁, hmembers, hbuild⟩ := gives_bind.mp h
  obtain ⟨b, hthrough⟩ :=
    through_mergeMembers logs_merging hkind hnodup hunshared hl hq hmembers
  exact ⟨b, hthrough.before (quiet_onStore _ _ _ _ hbuild)⟩

theorem verdict_of_gives {base override R : Schema} {kind : KeywordKind} {k l : Keyword Schema}
    {place : List String} (hbase : base.isStored = true) (hover : override.isStored = true)
    (hkind : kind ≠ .id) (hmet : Keyword.MetAt kind k l base override place)
    (h : Gives (mergeAt path base override) s R s') :
    ∃ result,
      s'.report.actionsAt (path ++ ⟨place⟩) = s.report.actionsAt (path ++ ⟨place⟩) ++
        (if k.clash l then [refusal (path ++ ⟨place⟩)] else []) ++
        [verdict (path ++ ⟨place⟩) result] ∧
      (k.clash l = true → (verdict (path ++ ⟨place⟩) result).verb = .merge) := by
  have hmember : ∀ {base : Schema} {kind k}, base.keyword? kind = some k →
      Entries.get? kind (Entries.mapValues (Keyword.map (withMerger merging)) base.keywords) =
        some (k.map (withMerger merging)) := by
    intro base kind k hk
    rw [Entries.get?_mapValues, show Entries.get? kind base.keywords = some k from hk]
    rfl
  induction hmet generalizing path s R s' with
  | @here base override hk hl hunshared =>
    obtain ⟨hnodup, -⟩ := (Schema.isStored_iff override).mp hover
    obtain ⟨builder, t, b, t', hgives, hbefore, hafter⟩ :=
      through_mergeAt hkind hnodup hk hl hunshared (List.prefix_refl _) h
    obtain ⟨result, t₁, hresult, hreport⟩ := verdict_of_mergeMember (hmember hk) hgives
    obtain ⟨hown, hmerge⟩ := own_of_mergeKeyword hresult
    refine ⟨result, ?_, hmerge⟩
    change s'.report.actionsAt (path.child kind.key) = _
    rw [hafter, actionsAt_of_append hreport, hown, hbefore]
    simp [Pointer.child, Pointer.append_eq]
  | @inside base override b o outer k' l' segment place houter hk hl hunshared hfits hb ho hinner
      ih =>
    obtain ⟨-, hstored⟩ := (Schema.isStored_iff base).mp hbase
    obtain ⟨hnodup, hstored'⟩ := (Schema.isStored_iff override).mp hover
    obtain ⟨hdistinct, hnested⟩ := hstored _ _ (Entries.mem_of_get? hk)
    obtain ⟨hdistinct', hnested'⟩ := hstored' _ _ (Entries.mem_of_get? hl)
    have hq : ((path.child outer.key).under segment).segments <+:
        (path ++ ⟨outer.key :: (segment.toList ++ place)⟩).segments := by
      rw [← Pointer.child_under_append]
      exact List.prefix_append _ _
    have hq' : (path.child outer.key).segments <+:
        (path ++ ⟨outer.key :: (segment.toList ++ place)⟩).segments :=
      ⟨segment.toList ++ place, by simp⟩
    have hne : path.child outer.key ≠ path ++ ⟨outer.key :: (segment.toList ++ place)⟩ := by
      intro heq
      have := congrArg Pointer.segments heq
      simp [hinner.ne_nil] at this
    obtain ⟨builder, t, c, t', hgives, hbefore, hafter⟩ :=
      through_mergeAt houter hnodup hk hl hunshared hq' h
    obtain ⟨result, t₁, hresult, hreport⟩ := verdict_of_mergeMember (hmember hk) hgives
    obtain ⟨t₂, r, t₃, hmerged, hbefore', hafter'⟩ :=
      through_mergeKeyword logs_merging hdistinct hdistinct' hfits hb ho hq hresult
    obtain ⟨verdict', hown, hmerge⟩ := ih (hnested b (List.mem_map_of_mem hb))
      (hnested' o (List.mem_map_of_mem ho)) hmerged
    rw [Pointer.child_under_append] at hown hmerge
    refine ⟨verdict', ?_, hmerge⟩
    rw [hafter, actionsAt_of_append hreport, hafter', hown, hbefore', hbefore]
    simp [hne]

/-- Each keyword that both schemas have gets one verdict: in the report stands a merge, a
conflict or an error at its path, and nothing else, except that a keyword with one schema
which clashes is reported as merged after the conflict of that schema. -/
theorem verdict_of_metAt {base override : Schema} {kind : KeywordKind} {k l : Keyword Schema}
    {place : List String} (path : Pointer) (s : MergeState) (hbase : base.isStored = true)
    (hover : override.isStored = true) (hkind : kind ≠ .id)
    (hmet : Keyword.MetAt kind k l base override place) :
    let s' := ((mergeAt path base override).run s).2
    ∃ verdict : MergeAction, verdict.path = path ++ ⟨place⟩ ∧
      verdict.verb ∈ [.merge, .conflict, .error] ∧
      s'.report.actionsAt (path ++ ⟨place⟩) = s.report.actionsAt (path ++ ⟨place⟩) ++
        (if k.clash l then [⟨path ++ ⟨place⟩, .conflict, some "false schema cannot be merged"⟩]
          else []) ++ [verdict] ∧
      (k.clash l = true → verdict.verb = .merge) := by
  obtain ⟨result, hreport, hmerge⟩ := verdict_of_gives hbase hover hkind hmet
    (show Gives (mergeAt path base override) s _ _ from rfl)
  exact ⟨verdict _ result, verdict_path _ result, verdict_verb _ result, hreport, hmerge⟩

/-- The lengths of the property `x` are replaced: one conflict is reported for them. -/
theorem verdict_of_lengths :
    base₀.isStored = true ∧ over₀.isStored = true ∧
      Keyword.MetAt .minLength (.count 1) (.count 3) base₀ over₀ ["properties", "x", "minLength"] ∧
      let place : Pointer := ⟨["properties", "x", "minLength"]⟩
      let s' := ((mergeAt .root base₀ over₀).run ⟨.empty, .empty⟩).2
      ∃ verdict : MergeAction, verdict.verb ∈ [.merge, .conflict, .error] ∧
        s'.report.actionsAt place = [verdict] := by
  have hbase : base₀.isStored = true := by decide +kernel
  have hover : over₀.isStored = true := by decide +kernel
  have hinner : Keyword.MetAt .minLength (.count 1) (.count 3)
      (sample "a.json" [(.minLength, .count 1)])
      (sample "b.json" [(.minLength, .count 3), (.maxLength, .count 9)]) ["minLength"] :=
    .here rfl rfl (by decide)
  have hunshared : over₀.Unshared .properties := by decide
  have hproperties : KeywordKind.properties ≠ .id := by decide
  have hmet : Keyword.MetAt .minLength (.count 1) (.count 3) base₀ over₀
      ["properties", "x", "minLength"] :=
    .inside hproperties rfl rfl hunshared rfl List.mem_cons_self List.mem_cons_self hinner
  obtain ⟨verdict, -, hverb, hreport, -⟩ :=
    verdict_of_metAt .root ⟨.empty, .empty⟩ hbase hover (by decide) hmet
  exact ⟨hbase, hover, hmet, verdict, hverb, hreport⟩

/-- An override that refuses additional properties gets two verdicts at their path. -/
theorem two_verdicts :
    let base := sample "a.json"
      [(.additionalProperties, .schema (sample "a.json" [(.type, .types [.string])]))]
    let override := sample "b.json" [(.additionalProperties, .schema (.node 0
      (.ofDocument ⟨"http", some "e.com", .segments ["b.json"], none, none⟩) .draft7
      (.boolean false)))]
    let place : Pointer := ⟨["additionalProperties"]⟩
    ((mergeAt .root base override).run ⟨.empty, .empty⟩).2.report.actionsAt place =
      [⟨place, .conflict, some "false schema cannot be merged"⟩, ⟨place, .merge, none⟩] := by
  decide +kernel

end Merge

end SchemaAtlas
