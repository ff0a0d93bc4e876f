import SchemaAtlas.Proofs.Merge.Overlay

/-!
# Keywords that cannot be merged

Whether two keywords can be merged is settled by their forms, before any schema nested in
them is merged: a merge that is refused is no more than the fault. A merge adds to the report
without reading it (`Logs`), so of a refused keyword one error remains, and all else is as if
the override did not have it.
-/

namespace SchemaAtlas

namespace Schema

/-- The schema without a keyword. -/
def without (kind : KeywordKind) : Schema → Schema
  | .node id location draft (.object keywords extra) =>
    .node id location draft (.object (Entries.erase kind keywords) extra)
  | s => s

theorem object_of_keyword? {s : Schema} {kind : KeywordKind} {k : Keyword Schema}
    (h : s.keyword? kind = some k) : s.isReference = false ∧ s.boolean? = none := by
  obtain ⟨id, location, draft, body⟩ := s
  cases body with
  | object => exact ⟨rfl, rfl⟩
  | boolean | reference => cases h

end Schema

namespace Merge

variable {s s' : MergeState} {path : Pointer} {kind : KeywordKind}
  {k o : Keyword Schema} {fault : MergeFault} {merger : Schema → Merger}

/-- A step adds to the report, at a path and below it, what does not depend on the report. -/
def Logs (path : Pointer) {α : Type} (x : MergeM α) : Prop :=
  ∀ s a s', Gives x s a s' → ∃ log,
    (∀ action ∈ log, path.segments <+: action.path.segments) ∧
    s'.report.actions = s.report.actions ++ log ∧
    ∀ report : MergeReport, Gives x ⟨s.store, report⟩ a ⟨s'.store, ⟨report.actions ++ log⟩⟩

theorem logs_compositional : Compositional Logs where
  pure path a s b s' h := by
    obtain ⟨rfl, rfl⟩ := gives_pure.mp h
    refine ⟨[], nofun, (List.append_nil _).symm, fun report => gives_pure.mpr ⟨rfl, ?_⟩⟩
    rw [List.append_nil]
  bind hx hf s b s' h := by
    obtain ⟨a, s₁, ha, hb⟩ := gives_bind.mp h
    obtain ⟨first, hfirst, hreport, hgives⟩ := hx _ _ _ ha
    obtain ⟨second, hsecond, hreport', hgives'⟩ := hf a _ _ _ hb
    refine ⟨first ++ second, fun action hmem => ?_, ?_, fun report => ?_⟩
    · exact (List.mem_append.mp hmem).elim (hfirst action) (hsecond action)
    · rw [hreport', hreport, List.append_assoc]
    · rw [← List.append_assoc]
      exact gives_bind.mpr ⟨a, _, hgives report, hgives' _⟩
  record path verb message s u s' h := by
    obtain rfl := gives_record.mp h
    refine ⟨[⟨path, verb, message⟩], fun action hmem => ?_, rfl, fun report => gives_record.mpr rfl⟩
    obtain rfl := List.mem_singleton.mp hmem
    exact List.prefix_refl _
  onStore path step s a s' h := by
    obtain ⟨rfl, rfl⟩ := gives_onStore.mp h
    refine ⟨[], nofun, (List.append_nil _).symm, fun report => gives_onStore.mpr ⟨rfl, ?_⟩⟩
    rw [List.append_nil]
  child h s a s' hx := by
    obtain ⟨log, hlog, hgives⟩ := h s a s' hx
    exact ⟨log, fun action hmem => (List.prefix_append _ _).trans (hlog action hmem), hgives⟩

/-- Two keywords that do not fit are refused at once. -/
theorem mergeKeyword_of_not_fits (kind : KeywordKind) (merger : Schema → Merger)
    (h : k.fits o = false) :
    ∃ fault, ∀ path, mergeKeyword kind path (k.map (withMerger merger)) o =
      pure (.error fault) := by
  cases k with
  | schemaList bs =>
    cases o with
    | schemaList os =>
      refine ⟨.unpaired kind.key bs.length os.length, fun path => ?_⟩
      simp only [mergeKeyword, Keyword.map, mergeLists, List.length_map]
      exact if_neg (of_decide_eq_false h)
    | _ => exact ⟨_, fun _ => rfl⟩
  | tuple bs =>
    cases o with
    | tuple os =>
      refine ⟨.unpaired kind.key bs.length os.length, fun path => ?_⟩
      simp only [mergeKeyword, Keyword.map, mergeLists, List.length_map]
      exact if_neg (of_decide_eq_false h)
    | _ => exact ⟨_, fun _ => rfl⟩
  | string | uri | number | count | boolean | json | names | types | jsonList | limit | union
  | schema | items | schemaMap | dependencies =>
    cases o <;> first
      | exact ⟨_, fun _ => rfl⟩
      | cases h

/-- A merge of two keywords that is refused is no more than the fault, at every path. -/
theorem mergeKeyword_of_error
    (h : Gives (mergeKeyword kind path (k.map (withMerger merger)) o) s (.error fault) s')
    (path' : Pointer) :
    mergeKeyword kind path' (k.map (withMerger merger)) o = pure (.error fault) := by
  obtain ⟨fault', hpure⟩ := mergeKeyword_of_not_fits kind merger (fits_of_mergeKeyword h)
  rw [hpure] at h
  cases (gives_pure.mp h).1
  exact hpure path'

variable {base override : List (KeywordKind × Keyword Schema)} {builder builder' : Builder}

/-- Of a member that is refused remains an error; the others are merged as if it were not
there. -/
theorem refused_of_mergeMembers (hm : ∀ b p o, Logs p (merger b p o)) (hkind : kind ≠ .id)
    (hover : (Entries.keys override).Nodup) (hk : Entries.get? kind base = some k)
    (ho : Entries.get? kind override = some o)
    (hrefused : ∀ path, mergeKeyword kind path (k.map (withMerger merger)) o =
      pure (.error fault))
    (h : Gives (mergeMembers path (Entries.mapValues (Keyword.map (withMerger merger)) base)
      override builder) s builder' s') :
    builder'.keyword? kind = builder.keyword? kind ∧ ∃ before after,
      s'.report.actions = s.report.actions ++ before ++
        ⟨path.child kind.key, .error, some fault.message⟩ :: after ∧
      Gives (mergeMembers path (Entries.mapValues (Keyword.map (withMerger merger)) base)
        (Entries.erase kind override) builder) s builder'
        ⟨s'.store, ⟨s.report.actions ++ before ++ after⟩⟩ := by
  induction override generalizing builder s with
  | nil => cases ho
  | cons member rest ih =>
    obtain ⟨first, l⟩ := member
    obtain ⟨hnew, hrest⟩ := List.nodup_cons.mp hover
    unfold mergeMembers at h
    by_cases heq : kind = first
    · subst heq
      rw [Entries.get?, if_pos rfl] at ho
      cases ho
      rw [KeywordKind.isIdentity, if_neg (fun hid => hkind (of_decide_eq_true hid))] at h
      obtain ⟨b, s₁, hfirst, htail⟩ := gives_bind.mp h
      unfold mergeMember at hfirst
      rw [Entries.get?_mapValues, hk] at hfirst
      simp only [Option.map_some, hrefused, pure_bind] at hfirst
      obtain ⟨_, _, hrecord, hpure⟩ := gives_bind.mp hfirst
      obtain ⟨rfl, rfl⟩ := gives_pure.mp hpure
      obtain rfl := gives_record.mp hrecord
      obtain ⟨after, -, hreport, hgives⟩ := logs_compositional.mergeMembers hm _ _ _ htail
      refine ⟨others_of_mergeMembers (Or.inr hnew) htail, [], after, ?_, ?_⟩
      · rw [hreport]
        simp
      · rw [List.append_nil, Entries.erase, if_pos rfl]
        exact hgives s.report
    · rw [Entries.get?, if_neg heq] at ho
      rw [Entries.erase, if_neg heq, mergeMembers]
      split at h
      · rename_i hid
        rw [if_pos hid]
        exact ih hrest ho h
      · rename_i hid
        rw [if_neg hid]
        obtain ⟨b, s₁, hfirst, htail⟩ := gives_bind.mp h
        obtain ⟨log, -, hlog, -⟩ := logs_compositional.mergeMember hm _ _ _ hfirst
        obtain ⟨hkeyword, before, after, hreport, hgives⟩ := ih hrest ho htail
        refine ⟨hkeyword.trans ?_, log ++ before, after, ?_, ?_⟩
        · rcases puts_of_mergeMember hfirst with rfl | ⟨m, rfl⟩
          · rfl
          · rw [keyword?_put, if_neg heq]
        · rw [hreport, hlog]
          simp
        · rw [hlog] at hgives
          simp only [List.append_assoc] at hgives ⊢
          exact gives_bind.mpr ⟨b, s₁, hfirst, hgives⟩

/-- Two object schemas are merged keyword by keyword. -/
theorem mergeAt_of_objects {base override : Schema} (href : base.isReference = false)
    (hbool : base.boolean? = none) (href' : override.isReference = false)
    (hbool' : override.boolean? = none) :
    mergeAt path base override =
      combine base (base.body.map (withMerger merging)) path override := by
  rw [mergeAt_eq, step, href, href', Bool.or_false, if_neg Bool.false_ne_true, hbool, hbool']

/-- A keyword merge that fails has no effect. Where a merge of two schemas comes to it, the
base's keyword stays, and the report has one error for it; all else is as if the override did
not have the keyword. -/
theorem atomic_of_mergeKeywords
    (h : (mergeKeywords kind path k o).run s = (.error fault, s')) :
    s' = s ∧ ∀ {base override : Schema}, kind ≠ .id →
      (Entries.keys override.keywords).Nodup → base.keyword? kind = some k →
      override.keyword? kind = some o → ∀ (place : Pointer) (t : MergeState),
        let (R, t') := (mergeAt place base override).run t
        let (R', t'') := (mergeAt place base (override.without kind)).run t
        R' = R ∧ t''.store = t'.store ∧ R.keyword? kind = some k ∧ ∃ before after,
          t'.report.actions = t.report.actions ++ before ++
            ⟨place.child kind.key, .error, some fault.message⟩ :: after ∧
          t''.report.actions = t.report.actions ++ before ++ after := by
  change Gives (mergeKeyword kind path (k.map (withMerger merging)) o) s (.error fault) s' at h
  have hrefused := mergeKeyword_of_error h
  rw [hrefused] at h
  refine ⟨(gives_pure.mp h).2, fun {base override} hkind hover hk ho place t => ?_⟩
  obtain ⟨href, hbool⟩ := Schema.object_of_keyword? hk
  obtain ⟨href', hbool'⟩ := Schema.object_of_keyword? ho
  obtain ⟨id, location, draft, body⟩ := override
  cases body with
  | boolean | reference => cases ho
  | object members extra =>
    generalize hrun : (mergeAt place base _).run t = run
    obtain ⟨R, t'⟩ := run
    change Gives _ t R t' at hrun
    rw [mergeAt_of_objects href hbool href' hbool', combine_eq, keywordsOf_map] at hrun
    obtain ⟨builder, t₁, hmembers, hbuild⟩ := gives_bind.mp hrun
    obtain ⟨hkeyword, before, after, hreport, hgives⟩ := refused_of_mergeMembers
      (fun b p o => logs_compositional.mergeAt p b o) hkind hover hk ho hrefused hmembers
    obtain ⟨hkeywords, hreference⟩ := foldl_putExtra extra builder
    have hstart : (start base (.node id location draft (.object members extra))).reference = none :=
      reference_ofSchema href
    have hbuilder : builder.reference = none := holds_of_mergeMembers
      (P := fun b => b.reference = none) (fun _ _ _ _ hb => hb) hstart hmembers
    have hR : R.keyword? kind = some k := by
      rw [Schema.keyword?, keywords_of_build (hreference.trans hbuilder) hbuild, hkeywords]
      exact hkeyword.trans ((keyword?_start hkind).trans hk)
    obtain ⟨hbuilt, ht'⟩ := gives_onStore.mp hbuild
    have hwithout : Gives (mergeAt place base
        (.node id location draft (.object (Entries.erase kind members) extra))) t R
        ⟨t'.store, ⟨t.report.actions ++ before ++ after⟩⟩ := by
      rw [mergeAt_of_objects href hbool rfl rfl, combine_eq, keywordsOf_map, ht']
      exact gives_bind.mpr ⟨builder, _, hgives, gives_onStore.mpr ⟨hbuilt, rfl⟩⟩
    have hreport' : t'.report.actions = _ := (congrArg (·.report.actions) ht').trans hreport
    simp only [Schema.without]
    rw [show (mergeAt place base _).run t = _ from hwithout]
    exact ⟨rfl, rfl, hR, before, after, hreport', rfl⟩

/-- A list of one schema and a list of two cannot be paired, so the first stays. -/
theorem atomic_of_lists :
    let k : Keyword Schema := .schemaList [sample "a.json" [(.type, .types [.string])]]
    let o : Keyword Schema := .schemaList [sample "b.json" [], sample "b.json" []]
    let s : MergeState := ⟨.empty, .empty⟩
    (mergeKeywords .allOf .root k o).run s = (.error (.unpaired "allOf" 1 2), s) ∧
      base₀.keyword? .allOf = some k ∧ over₀.keyword? .allOf = some o ∧
      let (R, t') := (mergeAt .root base₀ over₀).run s
      let (R', t'') := (mergeAt .root base₀ (over₀.without .allOf)).run s
      R' = R ∧ t''.store = t'.store ∧ R.keyword? .allOf = some k ∧ ∃ before after,
        t'.report.actions = [] ++ before ++ ⟨Pointer.root.child "allOf", .error,
          some (MergeFault.unpaired "allOf" 1 2).message⟩ :: after ∧
        t''.report.actions = [] ++ before ++ after := by
  intro k o s
  have hrefused : (mergeKeywords .allOf .root k o).run s =
      (.error (.unpaired "allOf" 1 2), s) := rfl
  have hk : base₀.keyword? .allOf = some k := rfl
  have ho : over₀.keyword? .allOf = some o := rfl
  exact ⟨hrefused, hk, ho,
    (atomic_of_mergeKeywords hrefused).2 (by decide) (by decide) hk ho .root s⟩

end Merge

end SchemaAtlas
