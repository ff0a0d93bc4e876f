import SchemaAtlas.Proofs.Merge.Keyword

/-!
# What a merge keeps

`meetings` lists the pairs of nodes that a merge comes to. If no reference is among them,
each node of the base is in the result with its keywords and their content unless a conflict
is reported at the keyword or above it, and each node of the override unless an error is.
What one keyword becomes (`MemberFate`) gives what the keywords of a node become
(`Combined`); nested schemas follow by induction on the base.
-/

namespace SchemaAtlas

namespace Keyword

theorem distinct_map {σ τ : Type} (f : σ → τ) (k : Keyword σ) :
    (k.map f).distinct = k.distinct := by
  cases k <;> simp [map, distinct, Entries.keys_mapValues]

theorem mem_nodes_of_mem_pairs {b o : Schema} {k l : Keyword Schema} (h : (b, o) ∈ k.pairs l) :
    b ∈ k.nodes ∧ o ∈ l.nodes := by
  cases k with
  | string | uri | number | count | boolean | names | types | union | limit | json
  | jsonList => cases l <;> cases h
  | schema | items =>
    cases l <;> cases h
    · exact ⟨List.mem_cons_self, List.mem_cons_self⟩
    · contradiction
  | schemaList bs | tuple bs =>
    cases l <;> try cases h
    simp only [pairs] at h
    split at h
    · have hmem := List.of_mem_zip h
      simpa [nodes, subschemas] using hmem
    · cases h
  | schemaMap bs =>
    cases l <;> try cases h
    obtain ⟨⟨name, c⟩, hmem, hpair⟩ := List.mem_filterMap.mp h
    obtain ⟨b', hb, heq⟩ := Option.map_eq_some_iff.mp hpair
    cases heq
    refine ⟨List.mem_map.mpr ⟨(some name, b), ?_, rfl⟩, List.mem_map.mpr ⟨(some name, o), ?_, rfl⟩⟩
    · exact List.mem_map.mpr ⟨_, Entries.mem_of_get? hb, rfl⟩
    · exact List.mem_map.mpr ⟨_, hmem, rfl⟩
  | dependencies bs =>
    cases l <;> try cases h
    obtain ⟨⟨name, d⟩, hmem, hpair⟩ := List.mem_filterMap.mp h
    simp only at hpair
    split at hpair
    · rename_i b' o' hb
      cases hpair
      exact ⟨List.mem_map_of_mem (mem_subschemas_dependencies hb),
        List.mem_map.mpr ⟨(some name, o), List.mem_filterMap.mpr ⟨_, hmem, rfl⟩, rfl⟩⟩
    · cases hpair

end Keyword

namespace Schema

/-- The meetings of a keyword of the base with that of the override, from those of their
nested schemas. -/
def meetMember {σ : Type} (meet : σ → Schema → List (Schema × Schema)) (override : Schema)
    (member : KeywordKind × Keyword σ) : List (Schema × Schema) :=
  match override.keyword? member.1 with
  | some l =>
    if member.1 = .id then [] else (member.2.pairs l).flatMap fun pair => meet pair.1 pair.2
  | none => []

/-- The pairs of nodes that a merge of two schemas comes to. -/
def meetings (base override : Schema) : List (Schema × Schema) :=
  descend (fun s body override =>
    (s, override) :: (Merge.keywordsOf body).flatMap (meetMember (fun b => b.2) override))
    base override

theorem meetings_eq (base override : Schema) :
    base.meetings override =
      (base, override) :: base.keywords.flatMap (meetMember meetings override) := by
  rw [meetings, descend_node]
  congr 1
  obtain ⟨id, location, draft, body⟩ := base
  cases body with
  | boolean | reference => rfl
  | object members extra =>
    change List.flatMap _ (members.map _) = List.flatMap _ members
    rw [List.flatMap_map]
    congr 1
    funext entry
    simp only [meetMember, Keyword.pairs_map, List.flatMap_map]
    rfl

theorem mem_meetings_self (base override : Schema) : (base, override) ∈ base.meetings override := by
  rw [meetings_eq]
  exact List.mem_cons_self

theorem meetings_subset {base override b o : Schema} {kind : KeywordKind} {k l : Keyword Schema}
    (hkind : kind ≠ .id) (hk : base.keyword? kind = some k) (hl : override.keyword? kind = some l)
    (h : (b, o) ∈ k.pairs l) : b.meetings o ⊆ base.meetings override := by
  intro pair hpair
  rw [meetings_eq base override]
  refine List.mem_cons_of_mem _ (List.mem_flatMap.mpr ⟨(kind, k), Entries.mem_of_get? hk, ?_⟩)
  simp only [meetMember, hl, if_neg hkind]
  exact List.mem_flatMap.mpr ⟨(b, o), h, hpair⟩

/-- What holds for a stored node: its keys are distinct, and its nested schemas are stored. -/
theorem isStored_iff (s : Schema) : s.isStored = true ↔
    (Entries.keys s.keywords).Nodup ∧ ∀ kind k, (kind, k) ∈ s.keywords →
      k.distinct = true ∧ ∀ c ∈ k.nodes, c.isStored = true := by
  rw [isStored, descend_node]
  obtain ⟨id, location, draft, body⟩ := s
  cases body with
  | boolean | reference => simp [Schema.body, Body.map, Schema.keywords, Entries.keys]
  | object members extra =>
    simp only [Schema.body, Body.map, Schema.keywords, Bool.and_eq_true, decide_eq_true_eq,
      Entries.keys_mapValues, List.all_eq_true]
    refine and_congr_right fun _ => ⟨fun h kind k hk => ?_, fun h entry hentry => ?_⟩
    · obtain ⟨hdistinct, hnodes⟩ := h _ (List.mem_map_of_mem hk)
      rw [Keyword.distinct_map] at hdistinct
      refine ⟨hdistinct, fun c hc => hnodes (c, c.isStored) ?_⟩
      rw [Keyword.nodes_map]
      exact List.mem_map_of_mem hc
    · obtain ⟨⟨kind, k⟩, hk, rfl⟩ := List.mem_map.mp hentry
      obtain ⟨hdistinct, hnodes⟩ := h kind k hk
      refine ⟨(Keyword.distinct_map _ k).trans hdistinct, fun pair hpair => ?_⟩
      rw [Keyword.nodes_map] at hpair
      obtain ⟨c, hc, rfl⟩ := List.mem_map.mp hpair
      exact hnodes c hc

/-! ## Keeping -/

section

variable {clear clear' : Pointer → Prop} {path : Pointer} {s r : Schema}

theorem KeptIn.refl (clear : Pointer → Prop) (path : Pointer) (s : Schema) :
    s.KeptIn clear path s :=
  fun _ c hnode _ => ⟨c, hnode, fun h => h, fun h => h, fun _ hk _ => ⟨_, hk, .refl _⟩⟩

theorem KeptIn.mono (h : s.KeptIn clear path r) (hclear : ∀ p, clear' p → clear p) :
    s.KeptIn clear' path r := by
  intro q c hnode hq
  obtain ⟨c', hnode', hretains⟩ := h q c hnode (hclear _ hq)
  exact ⟨c', hnode', hretains.refusal, hretains.reference,
    fun hkind hk hp => hretains.keyword hkind hk (hclear _ hp)⟩

/-- Keeping passes from the entries of the keywords to the node. -/
theorem KeptIn.of_entries (habove : ∀ {p more}, clear (p ++ ⟨more⟩) → clear p)
    (hrefusal : clear path → s.boolean? = some false → r.boolean? = some false)
    (hreference : clear path → ∀ {reference}, s.reference? = some reference →
      r.reference? = some reference)
    (hkeyword : ∀ {kind k}, kind ≠ .id → s.keyword? kind = some k →
      clear (path.child kind.key) → ∃ k', r.keyword? kind = some k' ∧ k.PlainContained k' ∧
        ∀ {segment c}, (segment, c) ∈ k.subschemas → ∃ c', (segment, c') ∈ k'.subschemas ∧
          c.KeptIn clear ((path.child kind.key).under segment) c') :
    s.KeptIn clear path r := by
  intro q c hnode hq
  cases hnode with
  | self =>
    refine ⟨r, .self r, hrefusal (habove hq), hreference (habove hq), fun hkind hk hp => ?_⟩
    rw [Pointer.append_eq, List.append_nil] at hp
    obtain ⟨k', hk', hplain, hentries⟩ := hkeyword hkind hk hp
    exact ⟨k', hk', hplain, fun hc => let ⟨c', hc', _⟩ := hentries hc; ⟨c', hc'⟩⟩
  | @inside _ child _ kind k segment q hkind hk hchild hnode =>
    rw [← Pointer.child_under_append] at hq ⊢
    have hp : clear (path.child kind.key) := by
      cases segment with
      | none => exact habove hq
      | some segment => exact @habove _ [segment] (habove hq)
    obtain ⟨k', hk', -, hentries⟩ := hkeyword hkind hk hp
    obtain ⟨c', hc', hkept⟩ := hentries hchild
    obtain ⟨t, ht, hretains⟩ := hkept q c hnode hq
    exact ⟨t, .inside hkind hk' hc' ht, hretains⟩

theorem KeptIn.of_not_clear (habove : ∀ {p more}, clear (p ++ ⟨more⟩) → clear p)
    (h : ¬ clear path) : s.KeptIn clear path r :=
  fun _ _ _ hq => absurd (habove hq) h

theorem KeptIn.of_boolean {value : Bool} (habove : ∀ {p more}, clear (p ++ ⟨more⟩) → clear p)
    (h : s.boolean? = some value) (hrefusal : value = false → r.boolean? = some false) :
    s.KeptIn clear path r := by
  obtain ⟨id, location, draft, body⟩ := s
  cases body with
  | object | reference => cases h
  | boolean b =>
    cases h
    refine .of_entries habove (fun _ hfalse => hrefusal (Option.some.inj hfalse))
      (fun _ _ href => by cases href) fun _ hk => by cases hk

end

end Schema

namespace Merge

variable {s s' : MergeState} {merger : Schema → Merger} {report : MergeReport} {path : Pointer}

/-- What a keyword of the override becomes beside that of the base, if there is one. -/
inductive MemberFate (merger : Schema → Merger) (report : MergeReport) (path : Pointer) :
    Option (Keyword Schema) → Keyword Schema → Option (Keyword Schema) → Prop
  | added (o : Keyword Schema) : MemberFate merger report path none o (some o)
  | blended {k o : Keyword Schema} {m : Merged} : Blend merger report path k o m →
      (m.conflict ≠ none → ¬ report.Clear .conflict path) →
      MemberFate merger report path (some k) o (some m.keyword)
  | refused {k o : Keyword Schema} : ¬ report.Clear .error path →
      MemberFate merger report path (some k) o (some k)

theorem MemberFate.mono {report' : MergeReport} {k? k'? : Option (Keyword Schema)}
    {o : Keyword Schema} (h : MemberFate merger report path k? o k'?)
    (hr : report.actions ⊆ report'.actions) : MemberFate merger report' path k? o k'? := by
  cases h with
  | added => exact .added o
  | blended hblend hconflict =>
    exact .blended (hblend.mono hr) fun hne hclear => hconflict hne (hclear.mono hr)
  | refused herror => exact .refused fun hclear => herror (hclear.mono hr)

variable {base : List (KeywordKind × Keyword Schema)} {kind : KeywordKind} {o : Keyword Schema}
  {builder builder' : Builder}

namespace Compositional

variable {P : Pointer → ∀ {α : Type}, MergeM α → Prop}

theorem mergeMember (hP : Compositional P) (hm : ∀ b p o, P p (merger b p o)) :
    P (path.child kind.key) (mergeMember path
      (Entries.mapValues (Keyword.map (withMerger merger)) base) kind o builder) := by
  unfold Merge.mergeMember
  simp only [Entries.get?_mapValues]
  cases Entries.get? kind base with
  | none => exact hP.bind (hP.record _ _ _) fun _ => hP.pure _ _
  | some k =>
    refine hP.bind (hP.mergeKeyword hm) fun result => ?_
    cases result with
    | error fault => exact hP.bind (hP.record _ _ _) fun _ => hP.pure _ _
    | ok m =>
      cases hc : m.conflict <;> simp only [hc] <;>
        exact hP.bind (hP.record _ _ _) fun _ => hP.pure _ _

theorem mergeMembers (hP : Compositional P) (hm : ∀ b p o, P p (merger b p o))
    {override : List (KeywordKind × Keyword Schema)} :
    P path (mergeMembers path (Entries.mapValues (Keyword.map (withMerger merger)) base) override
      builder) := by
  induction override generalizing builder with
  | nil => exact hP.pure _ _
  | cons member rest ih =>
    unfold Merge.mergeMembers
    split
    · exact ih
    · exact hP.bind (hP.child (hP.mergeMember hm)) fun _ => ih

end Compositional

theorem adds_mergeMembers (hm : ∀ b p o, Adds (merger b p o))
    {override : List (KeywordKind × Keyword Schema)} :
    Adds (mergeMembers path (Entries.mapValues (Keyword.map (withMerger merger)) base) override
      builder) :=
  adds_compositional.mergeMembers hm

theorem keyword?_put (builder : Builder) (kind other : KeywordKind) (k : Keyword Schema) :
    (builder.put kind k).keyword? other =
      if other = kind then some k else builder.keyword? other :=
  Entries.get?_insert kind other k builder.keywords

/-- What is done with one member of the override, beside the keyword of the base. -/
inductive MemberStep (path : Pointer) (kind : KeywordKind) (o : Keyword Schema)
    (builder : Builder) (s s' : MergeState) :
    Option (Keyword (Schema × Merger)) → Builder → Prop
  | added : MemberStep path kind o builder s s' none (builder.put kind o)
  | merged {k : Keyword (Schema × Merger)} {m : Merged} {s₁ : MergeState} :
      Gives (mergeKeyword kind path k o) s (.ok m) s₁ → s₁.report.actions ⊆ s'.report.actions →
      (m.conflict ≠ none → ⟨path, .conflict, m.conflict⟩ ∈ s'.report.actions) →
      MemberStep path kind o builder s s' (some k) (builder.put kind m.keyword)
  | refused {k : Keyword (Schema × Merger)} {fault : MergeFault} {s₁ : MergeState} :
      Gives (mergeKeyword kind path k o) s (.error fault) s₁ →
      ⟨path, .error, some fault.message⟩ ∈ s'.report.actions →
      MemberStep path kind o builder s s' (some k) builder

theorem step_of_mergeMember {bases : List (KeywordKind × Keyword (Schema × Merger))}
    (h : Gives (mergeMember path bases kind o builder) s builder' s') :
    MemberStep (path.child kind.key) kind o builder s s' (Entries.get? kind bases) builder' := by
  unfold mergeMember at h
  cases hk : Entries.get? kind bases with
  | none =>
    rw [hk] at h
    obtain ⟨_, _, _, hpure⟩ := gives_bind.mp h
    obtain ⟨rfl, -⟩ := gives_pure.mp hpure
    exact .added
  | some k =>
    rw [hk] at h
    obtain ⟨result, s₁, hresult, hrest⟩ := gives_bind.mp h
    cases result with
    | ok m =>
      cases hc : m.conflict with
      | none =>
        simp only [hc] at hrest
        obtain ⟨_, s₂, hrecord, hpure⟩ := gives_bind.mp hrest
        obtain ⟨rfl, rfl⟩ := gives_pure.mp hpure
        exact .merged hresult (adds_record _ _ _ _ _ _ hrecord) fun hsome => absurd hc hsome
      | some message =>
        simp only [hc] at hrest
        obtain ⟨_, s₂, hrecord, hpure⟩ := gives_bind.mp hrest
        obtain ⟨rfl, rfl⟩ := gives_pure.mp hpure
        refine .merged hresult (adds_record _ _ _ _ _ _ hrecord) fun _ => ?_
        rw [gives_record.mp hrecord, hc]
        exact List.mem_append_right _ List.mem_cons_self
    | error fault =>
      obtain ⟨_, s₂, hrecord, hpure⟩ := gives_bind.mp hrest
      obtain ⟨rfl, rfl⟩ := gives_pure.mp hpure
      refine .refused hresult ?_
      rw [gives_record.mp hrecord]
      exact List.mem_append_right _ List.mem_cons_self

/-- A keyword of the override is merged with that of the base. -/
theorem fate_of_mergeMember (hm : ∀ b p o, Adds (merger b p o))
    (hbase : ∀ k, Entries.get? kind base = some k →
      k.distinct = true ∧ builder.keyword? kind = some k)
    (ho : o.distinct = true)
    (h : Gives (mergeMember path (Entries.mapValues (Keyword.map (withMerger merger)) base) kind
      o builder) s builder' s') :
    MemberFate merger s'.report (path.child kind.key) (Entries.get? kind base) o
      (builder'.keyword? kind) := by
  have hstep := step_of_mergeMember h
  rw [Entries.get?_mapValues] at hstep
  cases hk : Entries.get? kind base with
  | none =>
    rw [hk] at hstep
    cases hstep
    rw [keyword?_put, if_pos rfl]
    exact .added o
  | some k =>
    obtain ⟨hdistinct, hbuilder⟩ := hbase k hk
    rw [hk] at hstep
    cases hstep with
    | merged hresult hgrows hconflict =>
      rw [keyword?_put, if_pos rfl]
      exact .blended ((blend_of_gives hm hdistinct ho hresult).mono hgrows) fun hsome =>
        MergeReport.not_clear_of_mem (hconflict hsome)
    | refused _ herror =>
      rw [hbuilder]
      exact .refused (MergeReport.not_clear_of_mem herror)

/-- One member puts in one keyword, if any. -/
theorem puts_of_mergeMember {bases : List (KeywordKind × Keyword (Schema × Merger))}
    (h : Gives (mergeMember path bases kind o builder) s builder' s') :
    builder' = builder ∨ ∃ k, builder' = builder.put kind k := by
  have hstep := step_of_mergeMember h
  generalize Entries.get? kind bases = k at hstep
  cases hstep with
  | added => exact Or.inr ⟨o, rfl⟩
  | merged => exact Or.inr ⟨_, rfl⟩
  | refused => exact Or.inl rfl

/-- What holds of a builder and stays when a keyword is put in holds after all members. -/
theorem holds_of_mergeMembers {P : Builder → Prop}
    (hput : ∀ b kind k, kind ≠ .id → P b → P (b.put kind k))
    {bases : List (KeywordKind × Keyword (Schema × Merger))}
    {override : List (KeywordKind × Keyword Schema)} (hP : P builder)
    (h : Gives (mergeMembers path bases override builder) s builder' s') : P builder' := by
  induction override generalizing builder s with
  | nil =>
    obtain ⟨rfl, -⟩ := gives_pure.mp h
    exact hP
  | cons member rest ih =>
    unfold mergeMembers at h
    split at h
    · exact ih hP h
    · rename_i hid
      obtain ⟨b, _, hfirst, htail⟩ := gives_bind.mp h
      refine ih ?_ htail
      rcases puts_of_mergeMember hfirst with rfl | ⟨k, rfl⟩
      · exact hP
      · exact hput _ _ k (fun heq => hid (decide_eq_true heq)) hP

/-- Other keywords than those of the override stay. -/
theorem others_of_mergeMembers {bases : List (KeywordKind × Keyword (Schema × Merger))}
    {override : List (KeywordKind × Keyword Schema)} {kind : KeywordKind}
    (hkind : kind = .id ∨ kind ∉ Entries.keys override)
    (h : Gives (mergeMembers path bases override builder) s builder' s') :
    builder'.keyword? kind = builder.keyword? kind := by
  induction override generalizing builder s with
  | nil =>
    obtain ⟨rfl, -⟩ := gives_pure.mp h
    rfl
  | cons member rest ih =>
    have hrest := hkind.imp_right fun hnot hmem => hnot (List.mem_cons_of_mem _ hmem)
    unfold mergeMembers at h
    split at h
    · exact ih hrest h
    · rename_i hid
      obtain ⟨b, _, hfirst, htail⟩ := gives_bind.mp h
      rw [ih hrest htail]
      rcases puts_of_mergeMember hfirst with rfl | ⟨k, rfl⟩
      · rfl
      · rw [keyword?_put, if_neg]
        rintro rfl
        rcases hkind with hkind | hkind
        · exact hid (decide_eq_true hkind)
        · exact hkind List.mem_cons_self

/-- A member of the override was merged on the way, with the keyword of its kind as it was at
the beginning, and has not changed since. -/
theorem member_of_mergeMembers (hm : ∀ b p o, Adds (merger b p o))
    {override : List (KeywordKind × Keyword Schema)} (hover : (Entries.keys override).Nodup)
    (hkind : kind ≠ .id) (ho : Entries.get? kind override = some o)
    (h : Gives (mergeMembers path (Entries.mapValues (Keyword.map (withMerger merger)) base)
      override builder) s builder' s') :
    ∃ b b' t t', Gives (mergeMember path (Entries.mapValues (Keyword.map (withMerger merger)) base)
        kind o b) t b' t' ∧ t'.report.actions ⊆ s'.report.actions ∧
      b.keyword? kind = builder.keyword? kind ∧ builder'.keyword? kind = b'.keyword? kind := by
  induction override generalizing builder s with
  | nil => cases ho
  | cons member rest ih =>
    obtain ⟨first, l⟩ := member
    obtain ⟨hnew, hrest⟩ := List.nodup_cons.mp hover
    unfold mergeMembers at h
    split at h
    · rename_i hid
      have hid : first = .id := of_decide_eq_true hid
      rw [Entries.get?, if_neg (hid ▸ hkind)] at ho
      exact ih hrest ho h
    · obtain ⟨b, _, hfirst, htail⟩ := gives_bind.mp h
      by_cases heq : kind = first
      · subst heq
        rw [Entries.get?, if_pos rfl] at ho
        cases ho
        exact ⟨builder, b, _, _, hfirst, adds_mergeMembers hm _ _ _ htail, rfl,
          others_of_mergeMembers (Or.inr hnew) htail⟩
      · rw [Entries.get?, if_neg heq] at ho
        obtain ⟨c, c', t, t', hgives, hreport, hbefore, hafter⟩ := ih hrest ho htail
        refine ⟨c, c', t, t', hgives, hreport, hbefore.trans ?_, hafter⟩
        rcases puts_of_mergeMember hfirst with rfl | ⟨k, rfl⟩
        · rfl
        · rw [keyword?_put, if_neg heq]

/-- What the members of an override make of a builder: each has its fate, and the other
keywords stay. -/
structure Combined (merger : Schema → Merger) (report : MergeReport) (path : Pointer)
    (base override : List (KeywordKind × Keyword Schema)) (builder builder' : Builder) : Prop where
  reference : builder'.reference = builder.reference
  others : ∀ kind, kind = .id ∨ kind ∉ Entries.keys override →
    builder'.keyword? kind = builder.keyword? kind
  member : ∀ kind o, kind ≠ .id → Entries.get? kind override = some o →
    MemberFate merger report (path.child kind.key) (Entries.get? kind base) o
      (builder'.keyword? kind)

theorem combined_of_mergeMembers (hm : ∀ b p o, Adds (merger b p o))
    {override : List (KeywordKind × Keyword Schema)} (hover : (Entries.keys override).Nodup)
    (hdistinct : ∀ kind o, (kind, o) ∈ override → o.distinct = true)
    (hbase : ∀ kind k, kind ≠ .id → Entries.get? kind base = some k →
      k.distinct = true ∧ (kind ∈ Entries.keys override → builder.keyword? kind = some k))
    (h : Gives (mergeMembers path (Entries.mapValues (Keyword.map (withMerger merger)) base)
      override builder) s builder' s') :
    Combined merger s'.report path base override builder builder' where
  reference := holds_of_mergeMembers (P := fun b => b.reference = builder.reference)
    (fun _ _ _ _ hb => hb) rfl h
  others _ hkind := others_of_mergeMembers hkind h
  member kind o hkind ho := by
    have hmem := Entries.mem_of_get? ho
    obtain ⟨b, b', t, t', hgives, hreport, hbefore, hafter⟩ :=
      member_of_mergeMembers hm hover hkind ho h
    rw [hafter]
    refine (fate_of_mergeMember hm (fun k hk => ?_) (hdistinct kind o hmem) hgives).mono hreport
    rw [hbefore]
    exact (hbase kind k hkind hk).imp_right fun hput => hput (List.mem_map_of_mem hmem)

theorem keywordsOf_map (base : Schema) :
    keywordsOf (base.body.map (withMerger merger)) =
      Entries.mapValues (Keyword.map (withMerger merger)) base.keywords := by
  obtain ⟨id, location, draft, body⟩ := base
  cases body <;> rfl

/-- The merging of overrides into a schema. -/
abbrev merging (b : Schema) : Merger := fun path override => mergeAt path b override

namespace Compositional

variable {P : Pointer → ∀ {α : Type}, MergeM α → Prop}

theorem step (hP : Compositional P) (hm : ∀ b p o, P p (merger b p o))
    (base override : Schema) :
    P path (step base (base.body.map (withMerger merger)) path override) := by
  unfold Merge.step
  split
  · exact hP.pure _ _
  · split
    · exact hP.pure _ _
    · exact hP.pure _ _
    · exact hP.bind (hP.record _ _ _) fun _ => hP.pure _ _
    · exact hP.bind (hP.record _ _ _) fun _ => hP.pure _ _
    · rw [combine, keywordsOf_map]
      exact hP.bind (hP.mergeMembers hm) fun _ => hP.onStore _ _

theorem mergeAt (hP : Compositional P) (path : Pointer) (base override : Schema) :
    P path (mergeAt path base override) := by
  induction base using Schema.induction generalizing path override with
  | step base ih =>
    classical
    -- The lemmas on keywords ask for a merger that has the property for every schema; one
    -- that agrees with `merging` below `base` and does nothing elsewhere is such a merger.
    let merger (b : Schema) : Merger :=
      if ∀ path override, P path (Merge.mergeAt path b override) then merging b
      else fun _ override => Pure.pure override
    have hm : ∀ b path override, P path (merger b path override) := by
      intro b path override
      by_cases h : ∀ path override, P path (Merge.mergeAt path b override)
      · simpa only [merger, if_pos h] using h path override
      · simpa only [merger, if_neg h] using hP.pure path override
    have hbody : base.body.map (withMerger merging) = base.body.map (withMerger merger) := by
      apply Schema.body_map_congr
      intro kind k b hk hb
      simp only [withMerger, merger, if_pos fun path override => ih kind k b hk hb path override]
    rw [mergeAt_eq]
    change P path (Merge.step base (base.body.map (withMerger merging)) path override)
    rw [hbody]
    exact hP.step hm base override

end Compositional

/-- The builder that a merge starts from: the base under a new name, without identifier. -/
def start (base override : Schema) : Builder :=
  { Builder.ofSchema base with
    location := Location.ofDocument (mergeName base.uri override.uri) }.remove .id

theorem combine_eq (base override : Schema) (body : Body (Schema × Merger)) :
    combine base body path override = (do
      let builder ← mergeMembers path (keywordsOf body) override.keywords (start base override)
      onStore (override.extra.foldl (fun b (key, value) => b.putExtra key value) builder).build) :=
  rfl

@[simp] theorem keywords_ofSchema (s : Schema) : (Builder.ofSchema s).keywords = s.keywords := by
  obtain ⟨id, location, draft, body⟩ := s
  cases body <;> rfl

theorem reference_ofSchema {s : Schema} (h : s.isReference = false) :
    (Builder.ofSchema s).reference = none := by
  obtain ⟨id, location, draft, body⟩ := s
  cases body with
  | reference => cases h
  | object | boolean => rfl

/-- What the keywords of two nodes become, identifiers apart, which are given up. -/
structure Joined (merger : Schema → Merger) (report : MergeReport) (path : Pointer)
    (base override R : Schema) : Prop where
  identifier : R.keyword? .id = none
  others : ∀ kind, kind ≠ .id → override.keyword? kind = none → R.keyword? kind = base.keyword? kind
  member : ∀ kind o, kind ≠ .id → override.keyword? kind = some o →
    MemberFate merger report (path.child kind.key) (base.keyword? kind) o (R.keyword? kind)

/-- Putting extra members in changes nothing else. -/
theorem exists_foldl_putExtra (extra : List (String × Json)) (b : Builder) : ∃ extra',
    extra.foldl (fun b (key, value) => b.putExtra key value) b = { b with extra := extra' } := by
  induction extra generalizing b with
  | nil => exact ⟨b.extra, rfl⟩
  | cons entry rest ih => exact ih (b.putExtra entry.1 entry.2)

theorem foldl_putExtra (extra : List (String × Json)) (b : Builder) :
    (extra.foldl (fun b (key, value) => b.putExtra key value) b).keywords = b.keywords ∧
      (extra.foldl (fun b (key, value) => b.putExtra key value) b).reference = b.reference := by
  obtain ⟨extra', h⟩ := exists_foldl_putExtra extra b
  rw [h]
  exact ⟨rfl, rfl⟩

theorem keywords_of_build {b : Builder} {R : Schema} (href : b.reference = none)
    (h : Gives (onStore b.build) s R s') : R.keywords = b.keywords := by
  have hbody : R.body = b.body := by
    obtain ⟨rfl, -⟩ := gives_onStore.mp h
    rfl
  rw [Schema.keywords, hbody, Builder.body, href]
  cases b.boolean with
  | none => rfl
  | some value =>
    by_cases hempty : (b.keywords.isEmpty && b.extra.isEmpty) = true
    · simp only [if_pos hempty]
      exact (List.isEmpty_iff.mp (Bool.and_eq_true_iff.mp hempty).1).symm
    · simp only [if_neg hempty]

theorem keyword?_start {base override : Schema} {kind : KeywordKind} (hkind : kind ≠ .id) :
    (start base override).keyword? kind = base.keyword? kind := by
  change Entries.get? kind (Entries.erase .id (Builder.ofSchema base).keywords) = _
  rw [Entries.get?_erase_of_ne hkind, keywords_ofSchema]
  rfl

theorem keyword?_start_id {base override : Schema} (h : (Entries.keys base.keywords).Nodup) :
    (start base override).keyword? .id = none := by
  refine Entries.get?_eq_none.mpr ?_
  rw [start, Builder.remove, Entries.keys_erase, keywords_ofSchema]
  exact h.not_mem_erase

theorem joined_of_combine (hm : ∀ b p o, Adds (merger b p o)) {base override R : Schema}
    (hbase : base.isStored = true) (hover : override.isStored = true)
    (href : base.isReference = false)
    (h : Gives (combine base (base.body.map (withMerger merger)) path override) s R s') :
    Joined merger s'.report path base override R := by
  obtain ⟨hnodup, hdistinct⟩ := (Schema.isStored_iff base).mp hbase
  obtain ⟨hnodup', hdistinct'⟩ := (Schema.isStored_iff override).mp hover
  rw [combine_eq, keywordsOf_map] at h
  obtain ⟨builder, s₁, hmembers, hbuild⟩ := gives_bind.mp h
  have hcombined := combined_of_mergeMembers hm hnodup' (fun kind o ho => (hdistinct' kind o ho).1)
    (fun kind k hkind hk => ⟨(hdistinct kind k (Entries.mem_of_get? hk)).1,
      fun _ => (keyword?_start hkind).trans hk⟩) hmembers
  obtain ⟨hkeywords, hreference⟩ := foldl_putExtra override.extra builder
  have hnone : builder.reference = none :=
    hcombined.reference.trans (reference_ofSchema href)
  have hR : ∀ kind, R.keyword? kind = builder.keyword? kind := by
    intro kind
    rw [Schema.keyword?, keywords_of_build (hreference.trans hnone) hbuild, hkeywords]
    rfl
  refine ⟨?_, fun kind hkind hnot => ?_, fun kind o hkind ho => ?_⟩
  · rw [hR, hcombined.others .id (Or.inl rfl)]
    exact keyword?_start_id hnodup
  · rw [hR, hcombined.others kind (Or.inr (Entries.get?_eq_none.mp hnot))]
    exact keyword?_start hkind
  · rw [hR]
    exact (hcombined.member kind o hkind ho).mono (adds_onStore _ _ _ _ hbuild)

variable {base override R : Schema}

/-- A joined node keeps what the base says if its merger keeps what the nested schemas say. -/
theorem Joined.keeps_base (h : Joined merger report path base override R)
    (hboolean : base.boolean? ≠ some false) (href : base.isReference = false)
    (hnested : ∀ {kind k l b o r p}, kind ≠ .id → base.keyword? kind = some k →
      override.keyword? kind = some l → (b, o) ∈ k.pairs l → MergedTo merger report p b o r →
      b.KeptIn (report.Clear .conflict) p r) :
    base.KeptIn (report.Clear .conflict) path R := by
  refine .of_entries .above (fun _ hfalse => absurd hfalse hboolean) (fun _ _ href' => ?_) ?_
  · rw [Schema.isReference, href'] at href
    cases href
  intro kind k hkind hk hclear
  have hself : R.keyword? kind = some k → ∃ k', R.keyword? kind = some k' ∧
      k.PlainContained k' ∧ ∀ {segment c}, (segment, c) ∈ k.subschemas →
        ∃ c', (segment, c') ∈ k'.subschemas ∧
          c.KeptIn (report.Clear .conflict) ((path.child kind.key).under segment) c' :=
    fun hR => ⟨k, hR, (Keyword.Contained.refl k).plain, fun hc => ⟨_, hc, .refl _ _ _⟩⟩
  cases ho : override.keyword? kind with
  | none => exact hself ((h.others kind hkind ho).trans hk)
  | some o =>
    have hfate := h.member kind o hkind ho
    rw [hk] at hfate
    generalize hR : R.keyword? kind = result at hfate
    cases hfate with
    | refused => exact hR ▸ hself hR
    | @blended _ _ m hblend hconflict =>
      have hnone : m.conflict = none := by
        by_contra hne
        exact hconflict hne hclear
      refine ⟨m.keyword, rfl, hblend.base hnone, fun hb => ?_⟩
      obtain ⟨r, hr, rfl | ⟨c, hpair, hmerged⟩⟩ := hblend.base_entry hnone hb
      · exact ⟨_, hr, .refl _ _ _⟩
      · exact ⟨r, hr, hnested hkind hk ho hpair hmerged⟩

/-- A joined node keeps what the override says if its merger keeps what the nested schemas
say. -/
theorem Joined.keeps_override (h : Joined merger report path base override R)
    (hboolean : override.boolean? ≠ some false) (href : override.isReference = false)
    (hnested : ∀ {kind k l b o r p}, kind ≠ .id → base.keyword? kind = some k →
      override.keyword? kind = some l → (b, o) ∈ k.pairs l → MergedTo merger report p b o r →
      o.KeptIn (report.Clear .error) p r) :
    override.KeptIn (report.Clear .error) path R := by
  refine .of_entries .above (fun _ hfalse => absurd hfalse hboolean) (fun _ _ href' => ?_) ?_
  · rw [Schema.isReference, href'] at href
    cases href
  intro kind o hkind ho hclear
  have hfate := h.member kind o hkind ho
  generalize hk : base.keyword? kind = k at hfate
  generalize hR : R.keyword? kind = result at hfate
  cases hfate with
  | added => exact ⟨o, rfl, (Keyword.Contained.refl o).plain, fun hc => ⟨_, hc, .refl _ _ _⟩⟩
  | refused herror => exact absurd hclear herror
  | @blended k _ m hblend =>
    refine ⟨m.keyword, rfl, hblend.override, fun hc => ?_⟩
    obtain ⟨r, hr, rfl | ⟨b, hpair, hmerged⟩⟩ := hblend.override_entry hc
    · exact ⟨_, hr, .refl _ _ _⟩
    · exact ⟨r, hr, hnested hkind hk ho hpair hmerged⟩

theorem adds_merging (b : Schema) (path : Pointer) (o : Schema) : Adds (merging b path o) :=
  adds_compositional.mergeAt path b o

/-- What two nodes become that are no references. -/
inductive NodeFate (report : MergeReport) (path : Pointer) (base override : Schema) : Schema → Prop
  | unchanged {value : Bool} : override.boolean? = some value →
      (value = false → base.boolean? = some false) → NodeFate report path base override base
  | replaced : base.boolean? = some false ∨ override.boolean? = some false →
      ¬ report.Clear .conflict path → NodeFate report path base override override
  | joined {R : Schema} : base.boolean? ≠ some false → override.boolean? = none →
      Joined merging report path base override R → NodeFate report path base override R

theorem fate_of_mergeAt (hbase : base.isStored = true) (hover : override.isStored = true)
    (href : base.isReference = false) (href' : override.isReference = false)
    (h : Gives (mergeAt path base override) s R s') : NodeFate s'.report path base override R := by
  rw [mergeAt_eq] at h
  change Gives (step base (base.body.map (withMerger merging)) path override) s R s' at h
  unfold step at h
  rw [href, href', Bool.or_false, if_neg Bool.false_ne_true] at h
  have hreplaced (hfalse : base.boolean? = some false ∨ override.boolean? = some false)
      (h : Gives (do
        record path .conflict (some "false schema cannot be merged")
        return override) s R s') : NodeFate s'.report path base override R := by
    obtain ⟨_, s₁, hrecord, hpure⟩ := gives_bind.mp h
    obtain ⟨rfl, rfl⟩ := gives_pure.mp hpure
    refine .replaced hfalse ?_
    rw [gives_record.mp hrecord]
    exact MergeReport.not_clear_of_mem (List.mem_append_right _ List.mem_cons_self)
  split at h
  · rename_i htrue
    obtain ⟨rfl, rfl⟩ := gives_pure.mp h
    exact .unchanged htrue fun hfalse => by cases hfalse
  · rename_i hfalse hfalse'
    obtain ⟨rfl, rfl⟩ := gives_pure.mp h
    exact .unchanged hfalse' fun _ => hfalse
  · rename_i hfalse _
    exact hreplaced (Or.inl hfalse) h
  · rename_i hfalse _
    exact hreplaced (Or.inr hfalse) h
  · rename_i hnone hnot
    exact .joined hnot hnone (joined_of_combine adds_merging hbase hover href h)

theorem kept_of_gives (hbase : base.isStored = true) (hover : override.isStored = true)
    (hmeet : ∀ pair ∈ base.meetings override,
      pair.1.isReference = false ∧ pair.2.isReference = false)
    (h : Gives (mergeAt path base override) s R s') :
    base.KeptIn (s'.report.Clear .conflict) path R ∧
      override.KeptIn (s'.report.Clear .error) path R := by
  induction base using Schema.induction generalizing path override s R s' with
  | step base ih =>
    obtain ⟨href, href'⟩ := hmeet _ (Schema.mem_meetings_self base override)
    have hnested : ∀ {kind k l b o r p}, kind ≠ .id → base.keyword? kind = some k →
        override.keyword? kind = some l → (b, o) ∈ k.pairs l → MergedTo merging s'.report p b o r →
        b.KeptIn (s'.report.Clear .conflict) p r ∧ o.KeptIn (s'.report.Clear .error) p r := by
      intro kind k l b o r p hkind hk hl hpair ⟨t, t', hmerged, hreport⟩
      obtain ⟨hb, ho⟩ := Keyword.mem_nodes_of_mem_pairs hpair
      have hk' := Entries.mem_of_get? hk
      have hl' := Entries.mem_of_get? hl
      obtain ⟨hkept, hkept'⟩ := ih kind k b hk' hb
        (((Schema.isStored_iff base).mp hbase).2 kind k hk' |>.2 b hb)
        (((Schema.isStored_iff override).mp hover).2 kind l hl' |>.2 o ho)
        (fun pair hp => hmeet pair (Schema.meetings_subset hkind hk hl hpair hp)) hmerged
      exact ⟨hkept.mono fun _ hclear => hclear.mono hreport,
        hkept'.mono fun _ hclear => hclear.mono hreport⟩
    cases fate_of_mergeAt hbase hover href href' h with
    | unchanged hover hfalse => exact ⟨.refl _ _ _, .of_boolean .above hover hfalse⟩
    | replaced _ hconflict => exact ⟨.of_not_clear .above hconflict, .refl _ _ _⟩
    | joined hbase hover hjoined =>
      have hover : override.boolean? ≠ some false := by
        rw [hover]
        exact nofun
      exact ⟨hjoined.keeps_base hbase href fun hkind hk hl hpair hmerged =>
          (hnested hkind hk hl hpair hmerged).1,
        hjoined.keeps_override hover href' fun hkind hk hl hpair hmerged =>
          (hnested hkind hk hl hpair hmerged).2⟩

/-- A merge in which no two references meet loses nothing silently. The nodes of the base are
in the result with their keywords and the content of those, but for conflicts at or above a
keyword, and the nodes of the override but for errors. Two object schemas merge into one
without identifier whose keywords are all keywords of theirs. -/
theorem kept_of_mergeAt (path : Pointer) (s : MergeState) (hbase : base.isStored = true)
    (hover : override.isStored = true)
    (hmeet : ∀ pair ∈ base.meetings override,
      pair.1.isReference = false ∧ pair.2.isReference = false) :
    let (R, s') := (mergeAt path base override).run s
    base.KeptIn (s'.report.Clear .conflict) path R ∧
      override.KeptIn (s'.report.Clear .error) path R ∧
      (base.boolean? = none → override.boolean? = none → ∀ kind k, R.keyword? kind = some k →
        kind ≠ .id ∧ ((base.keyword? kind).isSome ∨ (override.keyword? kind).isSome)) := by
  obtain ⟨href, href'⟩ := hmeet _ (Schema.mem_meetings_self base override)
  generalize h : (mergeAt path base override).run s = run
  obtain ⟨R, s'⟩ := run
  obtain ⟨hkept, hkept'⟩ := kept_of_gives hbase hover hmeet h
  refine ⟨hkept, hkept', fun hobject hobject' kind k hk => ?_⟩
  cases fate_of_mergeAt hbase hover href href' h with
  | unchanged hover => cases hobject'.symm.trans hover
  | replaced hfalse =>
    rcases hfalse with hfalse | hfalse
    · cases hobject.symm.trans hfalse
    · cases hobject'.symm.trans hfalse
  | joined _ _ hjoined =>
    have hkind : kind ≠ .id := by
      rintro rfl
      cases hjoined.identifier.symm.trans hk
    refine ⟨hkind, ?_⟩
    cases ho : override.keyword? kind with
    | some o => exact Or.inr rfl
    | none =>
      rw [← hjoined.others kind hkind ho, hk]
      exact Or.inl rfl

/-- An object schema that stands at the root of a document. -/
def sample (name : String) (members : List (KeywordKind × Keyword Schema)) : Schema :=
  .node 0 (.ofDocument ⟨"http", some "e.com", .segments [name], none, none⟩) .draft7
    (.object members [])

/-- A base with an identifier, a nested length and a list of schemas. -/
def base₀ : Schema :=
  sample "a.json" [(.id, .uri "http://e.com/a.json"),
    (.properties, .schemaMap [("x", sample "a.json" [(.minLength, .count 1)])]),
    (.allOf, .schemaList [sample "a.json" [(.type, .types [.string])]])]

/-- An override with another nested length, a new property and a longer list. -/
def over₀ : Schema :=
  sample "b.json" [
    (.properties, .schemaMap [
      ("x", sample "b.json" [(.minLength, .count 3), (.maxLength, .count 9)]),
      ("y", sample "b.json" [(.title, .string "new")])]),
    (.allOf, .schemaList [sample "b.json" [], sample "b.json" []])]

/-- The lengths conflict, the lists cannot be paired, and all else is kept. -/
theorem kept_of_sample :
    base₀.isStored = true ∧ over₀.isStored = true ∧
      (∀ pair ∈ base₀.meetings over₀,
        pair.1.isReference = false ∧ pair.2.isReference = false) ∧
      let (R, s') := (mergeAt .root base₀ over₀).run ⟨.empty, .empty⟩
      s'.report.has .conflict = true ∧ s'.report.has .error = true ∧
        base₀.KeptIn (s'.report.Clear .conflict) .root R ∧
        over₀.KeptIn (s'.report.Clear .error) .root R ∧
        ∀ kind k, R.keyword? kind = some k →
          kind ≠ .id ∧ ((base₀.keyword? kind).isSome ∨ (over₀.keyword? kind).isSome) := by
  have hbase : base₀.isStored = true := by decide +kernel
  have hover : over₀.isStored = true := by decide +kernel
  have hmeet : ∀ pair ∈ base₀.meetings over₀,
      pair.1.isReference = false ∧ pair.2.isReference = false := by
    decide +kernel
  obtain ⟨hkept, hkept', hkinds⟩ := kept_of_mergeAt .root ⟨.empty, .empty⟩ hbase hover hmeet
  exact ⟨hbase, hover, hmeet, by decide +kernel, by decide +kernel, hkept, hkept',
    hkinds rfl rfl⟩

end Merge

end SchemaAtlas
