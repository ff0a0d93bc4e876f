import SchemaAtlas.Proofs.Merge.Twice

/-!
# Merges without conflicts

A merge copies the base and folds the override in, so which schema is the base decides which
of two different values stays. If no conflict and no error is reported then no values differed,
and the schemas merge into the same the other way round: equal values and sets on both sides,
bounds of which each side had one, and under every key of a map the value of the one that had
it or what two values merged into. Identifiers are left out of the comparison, and the schema
`true` counts as the object schema without members.
-/

namespace SchemaAtlas

/-! ## With `true` as an object -/

/-- The content of a node with the schema `true` written as an object. -/
def Body.opened {σ : Type} : Body σ → Body σ
  | .boolean true => .object [] []
  | body => body

namespace Schema

/-- The schema with every schema `true` in it written as the empty object schema. -/
def opened : Schema → Schema :=
  descend fun s body => .node s.id s.location s.draft (body.map Prod.snd).opened

theorem opened_node (s : Schema) :
    s.opened = .node s.id s.location s.draft (s.body.map opened).opened := by
  rw [opened, descend_node, Body.map_map]
  rfl

/-- The schema without identifiers, and with `true` written as the empty object schema. -/
def plain (s : Schema) : Schema := s.unnamed.opened

theorem plain_node (s : Schema) :
    s.plain = .node s.id s.location s.draft (s.body.map plain).unnamed.opened := by
  rw [plain, unnamed_node, opened_node]
  simp only [id, location, draft, body, ← Body.unnamed_map, Body.map_map]
  rfl

/-- Equal content, up to identifiers and the form of the schema `true`. -/
def Alike (s t : Schema) : Prop := s.plain.equals t.plain = true

theorem Alike.refl (s : Schema) : s.Alike s := equals_of_content s.plain s.plain rfl

end Schema

/-! ## Alike keywords -/

namespace Dependency

/-- Dependencies on the same properties or on related schemas. -/
inductive Alike (R : Schema → Schema → Prop) : Dependency Schema → Dependency Schema → Prop
  | schema {s t : Schema} : R s t → Alike R (.schema s) (.schema t)
  | properties (names : List String) : Alike R (.properties names) (.properties names)

theorem Alike.refl {R : Schema → Schema → Prop} (hrefl : ∀ s, R s s) (d : Dependency Schema) :
    d.Alike R d := by
  cases d with
  | schema s => exact .schema (hrefl s)
  | properties names => exact .properties names

end Dependency

namespace Keyword

/-- Keywords with equal values and related schemas. -/
inductive Alike (R : Schema → Schema → Prop) : Keyword Schema → Keyword Schema → Prop
  | scalars {k l : Keyword Schema} : k.scalars l = true → Schema.sameKeyword k l = true →
      Alike R k l
  | names (set : List String) : Alike R (.names set) (.names set)
  | types (set : List Shape) : Alike R (.types set) (.types set)
  | jsonList {a b : List Json} : Json.equalElements a b = true →
      Alike R (.jsonList a) (.jsonList b)
  | limit {a b : Limit} : a.equals b = true → Alike R (.limit a) (.limit b)
  | schema {s t : Schema} : R s t → Alike R (.schema s) (.schema t)
  | items {s t : Schema} : R s t → Alike R (.items s) (.items t)
  | schemaList {ss ts : List Schema} : List.Forall₂ R ss ts →
      Alike R (.schemaList ss) (.schemaList ts)
  | tuple {ss ts : List Schema} : List.Forall₂ R ss ts → Alike R (.tuple ss) (.tuple ts)
  | union (set : List Shape) {ss ts : List Schema} : List.Forall₂ R ss ts →
      Alike R (.union set ss) (.union set ts)
  | schemaMap {ss ts : List (String × Schema)} : Entries.Related R ss ts →
      Alike R (.schemaMap ss) (.schemaMap ts)
  | dependencies {ss ts : List (String × Dependency Schema)} :
      Entries.Related (Dependency.Alike R) ss ts → Alike R (.dependencies ss) (.dependencies ts)

variable {R : Schema → Schema → Prop}

theorem Alike.refl (hrefl : ∀ s, R s s) (k : Keyword Schema) : k.Alike R k := by
  have hlist : ∀ ss : List Schema, List.Forall₂ R ss ss :=
    fun ss => List.forall₂_same.mpr fun s _ => hrefl s
  cases k with
  | string | uri | count | boolean =>
    exact .scalars rfl (by simp [Schema.sameKeyword, map, Schema.keywordAgrees])
  | number n => exact .scalars rfl n.equals_self
  | json v => exact .scalars rfl v.equals_self
  | names set => exact .names set
  | types set => exact .types set
  | jsonList vs => exact .jsonList (Json.equalElements_self vs)
  | limit l => exact .limit l.equals_self
  | schema s => exact .schema (hrefl s)
  | items s => exact .items (hrefl s)
  | schemaList ss => exact .schemaList (hlist ss)
  | tuple ss => exact .tuple (hlist ss)
  | union set ss => exact .union set (hlist ss)
  | schemaMap ss => exact .schemaMap (List.forall₂_same.mpr fun entry _ => ⟨rfl, hrefl entry.2⟩)
  | dependencies ss =>
    exact .dependencies (List.forall₂_same.mpr fun entry _ => ⟨rfl, .refl hrefl entry.2⟩)

end Keyword

namespace Schema

variable {R : Schema → Schema → Prop} {f : Schema → Schema}

theorem agreeLists_of_forall₂ {ss ts : List Schema} (h : List.Forall₂ R ss ts)
    (hR : ∀ {s t}, R s t → (f s).equals (f t) = true) :
    keywordAgrees.agreeLists ((ss.map f).map equals) (ts.map f) = true := by
  induction h with
  | nil => rfl
  | cons hst _ ih =>
    simp only [List.map_cons, keywordAgrees.agreeLists, hR hst, Bool.true_and]
    exact ih

theorem agreeEntries_of_related {ss ts : List (String × Schema)} (h : Entries.Related R ss ts)
    (hR : ∀ {s t}, R s t → (f s).equals (f t) = true) :
    keywordAgrees.agreeEntries (Entries.mapValues equals (Entries.mapValues f ss))
      (Entries.mapValues f ts) = true := by
  induction h with
  | nil => rfl
  | cons hst _ ih =>
    simp only [Entries.mapValues, List.map_cons, keywordAgrees.agreeEntries, hst.1, hR hst.2,
      beq_self_eq_true, Bool.true_and] at ih ⊢
    exact ih

theorem agreeDependencies_of_related {ss ts : List (String × Dependency Schema)}
    (h : Entries.Related (Dependency.Alike R) ss ts)
    (hR : ∀ {s t}, R s t → (f s).equals (f t) = true) :
    keywordAgrees.agreeDependencies
      (Entries.mapValues (Dependency.map equals) (Entries.mapValues (Dependency.map f) ss))
      (Entries.mapValues (Dependency.map f) ts) = true := by
  induction h with
  | nil => rfl
  | @cons entry other rest rest' hst _ ih =>
    obtain ⟨name, d⟩ := entry
    obtain ⟨name', d'⟩ := other
    obtain ⟨hname, hd⟩ := hst
    simp only [Entries.mapValues, List.map_cons] at ih hname hd ⊢
    cases hd with
    | schema hst =>
      rw [hname, Dependency.map, Dependency.map, Dependency.map, keywordAgrees.agreeDependencies,
        hR hst, beq_self_eq_true, Bool.true_and, Bool.true_and]
      exact ih
    | properties names =>
      rw [hname, Dependency.map, Dependency.map, keywordAgrees.agreeDependencies,
        beq_self_eq_true, beq_self_eq_true, Bool.true_and, Bool.true_and]
      exact ih

/-- Alike keywords agree once their schemas are written so that related ones are equal. -/
theorem keywordAgrees_of_alike {k l : Keyword Schema} (h : k.Alike R l)
    (hR : ∀ {s t}, R s t → (f s).equals (f t) = true) :
    keywordAgrees ((k.map f).map equals) (l.map f) = true := by
  cases h with
  | @scalars k l hscalars hsame =>
    cases k <;> cases l <;> cases hscalars <;> exact hsame
  | names | types => simp [Keyword.map, keywordAgrees]
  | jsonList h | limit h => exact h
  | schema h | items h => exact hR h
  | schemaList h | tuple h => exact agreeLists_of_forall₂ h hR
  | union set h =>
    simp only [Keyword.map, keywordAgrees, beq_self_eq_true, Bool.true_and]
    exact agreeLists_of_forall₂ h hR
  | schemaMap h => exact agreeEntries_of_related h hR
  | dependencies h => exact agreeDependencies_of_related h hR

theorem agreeKeywords_of_related {ks ls : List (KeywordKind × Keyword Schema)}
    (h : Entries.Related (Keyword.Alike R) ks ls)
    (hR : ∀ {s t}, R s t → (f s).equals (f t) = true) :
    agreeKeywords
      (Entries.mapValues (Keyword.map equals) (Entries.mapValues (Keyword.map f) ks))
      (Entries.mapValues (Keyword.map f) ls) = true := by
  induction h with
  | nil => rfl
  | cons hkl _ ih =>
    simp only [Entries.mapValues, List.map_cons, agreeKeywords, hkl.1,
      keywordAgrees_of_alike hkl.2 hR, beq_self_eq_true, Bool.true_and] at ih ⊢
    exact ih

/-- What a node that is no reference and not `false` says, once `true` is an object. -/
theorem body_plain {s : Schema} (href : s.isReference = false) (hfalse : s.boolean? ≠ some false) :
    (s.body.map plain).unnamed.opened =
      .object (Entries.mapValues (Keyword.map plain) (Entries.erase .id s.keywords)) s.extra := by
  obtain ⟨id, location, draft, body⟩ := s
  cases body with
  | reference => cases href
  | boolean value =>
    cases value with
    | false => exact absurd rfl hfalse
    | true => rfl
  | object keywords extra =>
    simp only [Schema.body, Body.map, Body.unnamed, Body.opened, Schema.keywords, Schema.extra,
      Entries.erase_mapValues]

theorem equalMembers_of_related {a b : List (String × Json)}
    (h : Entries.Related (fun v w => v.equals w = true) a b) : Json.equalMembers a b = true := by
  induction h with
  | nil => rfl
  | cons hvw _ ih => simp [Json.equalMembers, hvw.1, hvw.2, ih]

/-- Nodes that are no references and not `false` are alike if their members are. -/
theorem alike_of_members {s t : Schema} (hs : s.isReference = false) (ht : t.isReference = false)
    (hs' : s.boolean? ≠ some false) (ht' : t.boolean? ≠ some false)
    (hordered : Entries.Sorted s.keywords) (hordered' : Entries.Sorted t.keywords)
    (hextra : Entries.Related (fun v w => v.equals w = true) s.extra t.extra)
    (hkeyword : ∀ kind, kind ≠ .id →
      Option.Rel (Keyword.Alike Alike) (s.keyword? kind) (t.keyword? kind)) : s.Alike t := by
  have hrelated : Entries.Related (Keyword.Alike Alike) (Entries.erase .id s.keywords)
      (Entries.erase .id t.keywords) := by
    refine Entries.related_of_sorted (hordered.erase .id) (hordered'.erase .id) fun kind => ?_
    by_cases hkind : kind = .id
    · rw [hkind, Entries.get?_erase_self hordered, Entries.get?_erase_self hordered']
      exact .none
    · rw [Entries.get?_erase_of_ne hkind, Entries.get?_erase_of_ne hkind]
      exact hkeyword kind hkind
  unfold Alike
  rw [plain_node s, plain_node t, body_plain hs hs', body_plain ht ht', equals_node]
  simp only [body, Body.map, Bool.and_eq_true]
  exact ⟨agreeKeywords_of_related hrelated fun h => h, equalMembers_of_related hextra⟩

theorem alike_of_boolean {s t : Schema} {value : Bool} (hs : s.boolean? = some value)
    (ht : t.boolean? = some value) : s.Alike t := by
  obtain ⟨id, location, draft, body⟩ := s
  obtain ⟨id', location', draft', body'⟩ := t
  cases body with
  | object | reference => cases hs
  | boolean b =>
    cases body' with
    | object | reference => cases ht
    | boolean b' =>
      cases hs
      cases ht
      unfold Alike
      rw [plain_node, plain_node, equals_node]
      cases value <;> rfl

end Schema

/-! ## The other way round -/

section

variable {merges merges' : Schema → Schema → Schema → Prop} {clean clean' : Prop}
  {R : Schema → Schema → Prop}

theorem PairwiseMerges.swap {bs os rs rs' : List Schema} (h : PairwiseMerges merges bs os rs)
    (h' : PairwiseMerges merges' os bs rs')
    (hswap : ∀ b o, (b, o) ∈ bs.zip os → ∀ r r', merges b o r → merges' o b r' → R r' r) :
    List.Forall₂ R rs' rs := by
  induction h generalizing rs' with
  | nil =>
    cases h'
    exact .nil
  | cons hmerged _ ih =>
    cases h' with
    | cons hmerged' hrest' =>
      exact .cons (hswap _ _ List.mem_cons_self _ _ hmerged hmerged')
        (ih hrest' fun b o hmem => hswap b o (List.mem_cons_of_mem _ hmem))

theorem Dependency.Merges.swap {b o d d' : Dependency Schema}
    (h : Dependency.Merges merges clean b o d) (h' : Dependency.Merges merges' clean' o b d')
    (hclean : clean) (hb : b.ordered = true)
    (hswap : ∀ c e r r', b = .schema c → o = .schema e → merges c e r → merges' e c r' → R r' r) :
    d'.Alike R d := by
  cases h with
  | schema hmerged =>
    cases h' with
    | schema hmerged' => exact .schema (hswap _ _ _ _ rfl rfl hmerged hmerged')
  | properties hsame =>
    obtain rfl := hsame hclean
    cases h' with
    | properties => exact .properties _
  | toSchema hnot | toProperties hnot => exact absurd hclean hnot

namespace Merge

theorem uniteValues_of_equal {a b : List Json} (h : Json.equalElements a b = true) :
    uniteValues a b = a := by
  refine uniteValues_of_subset ?_
  induction a generalizing b with
  | nil =>
    cases b with
    | nil => exact fun v hv => by cases hv
    | cons => cases h
  | cons v rest ih =>
    cases b with
    | nil => cases h
    | cons w others =>
      obtain ⟨hvw, hrest⟩ := Bool.and_eq_true_iff.mp h
      intro u hu
      rcases List.mem_cons.mp hu with rfl | hu
      · exact ⟨v, List.mem_cons_self, hvw⟩
      · obtain ⟨x, hx, hequal⟩ := ih hrest u hu
        exact ⟨x, List.mem_cons_of_mem _ hx, hequal⟩

theorem sameBound_mergeBound_swap {name : String} {a b : Option Number}
    (h : (mergeBound name a b).2 = []) :
    Limit.sameBound (mergeBound name b a).1 (mergeBound name a b).1 = true := by
  cases a with
  | none =>
    cases b with
    | none => rfl
    | some y => exact y.equals_self
  | some x =>
    cases b with
    | none => exact x.equals_self
    | some y =>
      by_contra hne
      have hnot : ¬x.equals y = true := hne
      rw [mergeBound, if_neg hnot] at h
      cases h

theorem mergeLimit_swap {a b c d : Limit} (h : (mergeLimit a b).conflict = none)
    (hc : (mergeLimit a b).keyword = .limit c) (hd : (mergeLimit b a).keyword = .limit d) :
    d.equals c = true := by
  obtain ⟨hinclusive, hexclusive⟩ := List.append_eq_nil_iff.mp (joined_eq_none.mp h)
  cases hc
  cases hd
  exact Bool.and_eq_true_iff.mpr
    ⟨sameBound_mergeBound_swap hinclusive, sameBound_mergeBound_swap hexclusive⟩

end Merge

namespace Keyword

variable {k o m m' : Keyword Schema}

theorem scalars_symm (h : k.scalars o = true) : o.scalars k = true := by
  cases k <;> cases o <;> first
    | rfl
    | cases h

/-- Keywords that merge without a conflict merge into the same the other way round. -/
theorem Merges.swap (h : Merges merges clean k o m) (h' : Merges merges' clean' o k m')
    (hclean : clean) (hk : k.ordered = true) (hrefl : ∀ s, R s s)
    (hswap : ∀ b c, (b, c) ∈ k.pairs o → ∀ r r', merges b c r → merges' c b r' → R r' r) :
    m'.Alike R m := by
  cases h with
  | refused _ hnot => exact absurd hclean hnot
  | replaced hscalars hsame heq =>
    have hstays : (Merge.replace k o).keyword = k := by rw [Merge.replace, if_pos (hsame hclean)]
    rw [heq, hstays, h'.eq_replace (scalars_symm hscalars), Merge.replace]
    split
    · rename_i hsame'
      exact .scalars (scalars_symm hscalars) hsame'
    · exact .refl hrefl k
  | names hsame =>
    obtain rfl := hsame hclean
    cases h' with
    | refused hfits => cases hfits
    | replaced hscalars => cases hscalars
    | names => exact .names _
  | types hsame =>
    obtain rfl := hsame hclean
    cases h' with
    | refused hfits => cases hfits
    | replaced hscalars => cases hscalars
    | types => exact .types _
  | @jsonList a b hsame =>
    have hequal := hsame hclean
    cases h' with
    | refused hfits => cases hfits
    | replaced hscalars => cases hscalars
    | jsonList =>
      have hequal' : Json.equalElements b a = true := (Json.equalElements_comm b a).trans hequal
      rw [Merge.uniteValues_of_equal hequal, Merge.uniteValues_of_equal hequal']
      exact .jsonList hequal'
  | @limit a b hnone =>
    cases h' with
    | refused hfits => cases hfits
    | replaced hscalars => cases hscalars
    | limit => exact .limit (Merge.mergeLimit_swap (hnone hclean) rfl rfl)
  | schema h =>
    cases h' with
    | refused hfits => cases hfits
    | replaced hscalars => cases hscalars
    | schema h' => exact .schema (hswap _ _ List.mem_cons_self _ _ h h')
  | items h =>
    cases h' with
    | refused hfits => cases hfits
    | replaced hscalars => cases hscalars
    | items h' => exact .items (hswap _ _ List.mem_cons_self _ _ h h')
  | schemaList h =>
    rw [pairs, if_pos h.length_eq] at hswap
    cases h' with
    | refused hfits => exact absurd h.length_eq.symm (of_decide_eq_false hfits)
    | replaced hscalars => cases hscalars
    | schemaList h' => exact .schemaList (h.swap h' hswap)
  | tuple h =>
    rw [pairs, if_pos h.length_eq] at hswap
    cases h' with
    | refused hfits => exact absurd h.length_eq.symm (of_decide_eq_false hfits)
    | replaced hscalars => cases hscalars
    | tuple h' => exact .tuple (h.swap h' hswap)
  | schemaMap hsorted h =>
    cases h' with
    | refused hfits => cases hfits
    | replaced hscalars => cases hscalars
    | schemaMap hsorted' h' =>
      refine .schemaMap (Entries.related_of_sorted hsorted' hsorted fun name => ?_)
      refine (h name).swap (h' name) hrefl fun hb hc hmerged hmerged' => ?_
      refine hswap _ _ (List.mem_filterMap.mpr ⟨_, Entries.mem_of_get? hc, ?_⟩) _ _ hmerged hmerged'
      simp [hb]
  | dependencies hsorted h =>
    obtain ⟨-, hordered⟩ := ordered_dependencies.mp hk
    cases h' with
    | refused hfits => cases hfits
    | replaced hscalars => cases hscalars
    | dependencies hsorted' h' =>
      refine .dependencies (Entries.related_of_sorted hsorted' hsorted fun name => ?_)
      refine (h name).swap (h' name) (Dependency.Alike.refl hrefl) fun hb hc hmerged hmerged' => ?_
      have hmem := Entries.mem_of_get? hb
      refine hmerged.swap hmerged' hclean (hordered name _ hmem) fun c e r r' hd he => ?_
      refine hswap c e (List.mem_filterMap.mpr ⟨_, Entries.mem_of_get? hc, ?_⟩) r r'
      simp [hb, hd, he]

end Keyword

namespace Schema

variable {base above R' : Schema} {S : Schema}

/-- Two nodes agree on the members that are no keywords if each key of both has equal values. -/
def extrasAgree (s t : Schema) : Bool :=
  s.extra.all fun (key, v) => (Entries.get? key t.extra).all fun w => v.equals w

theorem equals_of_extrasAgree {s t : Schema} (h : s.extrasAgree t = true) {key : String}
    {v w : Json} (hv : Entries.get? key s.extra = some v) (hw : Entries.get? key t.extra = some w) :
    v.equals w = true := by
  have hall := List.all_eq_true.mp h _ (Entries.mem_of_get? hv)
  simpa [hw] using hall

/-- Two nodes of which none is a reference or `false` have the members of both. -/
theorem Merges.overlaid_of_not_false (h : Schema.Merges merges clean base above S)
    (hordered : base.isOrdered = true) (href : base.isReference = false)
    (href' : above.isReference = false) (hbase : base.boolean? ≠ some false)
    (hover : above.boolean? ≠ some false) : Overlaid merges clean base above S := by
  obtain ⟨hkeywords, hextra, -⟩ := (isOrdered_iff base).mp hordered
  cases h with
  | reference hreference =>
    rw [href, href'] at hreference
    simp at hreference
  | replaced _ _ hfalse =>
    rcases hfalse with ⟨hfalse, -⟩ | ⟨-, hfalse⟩
    · exact absurd hfalse hbase
    · exact absurd hfalse hover
  | overlaid _ _ _ _ h => exact h
  | unchanged _ hvalue =>
    obtain ⟨id, location, draft, body⟩ := above
    cases body with
    | object | reference => cases hvalue
    | boolean =>
      exact ⟨hkeywords, hextra, href, hbase, Or.inr rfl, fun _ _ => .kept _, fun _ => rfl⟩

/-- Members that are put together without a conflict are put together into the same the other
way round. -/
theorem Overlaid.swap (h : Overlaid merges clean base above S)
    (h' : Overlaid merges' clean' above base R') (hclean : clean)
    (hbase : base.isOrdered = true) (hextra : base.extrasAgree above = true)
    (hswap : ∀ {kind k l}, kind ≠ .id → base.keyword? kind = some k → above.keyword? kind = some l →
      ∀ b c, (b, c) ∈ k.pairs l → ∀ r r', merges b c r → merges' c b r' → r'.Alike r) :
    R'.Alike S := by
  obtain ⟨-, -, hnested⟩ := (isOrdered_iff base).mp hbase
  refine alike_of_members h'.isReference h.isReference h'.boolean? h.boolean? h'.keywords
    h.keywords (Entries.related_of_sorted h'.extra h.extra fun key => ?_) fun kind hkind => ?_
  · rw [h'.extra?, h.extra?]
    cases hv : Entries.get? key base.extra with
    | none =>
      cases hw : Entries.get? key above.extra with
      | none => exact .none
      | some w => exact .some w.equals_self
    | some v =>
      cases hw : Entries.get? key above.extra with
      | none => exact .some v.equals_self
      | some w => exact .some (equals_of_extrasAgree hextra hv hw)
  · refine (h.keyword? kind hkind).swap (h'.keyword? kind hkind) (Keyword.Alike.refl Alike.refl)
      fun hk hl hmerged hmerged' => ?_
    exact hmerged.swap hmerged' hclean (hnested kind _ (Entries.mem_of_get? hk)).1 Alike.refl
      (hswap hkind hk hl)

/-- Nodes that merge without a conflict merge into the same the other way round. -/
theorem Merges.swap (h : Schema.Merges merges clean base above S)
    (h' : Schema.Merges merges' clean' above base R') (hclean : clean)
    (hbase : base.isOrdered = true) (hover : above.isOrdered = true)
    (href : base.isReference = false) (href' : above.isReference = false)
    (hextra : base.extrasAgree above = true)
    (hswap : ∀ {kind k l}, kind ≠ .id → base.keyword? kind = some k → above.keyword? kind = some l →
      ∀ b c, (b, c) ∈ k.pairs l → ∀ r r', merges b c r → merges' c b r' → r'.Alike r) :
    R'.Alike S := by
  by_cases hfalse : base.boolean? = some false
  · -- Only a boolean override leaves the schema `false` without a conflict.
    have hS : S = base ∧ ∃ value, above.boolean? = some value := by
      cases h with
      | reference hreference =>
        rw [href, href'] at hreference
        simp at hreference
      | unchanged _ hvalue => exact ⟨rfl, _, hvalue⟩
      | replaced _ _ _ hnot => exact absurd hclean hnot
      | overlaid _ _ hnot => exact absurd hfalse hnot
    obtain ⟨rfl, value, hvalue⟩ := hS
    cases h' with
    | reference | replaced => exact .refl _
    | unchanged _ hvalue' hsame =>
      exact alike_of_boolean (hsame (Option.some.inj (hvalue'.symm.trans hfalse))) hfalse
    | overlaid _ _ _ hnone => cases hnone.symm.trans hfalse
  · have hfalse' : above.boolean? ≠ some false := by
      intro hover
      cases h with
      | reference hreference =>
        rw [href, href'] at hreference
        simp at hreference
      | unchanged _ hvalue hsame =>
        exact hfalse (hsame (Option.some.inj (hvalue.symm.trans hover)))
      | replaced _ _ _ hnot => exact hnot hclean
      | overlaid _ _ _ hnone => cases hnone.symm.trans hover
    exact (h.overlaid_of_not_false hbase href href' hfalse hfalse').swap
      (h'.overlaid_of_not_false hover href' href hfalse' hfalse) hclean hbase hextra hswap

end Schema

end

namespace Merge

variable {base override R R' : Schema} {report report' : MergeReport}

theorem alike_of_yields (hclean : report.Clean) (hbase : base.isOrdered = true)
    (hover : override.isOrdered = true)
    (hmeet : ∀ pair ∈ base.meetings override, pair.1.isReference = false ∧
      pair.2.isReference = false ∧ pair.1.extrasAgree pair.2 = true)
    (h : Yields merging report base override R) (h' : Yields merging report' override base R') :
    R'.Alike R := by
  induction base using Schema.induction generalizing override R R' with
  | step base ih =>
    obtain ⟨-, -, hnested⟩ := (Schema.isOrdered_iff base).mp hbase
    obtain ⟨-, -, hnested'⟩ := (Schema.isOrdered_iff override).mp hover
    obtain ⟨href, href', hextra⟩ := hmeet _ (Schema.mem_meetings_self base override)
    obtain ⟨_, _, _, hgives, hr⟩ := h
    obtain ⟨_, _, _, hgives', hr'⟩ := h'
    have hmerged := merges_of_mergeAt hbase hover hgives hr
    have hmerged' := merges_of_mergeAt hover hbase hgives' hr'
    refine hmerged.swap hmerged' hclean hbase hover href href' hextra ?_
    intro kind k l hkind hk hl b c hpair r r' hmerged hmerged'
    obtain ⟨hb, hc⟩ := Keyword.mem_nodes_of_mem_pairs hpair
    have hk' := Entries.mem_of_get? hk
    have hl' := Entries.mem_of_get? hl
    refine ih kind k b hk' hb ((hnested kind k hk').2 b hb) ((hnested' kind l hl').2 c hc)
      (fun pair hp => hmeet pair ?_) hmerged hmerged'
    exact Schema.meetings_subset hkind hk hl hpair hp

end Merge

/-- A merge without conflicts and errors in which no two references meet commutes: the other
way round the schemas merge into the same content, up to identifiers and up to writing `true`
as the empty object schema, if extra members under the same key of two nodes that meet are
equal. -/
theorem opened_mergeSchemas_comm {base override : Schema} (hbase : base.isOrdered = true)
    (hover : override.isOrdered = true)
    (href : ∀ pair ∈ base.meetings override,
      pair.1.isReference = false ∧ pair.2.isReference = false)
    (hextra : ∀ pair ∈ base.meetings override, pair.1.extrasAgree pair.2 = true)
    (store store' : Store) :
    let (merged, report, _) := mergeSchemas base override store
    let (merged', _) := mergeSchemas override base store'
    report.isConflict = false → report.hasErrors = false →
      merged'.unnamed.opened.equals merged.unnamed.opened = true := by
  intro hconflict herror
  refine Merge.alike_of_yields ⟨hconflict, herror⟩ hbase hover
    (fun pair hp => ⟨(href pair hp).1, (href pair hp).2, hextra pair hp⟩)
    ⟨.root, ⟨store, .empty⟩, _, rfl, List.Subset.refl _⟩
    ⟨.root, ⟨store', .empty⟩, _, rfl, List.Subset.refl _⟩

namespace Merge

/-- A schema with a length below one property and `true` below another. -/
def left : Schema :=
  sample "a.json" [(.properties, .schemaMap [("x", sample "a.json" [(.minLength, .count 1)]),
    ("y", .node 0 default .draft7 (.boolean true))])]

/-- A schema with the same length and one more, the object schema without members below the
other property, and a title. -/
def right : Schema :=
  sample "b.json" [(.title, .string "t"), (.properties, .schemaMap [
    ("x", sample "b.json" [(.minLength, .count 1), (.maxLength, .count 9)]),
    ("y", sample "b.json" [])])]

/-- The two merge without a conflict, into schemas that differ in the form of `true`. -/
theorem comm_of_sample :
    left.isOrdered = true ∧ right.isOrdered = true ∧
      (∀ pair ∈ left.meetings right, pair.1.isReference = false ∧ pair.2.isReference = false) ∧
      (∀ pair ∈ left.meetings right, pair.1.extrasAgree pair.2 = true) ∧
      let (merged, report, _) := mergeSchemas left right .empty
      let (merged', _) := mergeSchemas right left .empty
      report.isConflict = false ∧ report.hasErrors = false ∧
        merged'.unnamed.equals merged.unnamed = false ∧
        merged'.unnamed.opened.equals merged.unnamed.opened = true := by
  have hleft : left.isOrdered = true := by decide +kernel
  have hright : right.isOrdered = true := by decide +kernel
  have href : ∀ pair ∈ left.meetings right,
      pair.1.isReference = false ∧ pair.2.isReference = false := by
    decide +kernel
  have hextra : ∀ pair ∈ left.meetings right, pair.1.extrasAgree pair.2 = true := by
    decide +kernel
  have hconflict : (mergeSchemas left right .empty).2.1.isConflict = false := by decide +kernel
  have herror : (mergeSchemas left right .empty).2.1.hasErrors = false := by decide +kernel
  exact ⟨hleft, hright, href, hextra, hconflict, herror, by decide +kernel,
    opened_mergeSchemas_comm hleft hright href hextra .empty .empty hconflict herror⟩

end Merge
end SchemaAtlas
