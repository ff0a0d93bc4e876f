import SchemaAtlas.Proofs.Merge.Overlay

/-!
# The same override twice

A schema merged with itself is itself, and an override merged a second time into what it was
merged into changes nothing more, except that identifiers are given up. Values that the
override replaced are its own by then, members of sets are there already, and what could not
be merged cannot be merged again.
-/

namespace SchemaAtlas

/-! ## Without identifiers -/

/-- The content of a node without its identifier. -/
def Body.unnamed {σ : Type} : Body σ → Body σ
  | .object keywords extra => .object (Entries.erase .id keywords) extra
  | body => body

theorem Entries.erase_mapValues {κ α β : Type} [DecidableEq κ] (f : α → β) (key : κ)
    (entries : List (κ × α)) :
    erase key (mapValues f entries) = mapValues f (erase key entries) := by
  induction entries with
  | nil => rfl
  | cons entry rest ih =>
    simp only [mapValues, List.map_cons, erase] at ih ⊢
    split
    · rfl
    · rw [ih, List.map_cons]

theorem Entries.eq_nil_of_get? {κ α : Type} [DecidableEq κ] {entries : List (κ × α)}
    (h : ∀ key, get? key entries = none) : entries = [] := by
  cases entries with
  | nil => rfl
  | cons entry rest =>
    have hfirst := h entry.1
    rw [get?, if_pos rfl] at hfirst
    cases hfirst

theorem Body.unnamed_map {σ τ : Type} (f : σ → τ) (body : Body σ) :
    (body.map f).unnamed = body.unnamed.map f := by
  cases body with
  | object keywords extra => simp only [map, unnamed, Entries.erase_mapValues]
  | boolean | reference => rfl

namespace Schema

/-- The schema without the identifiers of its nodes. -/
def unnamed : Schema → Schema :=
  descend fun s body => .node s.id s.location s.draft (body.map Prod.snd).unnamed

theorem unnamed_node (s : Schema) :
    s.unnamed = .node s.id s.location s.draft (s.body.map unnamed).unnamed := by
  rw [unnamed, descend_node, Body.map_map]
  rfl

/-- The content of a schema but for identifiers. -/
def bare (s : Schema) : Schema := s.unnamed.content

theorem bare_node (s : Schema) : s.bare = .node 0 default default (s.body.map bare).unnamed := by
  rw [bare, unnamed_node, content_node]
  simp only [body, ← Body.unnamed_map, Body.map_map]
  rfl

/-- Nodes of the same sort with the same members but for identifiers are the same but for
identifiers. -/
theorem bare_of_members {s t : Schema} (hs : s.isReference = false) (ht : t.isReference = false)
    (hboolean : s.boolean? = t.boolean?) (hordered : Entries.Sorted s.keywords)
    (hordered' : Entries.Sorted t.keywords) (hextra : s.extra = t.extra)
    (hkeyword : ∀ kind, kind ≠ .id →
      Option.Rel (Same (Keyword.map bare)) (s.keyword? kind) (t.keyword? kind)) :
    s.bare = t.bare := by
  have hrelated : Entries.Related (Same (Keyword.map bare)) (Entries.erase .id s.keywords)
      (Entries.erase .id t.keywords) := by
    refine Entries.related_of_sorted (hordered.erase .id) (hordered'.erase .id) fun kind => ?_
    by_cases hkind : kind = .id
    · rw [hkind, Entries.get?_erase_self hordered, Entries.get?_erase_self hordered']
      exact .none
    · rw [Entries.get?_erase_of_ne hkind, Entries.get?_erase_of_ne hkind]
      exact hkeyword kind hkind
  have hkeywords := hrelated.mapValues_eq
  obtain ⟨id, location, draft, body⟩ := s
  obtain ⟨id', location', draft', body'⟩ := t
  cases body with
  | reference => cases hs
  | boolean b =>
    cases body' with
    | reference => cases ht
    | object => cases hboolean
    | boolean b' =>
      cases hboolean
      rw [bare_node, bare_node]
      rfl
  | object ks extra =>
    cases body' with
    | reference => cases ht
    | boolean => cases hboolean
    | object ks' extra' =>
      cases hextra
      rw [bare_node, bare_node]
      simp only [body, Body.map, Body.unnamed, Entries.erase_mapValues]
      exact congrArg (fun ks => Schema.node 0 default default (.object ks extra)) hkeywords

end Schema

/-! ## A second merge -/

section

variable {merges merges' : Schema → Schema → Schema → Prop} {clean clean' : Prop}
  {f : Schema → Schema}

theorem PairwiseMerges.self {bs rs : List Schema} (h : PairwiseMerges merges bs bs rs)
    (hself : ∀ b ∈ bs, ∀ r, merges b b r → f r = f b) : rs.map f = bs.map f := by
  induction bs generalizing rs with
  | nil =>
    cases h
    rfl
  | cons b bs ih =>
    cases h with
    | cons hmerged hrest =>
      rw [List.map_cons, List.map_cons, hself b List.mem_cons_self _ hmerged,
        ih hrest fun b' hb' => hself b' (List.mem_cons_of_mem _ hb')]

theorem PairwiseMerges.again {bs os rs rs' : List Schema} (h : PairwiseMerges merges bs os rs)
    (h' : PairwiseMerges merges' rs os rs')
    (hagain : ∀ b ∈ bs, ∀ o ∈ os, ∀ r r', merges b o r → merges' r o r' → f r' = f r) :
    rs'.map f = rs.map f := by
  induction h generalizing rs' with
  | nil =>
    cases h'
    rfl
  | cons hmerged _ ih =>
    cases h' with
    | cons hmerged' hrest' =>
      rw [List.map_cons, List.map_cons,
        hagain _ List.mem_cons_self _ List.mem_cons_self _ _ hmerged hmerged',
        ih hrest' fun b hb o ho => hagain b (List.mem_cons_of_mem _ hb) o
          (List.mem_cons_of_mem _ ho)]

theorem Dependency.Merges.self {b d : Dependency Schema}
    (h : Dependency.Merges merges clean b b d) (hb : b.ordered = true)
    (hself : ∀ c r, b = .schema c → merges c c r → f r = f c) : d.map f = b.map f := by
  cases h with
  | schema hmerged => exact congrArg Dependency.schema (hself _ _ rfl hmerged)
  | properties =>
    rw [Members.union_of_subset (of_decide_eq_true hb) (List.Subset.refl _)]

theorem Dependency.Merges.again {b o d d' : Dependency Schema}
    (h : Dependency.Merges merges clean b o d) (h' : Dependency.Merges merges' clean' d o d')
    (hb : b.ordered = true) (ho : o.ordered = true)
    (hagain : ∀ c e r r', b = .schema c → o = .schema e → merges c e r → merges' r e r' →
      f r' = f r)
    (hself : ∀ e r, o = .schema e → merges' e e r → f r = f e) : d'.map f = d.map f := by
  cases h with
  | schema hmerged =>
    cases h' with
    | schema hmerged' =>
      exact congrArg Dependency.schema (hagain _ _ _ _ rfl rfl hmerged hmerged')
  | properties =>
    cases h' with
    | properties =>
      rw [Members.union_of_subset ((of_decide_eq_true hb : Members.Sorted _).union _)
        (Members.subset_union_right _ _)]
  | toSchema | toProperties => exact h'.self ho hself

namespace Merge

theorem uniteValues_of_subset {a b : List Json}
    (h : ∀ v ∈ b, ∃ w ∈ a, w.equals v = true) : uniteValues a b = a := by
  induction b with
  | nil => rfl
  | cons v rest ih =>
    have hany : a.any (· == v) = true := by
      obtain ⟨w, hw, hequal⟩ := h v List.mem_cons_self
      exact List.any_eq_true.mpr ⟨w, hw, hequal⟩
    have hrest := ih fun u hu => h u (List.mem_cons_of_mem _ hu)
    unfold uniteValues at hrest ⊢
    rw [List.foldl_cons, if_pos hany]
    exact hrest

theorem uniteValues_again (a b : List Json) :
    uniteValues (uniteValues a b) b = uniteValues a b := by
  refine uniteValues_of_subset fun v hv => ?_
  obtain ⟨w, hw, hequal⟩ := mem_uniteValues.2 v hv
  exact ⟨w, hw, (Json.equals_comm w v).trans hequal⟩

theorem mergeBound_again (name : String) (a b : Option Number) :
    (mergeBound name (mergeBound name a b).1 b).1 = (mergeBound name a b).1 := by
  cases a <;> cases b <;> rfl

theorem mergeLimit_again (a b c : Limit) (h : (mergeLimit a b).keyword = .limit c) :
    (mergeLimit c b).keyword = .limit c := by
  have hc : c = ⟨(mergeBound "inclusive" a.inclusive b.inclusive).1,
      (mergeBound "exclusive" a.exclusive b.exclusive).1⟩ := (Keyword.limit.inj h).symm
  simp only [mergeLimit, hc, mergeBound_again]

theorem mergeLimit_self (a : Limit) : (mergeLimit a a).keyword = .limit a := by
  obtain ⟨inclusive, exclusive⟩ := a
  cases inclusive <;> cases exclusive <;> rfl

theorem replace_again (k o : Keyword Schema) :
    (replace (replace k o).keyword o).keyword = (replace k o).keyword := by
  by_cases hsame : Schema.sameKeyword k o = true
  · simp [replace, hsame]
  · by_cases hself : Schema.sameKeyword o o = true <;> simp [replace, hsame, hself]

theorem replace_self (k : Keyword Schema) : (replace k k).keyword = k := by
  unfold replace
  split <;> rfl

end Merge

namespace Keyword

variable {k o m m' : Keyword Schema}

/-- A keyword merged with itself stays. -/
theorem Merges.self (h : Merges merges clean k k m) (hk : k.ordered = true)
    (hself : ∀ b ∈ k.nodes, ∀ r, merges b b r → f r = f b) : m.map f = k.map f := by
  cases h with
  | refused => rfl
  | replaced _ _ heq => rw [heq, Merge.replace_self]
  | names | types =>
    rw [Members.union_of_subset (of_decide_eq_true hk) (List.Subset.refl _)]
  | jsonList =>
    rw [Merge.uniteValues_of_subset fun v hv => ⟨v, hv, v.equals_self⟩]
  | limit => rw [Merge.mergeLimit_self]
  | schema h => exact congrArg Keyword.schema (hself _ List.mem_cons_self _ h)
  | items h => exact congrArg Keyword.items (hself _ List.mem_cons_self _ h)
  | schemaList h => exact congrArg Keyword.schemaList (h.self fun b hb => hself b (by
      rwa [nodes_schemaList]))
  | tuple h => exact congrArg Keyword.tuple (h.self fun b hb => hself b (by rwa [nodes_tuple]))
  | @schemaMap bs _ rs hsorted h =>
    have hrelated : Entries.Related (Same f) rs bs := by
      refine Entries.related_of_sorted hsorted (of_decide_eq_true hk) fun name => ?_
      refine (h name).self fun hb hmerged => hself _ ?_ _ hmerged
      exact mem_nodes_schemaMap.mpr ⟨name, Entries.mem_of_get? hb⟩
    exact congrArg Keyword.schemaMap hrelated.mapValues_eq
  | @dependencies bs _ rs hsorted h =>
    obtain ⟨hbs, hordered⟩ := ordered_dependencies.mp hk
    have hrelated : Entries.Related (Same (Dependency.map f)) rs bs := by
      refine Entries.related_of_sorted hsorted hbs fun name => ?_
      refine (h name).self fun hb hmerged => ?_
      have hmem := Entries.mem_of_get? hb
      refine hmerged.self (hordered name _ hmem) fun c r hc => hself c ?_ r
      exact mem_nodes_dependencies.mpr ⟨name, hc ▸ hmem⟩
    exact congrArg Keyword.dependencies hrelated.mapValues_eq

theorem fits_of_scalars {σ τ : Type} {k : Keyword σ} {o : Keyword τ} (h : k.scalars o = true) :
    k.fits o = true := by
  cases k <;> cases o <;> first
    | rfl
    | cases h

/-- Keywords that do not fit stay, however often they are merged. -/
theorem Merges.eq_of_not_fits (h : Merges merges clean k o m) (hfits : k.fits o = false) :
    m = k := by
  cases h with
  | refused => rfl
  | replaced hscalars => cases (fits_of_scalars hscalars).symm.trans hfits
  | names | types | jsonList | limit | schema | items | schemaMap | dependencies => cases hfits
  | schemaList h | tuple h => exact absurd h.length_eq (of_decide_eq_false hfits)

theorem Merges.eq_replace (h : Merges merges clean k o m) (hscalars : k.scalars o = true) :
    m = (Merge.replace k o).keyword := by
  cases h with
  | refused hfits => cases (fits_of_scalars hscalars).symm.trans hfits
  | replaced _ _ heq => exact heq
  | _ => cases hscalars

theorem scalars_replace (h : k.scalars o = true) :
    (Merge.replace k o).keyword.scalars o = true := by
  unfold Merge.replace
  split
  · exact h
  · cases k <;> cases o <;> first
      | rfl
      | cases h

/-- An override merged into a keyword once more changes nothing. -/
theorem Merges.again (h : Merges merges clean k o m) (h' : Merges merges' clean' m o m')
    (hk : k.ordered = true) (ho : o.ordered = true)
    (hagain : ∀ b ∈ k.nodes, ∀ c ∈ o.nodes, ∀ r r', merges b c r → merges' r c r' → f r' = f r)
    (hself : ∀ c ∈ o.nodes, ∀ r, merges' c c r → f r = f c) : m'.map f = m.map f := by
  have hm := h.ordered hk ho
  cases h with
  | refused hfits => rw [h'.eq_of_not_fits hfits]
  | replaced hscalars _ heq =>
    subst heq
    rw [h'.eq_replace (scalars_replace hscalars), Merge.replace_again]
  | names =>
    cases h' with
    | refused => rfl
    | replaced hscalars => cases hscalars
    | names => rw [Members.union_of_subset (of_decide_eq_true hm) (Members.subset_union_right _ _)]
  | types =>
    cases h' with
    | refused => rfl
    | replaced hscalars => cases hscalars
    | types => rw [Members.union_of_subset (of_decide_eq_true hm) (Members.subset_union_right _ _)]
  | jsonList =>
    cases h' with
    | refused => rfl
    | replaced hscalars => cases hscalars
    | jsonList => rw [Merge.uniteValues_again]
  | @limit a b =>
    generalize hc : (Merge.mergeLimit a b).keyword = c at h' ⊢
    cases h' with
    | refused => rfl
    | replaced hscalars => cases c <;> cases hscalars
    | limit => rw [Merge.mergeLimit_again a b _ hc]
  | schema h =>
    cases h' with
    | refused => rfl
    | replaced hscalars => cases hscalars
    | schema h' =>
      exact congrArg Keyword.schema (hagain _ List.mem_cons_self _ List.mem_cons_self _ _ h h')
  | items h =>
    cases h' with
    | refused => rfl
    | replaced hscalars => cases hscalars
    | items h' =>
      exact congrArg Keyword.items (hagain _ List.mem_cons_self _ List.mem_cons_self _ _ h h')
  | schemaList h =>
    simp only [nodes_schemaList] at hagain
    cases h' with
    | refused => rfl
    | replaced hscalars => cases hscalars
    | schemaList h' => exact congrArg Keyword.schemaList (h.again h' hagain)
  | tuple h =>
    simp only [nodes_tuple] at hagain
    cases h' with
    | refused => rfl
    | replaced hscalars => cases hscalars
    | tuple h' => exact congrArg Keyword.tuple (h.again h' hagain)
  | @schemaMap bs os rs hsorted h =>
    cases h' with
    | refused => rfl
    | replaced hscalars => cases hscalars
    | @schemaMap _ _ rs' hsorted' h' =>
      have hrelated : Entries.Related (Same f) rs' rs := by
        refine Entries.related_of_sorted hsorted' hsorted fun name => ?_
        refine (h name).again (h' name) (fun _ => rfl) (fun hb hc => ?_) fun hc => ?_
        · exact hagain _ (mem_nodes_schemaMap.mpr ⟨name, Entries.mem_of_get? hb⟩) _
            (mem_nodes_schemaMap.mpr ⟨name, Entries.mem_of_get? hc⟩) _ _
        · exact hself _ (mem_nodes_schemaMap.mpr ⟨name, Entries.mem_of_get? hc⟩) _
      exact congrArg Keyword.schemaMap hrelated.mapValues_eq
  | @dependencies bs os rs hsorted h =>
    obtain ⟨-, hordered⟩ := ordered_dependencies.mp hk
    obtain ⟨-, hordered'⟩ := ordered_dependencies.mp ho
    cases h' with
    | refused => rfl
    | replaced hscalars => cases hscalars
    | @dependencies _ _ rs' hsorted' h' =>
      have hrelated : Entries.Related (Same (Dependency.map f)) rs' rs := by
        refine Entries.related_of_sorted hsorted' hsorted fun name => ?_
        refine (h name).again (h' name) (fun _ => rfl) (fun hb hc hmerged hmerged' => ?_)
          fun hc hmerged => ?_
        · have hbmem := Entries.mem_of_get? hb
          have hcmem := Entries.mem_of_get? hc
          refine hmerged.again hmerged' (hordered name _ hbmem) (hordered' name _ hcmem)
            (fun d e r r' hd he => hagain d ?_ e ?_ r r') fun e r he => hself e ?_ r
          · exact mem_nodes_dependencies.mpr ⟨name, hd ▸ hbmem⟩
          · exact mem_nodes_dependencies.mpr ⟨name, he ▸ hcmem⟩
          · exact mem_nodes_dependencies.mpr ⟨name, he ▸ hcmem⟩
        · have hcmem := Entries.mem_of_get? hc
          refine hmerged.self (hordered' name _ hcmem) fun e r he => hself e ?_ r
          exact mem_nodes_dependencies.mpr ⟨name, he ▸ hcmem⟩
      exact congrArg Keyword.dependencies hrelated.mapValues_eq

end Keyword

namespace Schema

variable {base above R R' : Schema}

theorem isReference_of_boolean? {s : Schema} {value : Bool} (h : s.boolean? = some value) :
    s.isReference = false := by
  obtain ⟨id, location, draft, body⟩ := s
  cases body with
  | boolean => rfl
  | object | reference => cases h

theorem Overlaid.eq_none (h : Overlaid merges clean base above R)
    (htrue : R.boolean? = some true ↔ base.boolean? = some true ∧ R.keywords = [] ∧ R.extra = [])
    (hbase : base.boolean? ≠ some true) : R.boolean? = none := by
  cases hR : R.boolean? with
  | none => rfl
  | some value =>
    cases value with
    | false => exact absurd hR h.boolean?
    | true => exact absurd (htrue.mp hR).1 hbase

/-- A node merged with itself stays, if the nodes nested in it do. -/
theorem Merges.self (h : Schema.Merges merges clean base base R) (hbase : base.isOrdered = true)
    (hself : ∀ {kind k}, (kind, k) ∈ base.keywords →
      ∀ b ∈ k.nodes, ∀ r, merges b b r → r.bare = b.bare) : R.bare = base.bare := by
  obtain ⟨hkeywords, hextra, hnested⟩ := (isOrdered_iff base).mp hbase
  cases h with
  | reference | unchanged | replaced => rfl
  | overlaid href _ _ hnone h htrue =>
    have hboolean := h.eq_none htrue (by rw [hnone]; exact nofun)
    refine bare_of_members h.isReference href (hboolean.trans hnone.symm) h.keywords hkeywords
      ?_ fun kind hkind => ?_
    · refine Entries.ext_of_sorted String.lt_irrefl (fun _ _ _ => String.lt_trans) h.extra hextra
        fun key => ?_
      rw [h.extra?, Option.or_self]
    · refine (h.keyword? kind hkind).self fun hk hmerged => ?_
      have hmem := Entries.mem_of_get? hk
      exact hmerged.self (hnested kind _ hmem).1 (hself hmem)

/-- An override merged into a node once more changes nothing, if that holds for the nodes
nested in it. -/
theorem Merges.again (h : Schema.Merges merges clean base above R)
    (h' : Schema.Merges merges' clean' R above R') (hbase : base.isOrdered = true)
    (hover : above.isOrdered = true)
    (hagain : ∀ {kind k l}, (kind, k) ∈ base.keywords → (kind, l) ∈ above.keywords →
      ∀ b ∈ k.nodes, ∀ o ∈ l.nodes, ∀ r r', merges b o r → merges' r o r' → r'.bare = r.bare)
    (hself : ∀ {kind l}, (kind, l) ∈ above.keywords →
      ∀ o ∈ l.nodes, ∀ r, merges' o o r → r.bare = o.bare) : R'.bare = R.bare := by
  obtain ⟨-, -, hnested⟩ := (isOrdered_iff base).mp hbase
  obtain ⟨-, -, hnested'⟩ := (isOrdered_iff above).mp hover
  cases h with
  | reference | replaced => exact h'.self hover hself
  | unchanged href hvalue hfalse =>
    cases h' with
    | reference hreference =>
      rw [href, isReference_of_boolean? hvalue] at hreference
      simp at hreference
    | unchanged => rfl
    | replaced _ _ hbad =>
      rcases hbad with ⟨-, hnone⟩ | ⟨hnot, hover⟩
      · cases hnone.symm.trans hvalue
      · exact absurd (hfalse (Option.some.inj (hvalue.symm.trans hover))) hnot
    | overlaid _ _ _ hnone => cases hnone.symm.trans hvalue
  | overlaid href href' hnot hnone h htrue =>
    cases h' with
    | reference hreference =>
      rw [h.isReference, href'] at hreference
      simp at hreference
    | unchanged => rfl
    | replaced _ _ hfalse =>
      rcases hfalse with ⟨hfalse, -⟩ | ⟨-, hfalse⟩
      · exact absurd hfalse h.boolean?
      · cases hnone.symm.trans hfalse
    | overlaid _ _ _ _ h' htrue' =>
      have hextra : R'.extra = R.extra := by
        refine Entries.ext_of_sorted String.lt_irrefl (fun _ _ _ => String.lt_trans) h'.extra
          h.extra fun key => ?_
        rw [h'.extra?, h.extra?]
        cases Entries.get? key above.extra <;> rfl
      have hkeyword : ∀ kind, kind ≠ .id →
          Option.Rel (Same (Keyword.map bare)) (R'.keyword? kind) (R.keyword? kind) := by
        intro kind hkind
        refine (h.keyword? kind hkind).again (h'.keyword? kind hkind) (fun _ => rfl)
          (fun hk hl hmerged hmerged' => ?_) fun hl hmerged => ?_
        · have hk := Entries.mem_of_get? hk
          have hl := Entries.mem_of_get? hl
          exact hmerged.again hmerged' (hnested kind _ hk).1 (hnested' kind _ hl).1
            (hagain hk hl) (hself hl)
        · have hl := Entries.mem_of_get? hl
          exact hmerged.self (hnested' kind _ hl).1 (hself hl)
      refine bare_of_members h'.isReference h.isReference ?_ h'.keywords h.keywords hextra hkeyword
      by_cases hR : R.boolean? = some true
      · obtain ⟨-, hkeywords, hempty⟩ := htrue.mp hR
        have hnone : ∀ kind, R.keyword? kind = none := fun kind => by
          rw [Schema.keyword?, hkeywords, Entries.get?_nil]
        have hempty' : R'.keywords = [] := by
          refine Entries.eq_nil_of_get? fun kind => ?_
          by_cases hkind : kind = .id
          · rw [hkind]
            exact h'.identifier.elim (fun habsent => habsent) fun hsame => hsame.trans (hnone .id)
          · have hrel := hkeyword kind hkind
            rw [hnone kind] at hrel
            generalize hx : R'.keyword? kind = x at hrel
            cases hrel
            exact hx
        exact (htrue'.mpr ⟨hR, hempty', hextra.trans hempty⟩).trans hR.symm
      · rw [h'.eq_none htrue' hR]
        cases hvalue : R.boolean? with
        | none => rfl
        | some value =>
          cases value with
          | false => exact absurd hvalue h.boolean?
          | true => exact absurd hvalue hR

end Schema

end

namespace Merge

variable {base override R R' : Schema} {report : MergeReport}

/-- A schema merged with itself is itself. -/
theorem bare_of_yields_self (hbase : base.isOrdered = true)
    (h : Yields merging report base base R) : R.bare = base.bare := by
  induction base using Schema.induction generalizing R with
  | step base ih =>
    obtain ⟨-, -, hnested⟩ := (Schema.isOrdered_iff base).mp hbase
    obtain ⟨_, _, _, hgives, hr⟩ := h
    refine (merges_of_mergeAt hbase hbase hgives hr).self hbase fun {kind k} hk b hb r hr => ?_
    exact ih kind k b hk hb ((hnested kind k hk).2 b hb) hr

/-- An override merged once more into what it was merged into changes nothing. -/
theorem bare_of_yields_again {report' : MergeReport} (hbase : base.isOrdered = true)
    (hover : override.isOrdered = true) (h : Yields merging report base override R)
    (h' : Yields merging report' R override R') : R'.bare = R.bare := by
  induction base using Schema.induction generalizing override R R' with
  | step base ih =>
    obtain ⟨-, -, hnested⟩ := (Schema.isOrdered_iff base).mp hbase
    obtain ⟨-, -, hnested'⟩ := (Schema.isOrdered_iff override).mp hover
    obtain ⟨_, _, _, hgives, hr⟩ := h
    obtain ⟨_, _, _, hgives', hr'⟩ := h'
    have hR := isOrdered_of_mergeAt hbase hover hgives
    refine (merges_of_mergeAt hbase hover hgives hr).again (merges_of_mergeAt hR hover hgives' hr')
      hbase hover (fun {kind k l} hk hl b hb o ho r r' hmerged hmerged' => ?_)
      fun {kind l} hl o ho r hmerged => ?_
    · exact ih kind k b hk hb ((hnested kind k hk).2 b hb) ((hnested' kind l hl).2 o ho) hmerged
        hmerged'
    · exact bare_of_yields_self ((hnested' kind l hl).2 o ho) hmerged

end Merge

/-- Merging the same override a second time changes nothing more: what two schemas merge into
and what the override merged into that gives have the same content, but for identifiers. -/
theorem unnamed_mergeSchemas_again {base override : Schema} (hbase : base.isOrdered = true)
    (hover : override.isOrdered = true) (store store' : Store) :
    let (once, _) := mergeSchemas base override store
    let (twice, _) := mergeSchemas once override store'
    twice.unnamed.equals once.unnamed = true := by
  refine Schema.equals_of_content _ _ ?_
  exact Merge.bare_of_yields_again hbase hover
    ⟨.root, ⟨store, .empty⟩, _, rfl, List.Subset.refl _⟩
    ⟨.root, ⟨store', .empty⟩, _, rfl, List.Subset.refl _⟩

namespace Merge

/-- The length is replaced, the property added and the list refused in the first merge only. -/
theorem again_of_sample :
    base₀.isOrdered = true ∧ over₀.isOrdered = true ∧
      let (once, report, store) := mergeSchemas base₀ over₀ .empty
      let (twice, report', _) := mergeSchemas once over₀ store
      once.unnamed.equals base₀.unnamed = false ∧ report.isConflict = true ∧
        report'.isConflict = false ∧ report'.hasErrors = true ∧
        twice.unnamed.equals once.unnamed = true := by
  have hbase : base₀.isOrdered = true := by decide +kernel
  have hover : over₀.isOrdered = true := by decide +kernel
  exact ⟨hbase, hover, by decide +kernel, by decide +kernel, by decide +kernel,
    by decide +kernel, unnamed_mergeSchemas_again hbase hover .empty _⟩

end Merge
end SchemaAtlas
