import SchemaAtlas.Proofs.Merge.Kept
import SchemaAtlas.Proofs.Schema.Content
import SchemaAtlas.Proofs.Schema.Ordered

/-!
# What two nodes merge into

The relations `Dependency.Merges`, `Keyword.Merges` and `Schema.Merges` say exactly what a
merge makes of its arguments, without the monad and the report: `merges` stands for what
nested schemas are merged into, and `clean` for a report without conflicts and errors. Maps
are merged key by key: `Entries.Laid` says what stands under one key. The main statement is
that `mergeAt` keeps to these relations; that it gives schemas in order follows from them.
-/

namespace SchemaAtlas

namespace Entries

variable {κ α : Type}

/-- What stands under a key of two maps, and of the map that the second over the first makes. -/
inductive Laid (merges : α → α → α → Prop) : Option α → Option α → Option α → Prop
  | kept (x : Option α) : Laid merges x none x
  | added (y : α) : Laid merges none (some y) (some y)
  | merged {x y z : α} : merges x y z → Laid merges (some x) (some y) (some z)

/-- A map is made of two others, key by key. -/
def Overlay [DecidableEq κ] (merges : α → α → α → Prop) (base above result : List (κ × α)) :
    Prop :=
  ∀ key, Laid merges (get? key base) (get? key above) (get? key result)

variable {merges merges' : α → α → α → Prop} {R : α → α → Prop} {x y z z' : Option α}

/-- Laying a map over itself changes nothing, if it changes no value. -/
theorem Laid.self (h : Laid merges x x z) (hself : ∀ {b c}, x = some b → merges b b c → R c b) :
    Option.Rel R z x := by
  cases h with
  | kept => exact .none
  | merged h => exact .some (hself rfl h)

/-- Laying the same over a result once more changes nothing, if it changes no value. -/
theorem Laid.again (h : Laid merges x y z) (h' : Laid merges' z y z') (hrefl : ∀ a, R a a)
    (hmerged : ∀ {a b c c'}, x = some a → y = some b → merges a b c → merges' c b c' → R c' c)
    (hself : ∀ {b c}, y = some b → merges' b b c → R c b) : Option.Rel R z' z := by
  cases h with
  | kept =>
    cases h'
    cases x with
    | none => exact .none
    | some a => exact .some (hrefl a)
  | added b =>
    cases h' with
    | merged h' => exact .some (hself rfl h')
  | merged h =>
    cases h' with
    | merged h' => exact .some (hmerged rfl rfl h h')

/-- Which of two maps is laid over the other makes no difference, if it makes none for values
under the same key. -/
theorem Laid.swap (h : Laid merges x y z) (h' : Laid merges' y x z') (hrefl : ∀ a, R a a)
    (hmerged : ∀ {a b c c'}, x = some a → y = some b → merges a b c → merges' b a c' → R c' c) :
    Option.Rel R z' z := by
  cases h with
  | kept =>
    cases h' with
    | kept => exact .none
    | added b => exact .some (hrefl b)
  | added b =>
    cases h'
    exact .some (hrefl b)
  | merged h =>
    cases h' with
    | merged h' => exact .some (hmerged rfl rfl h h')

variable [LT κ] [DecidableEq κ] [IsStrictTotalOrder κ (· < ·)]

/-- Maps in order with related values under every key are related entry by entry. -/
theorem related_of_sorted {R : α → α → Prop} {left right : List (κ × α)} (hl : Sorted left)
    (hr : Sorted right) (h : ∀ key, Option.Rel R (get? key left) (get? key right)) :
    Related R left right := by
  have hkeys : keys left = keys right := by
    refine List.Pairwise.eq_of_mem_iff (r := (· < ·)) (List.pairwise_map.mpr hl)
      (List.pairwise_map.mpr hr) fun key => ?_
    have hnone : get? key left = none ↔ get? key right = none := by
      have hrel := h key
      revert hrel
      generalize get? key left = a
      generalize get? key right = b
      rintro (_ | _) <;> simp
    rw [get?_eq_none, get?_eq_none] at hnone
    exact not_iff_not.mp hnone
  induction left generalizing right with
  | nil =>
    obtain rfl : right = [] := List.map_eq_nil_iff.mp hkeys.symm
    exact .nil
  | cons first rest ih =>
    cases right with
    | nil => cases hkeys
    | cons other more =>
      obtain ⟨k, v⟩ := first
      obtain ⟨l, w⟩ := other
      obtain ⟨hkey, hrest⟩ := List.cons.inj hkeys
      cases hkey
      have hvalue := h k
      rw [get?, if_pos rfl, get?, if_pos rfl] at hvalue
      obtain ⟨hvalue⟩ := hvalue
      refine .cons ⟨rfl, hvalue⟩ (ih (List.pairwise_cons.mp hl).2 (List.pairwise_cons.mp hr).2
        (fun key => ?_) hrest)
      by_cases hkey : key = k
      · have hirrefl := Std.Irrefl.irrefl (α := κ) (r := (· < ·))
        rw [hkey, get?_of_sorted hirrefl hl, get?_of_sorted hirrefl hr]
        exact .none
      · have hother := h key
        rw [get?, if_neg hkey, get?, if_neg hkey] at hother
        exact hother

end Entries

/-! ## The relations -/

section

variable (merges : Schema → Schema → Schema → Prop) (clean : Prop)

/-- Lists of schemas are merged element by element. -/
inductive PairwiseMerges : List Schema → List Schema → List Schema → Prop
  | nil : PairwiseMerges [] [] []
  | cons {b o r : Schema} {bs os rs : List Schema} : merges b o r → PairwiseMerges bs os rs →
      PairwiseMerges (b :: bs) (o :: os) (r :: rs)

/-- What two dependencies of a property merge into. -/
inductive Dependency.Merges : Dependency Schema → Dependency Schema → Dependency Schema → Prop
  | schema {b o r : Schema} : merges b o r → Merges (.schema b) (.schema o) (.schema r)
  | properties {a b : List String} : (clean → a = b) →
      Merges (.properties a) (.properties b) (.properties (Members.union a b))
  | toSchema {a : List String} {o : Schema} : ¬clean →
      Merges (.properties a) (.schema o) (.schema o)
  | toProperties {b : Schema} {a : List String} : ¬clean →
      Merges (.schema b) (.properties a) (.properties a)

namespace Keyword

/-- Keywords with one value of the same sort, of which one replaces the other. -/
def scalars {σ τ : Type} : Keyword σ → Keyword τ → Bool
  | .string _, .string _ | .uri _, .uri _ | .number _, .number _ | .count _, .count _
  | .boolean _, .boolean _ | .json _, .json _ => true
  | _, _ => false

/-- Keywords that can be merged. -/
def fits {σ τ : Type} : Keyword σ → Keyword τ → Bool
  | .names _, .names _ | .types _, .types _ | .jsonList _, .jsonList _ | .limit _, .limit _
  | .schema _, .schema _ | .items _, .items _ | .schemaMap _, .schemaMap _
  | .dependencies _, .dependencies _ => true
  | .schemaList bs, .schemaList os | .tuple bs, .tuple os => decide (bs.length = os.length)
  | k, o => k.scalars o

/-- What two keywords merge into; of two that do not fit, the base's stays. -/
inductive Merges : Keyword Schema → Keyword Schema → Keyword Schema → Prop
  | replaced {k o m : Keyword Schema} : k.scalars o = true →
      (clean → Schema.sameKeyword k o = true) → m = (Merge.replace k o).keyword → Merges k o m
  | names {a b : List String} : (clean → a = b) →
      Merges (.names a) (.names b) (.names (Members.union a b))
  | types {a b : List Shape} : (clean → a = b) →
      Merges (.types a) (.types b) (.types (Members.union a b))
  | jsonList {a b : List Json} : (clean → Json.equalElements a b = true) →
      Merges (.jsonList a) (.jsonList b) (.jsonList (Merge.uniteValues a b))
  | limit {a b : Limit} : (clean → (Merge.mergeLimit a b).conflict = none) →
      Merges (.limit a) (.limit b) (Merge.mergeLimit a b).keyword
  | schema {b o r : Schema} : merges b o r → Merges (.schema b) (.schema o) (.schema r)
  | items {b o r : Schema} : merges b o r → Merges (.items b) (.items o) (.items r)
  | schemaList {bs os rs : List Schema} : PairwiseMerges merges bs os rs →
      Merges (.schemaList bs) (.schemaList os) (.schemaList rs)
  | tuple {bs os rs : List Schema} : PairwiseMerges merges bs os rs →
      Merges (.tuple bs) (.tuple os) (.tuple rs)
  | schemaMap {bs os rs : List (String × Schema)} : Entries.Sorted rs →
      Entries.Overlay merges bs os rs → Merges (.schemaMap bs) (.schemaMap os) (.schemaMap rs)
  | dependencies {bs os rs : List (String × Dependency Schema)} : Entries.Sorted rs →
      Entries.Overlay (Dependency.Merges merges clean) bs os rs →
      Merges (.dependencies bs) (.dependencies os) (.dependencies rs)
  | refused {k o : Keyword Schema} : k.fits o = false → ¬clean → Merges k o k

end Keyword

namespace Schema

/-- A node has the members of two others, identifiers apart. -/
structure Overlaid (base above R : Schema) : Prop where
  keywords : Entries.Sorted R.keywords
  extra : Entries.Sorted R.extra
  isReference : R.isReference = false
  boolean? : R.boolean? ≠ some false
  identifier : R.keyword? .id = none ∨ R.keyword? .id = base.keyword? .id
  keyword? : ∀ kind, kind ≠ .id → Entries.Laid (Keyword.Merges merges clean)
    (base.keyword? kind) (above.keyword? kind) (R.keyword? kind)
  extra? : ∀ key, Entries.get? key R.extra =
    (Entries.get? key above.extra).or (Entries.get? key base.extra)

/-- What two nodes merge into. -/
inductive Merges (base above : Schema) : Schema → Prop
  | reference : base.isReference = true ∨ above.isReference = true → Merges base above above
  | unchanged {value : Bool} : base.isReference = false → above.boolean? = some value →
      (value = false → base.boolean? = some false) → Merges base above base
  | replaced : base.isReference = false → above.isReference = false →
      (base.boolean? = some false ∧ above.boolean? = none ∨
        base.boolean? ≠ some false ∧ above.boolean? = some false) → ¬clean →
      Merges base above above
  | overlaid {R : Schema} : base.isReference = false → above.isReference = false →
      base.boolean? ≠ some false → above.boolean? = none → Overlaid merges clean base above R →
      (R.boolean? = some true ↔ base.boolean? = some true ∧ R.keywords = [] ∧ R.extra = []) →
      Merges base above R

end Schema

end

/-- Neither a conflict nor an error is reported. -/
def MergeReport.Clean (r : MergeReport) : Prop := r.isConflict = false ∧ r.hasErrors = false

theorem MergeReport.not_clean_of_mem {r : MergeReport} {path : Pointer} {verb : MergeVerb}
    {message : Option String} (h : ⟨path, verb, message⟩ ∈ r.actions)
    (hverb : verb = .conflict ∨ verb = .error) : ¬r.Clean := by
  rintro ⟨hconflict, herror⟩
  have hhas : r.has verb = true := List.any_eq_true.mpr ⟨_, h, decide_eq_true rfl⟩
  rcases hverb with rfl | rfl
  · exact Bool.false_ne_true (hconflict.symm.trans hhas)
  · exact Bool.false_ne_true (herror.symm.trans hhas)

namespace Merge

variable {merger : Schema → Merger} {report : MergeReport} {clean : Prop} {s s' : MergeState}
  {path : Pointer}

/-- Two schemas were merged on the way to a report. -/
def Yields (merger : Schema → Merger) (report : MergeReport) (b o r : Schema) : Prop :=
  ∃ path, MergedTo merger report path b o r

/-! ## Keywords -/

theorem merges_of_mergePairs (hm : ∀ b p o, Adds (merger b p o)) {index : Nat}
    {bases overrides merged : List Schema} (hlen : bases.length = overrides.length)
    (h : Gives (mergePairs path index (bases.map (withMerger merger)) overrides) s merged s')
    (hr : s'.report.actions ⊆ report.actions) :
    PairwiseMerges (Yields merger report) bases overrides merged := by
  induction bases generalizing index overrides merged s with
  | nil =>
    obtain rfl : overrides = [] := List.length_eq_zero_iff.mp hlen.symm
    obtain ⟨rfl, -⟩ := gives_pure.mp h
    exact .nil
  | cons b bases ih =>
    cases overrides with
    | nil => cases hlen
    | cons o overrides =>
      obtain ⟨r, s₁, hfirst, hrest⟩ := gives_bind.mp h
      obtain ⟨rs, hrs, rfl⟩ := gives_map.mp hrest
      have hgrows := List.Subset.trans (adds_mergePairs hm _ _ _ hrs) hr
      exact .cons ⟨_, s, s₁, hfirst, hgrows⟩ (ih (Nat.succ.inj hlen) hrs)

theorem merges_of_mergeLists (hm : ∀ b p o, Adds (merger b p o)) {kind : KeywordKind}
    {form : List Schema → Keyword Schema} {bases overrides : List Schema} {m : Merged}
    (h : Gives (mergeLists kind path form (bases.map (withMerger merger)) overrides) s (.ok m) s')
    (hr : s'.report.actions ⊆ report.actions) :
    ∃ rs, m = ⟨form rs, none⟩ ∧ PairwiseMerges (Yields merger report) bases overrides rs := by
  unfold mergeLists at h
  split at h
  · rename_i hlen
    obtain ⟨rs, hrs, heq⟩ := gives_map.mp h
    cases heq
    rw [List.length_map] at hlen
    exact ⟨rs, rfl, merges_of_mergePairs hm hlen hrs hr⟩
  · cases (gives_pure.mp h).1

theorem sorted_of_mergeEntries {bases : List (String × Schema × Merger)}
    {merged overrides result : List (String × Schema)} (hsorted : Entries.Sorted merged)
    (h : Gives (mergeEntries path bases merged overrides) s result s') :
    Entries.Sorted result := by
  induction overrides generalizing merged s with
  | nil =>
    obtain ⟨rfl, -⟩ := gives_pure.mp h
    exact hsorted
  | cons entry rest ih =>
    obtain ⟨name, o⟩ := entry
    rw [mergeEntries_cons] at h
    obtain ⟨r, s₁, -, htail⟩ := gives_bind.mp h
    exact ih (hsorted.insert name r) htail

theorem overlay_of_mergeEntries (hm : ∀ b p o, Adds (merger b p o))
    {bases overrides result : List (String × Schema)} (hover : (Entries.keys overrides).Nodup)
    (h : Gives (mergeEntries path (Entries.mapValues (withMerger merger) bases) bases overrides)
      s result s')
    (hr : s'.report.actions ⊆ report.actions) :
    Entries.Overlay (Yields merger report) bases overrides result := by
  intro name
  obtain ⟨hout, hin⟩ := fate_of_mergeEntries hm hover h name
  cases ho : Entries.get? name overrides with
  | none =>
    rw [hout ho]
    exact .kept _
  | some o =>
    obtain ⟨r, hget, hfate⟩ := hin o ho
    rw [hget]
    generalize Entries.get? name bases = b at hfate
    cases hfate with
    | added => exact .added o
    | merged hmerged => exact .merged ⟨_, hmerged.mono hr⟩

theorem laid_of_mergeDependency {name : String} {base : Option (Dependency Schema)}
    {override : Dependency Schema} {result : Dependency Schema × List String}
    (h : Gives (mergeDependency path name (base.map (Dependency.map (withMerger merger)))
      override) s result s')
    (hr : s'.report.actions ⊆ report.actions) (hclean : clean → result.2 = []) :
    Entries.Laid (Dependency.Merges (Yields merger report) clean) base (some override)
      (some result.1) := by
  unfold mergeDependency at h
  cases base with
  | none =>
    obtain ⟨_, _, _, hpure⟩ := gives_bind.mp h
    obtain ⟨rfl, -⟩ := gives_pure.mp hpure
    exact .added override
  | some d =>
    cases d with
    | schema b =>
      cases override with
      | schema o =>
        obtain ⟨r, hmerged, rfl⟩ := gives_map.mp h
        exact .merged (.schema ⟨_, s, s', hmerged, hr⟩)
      | properties ps =>
        obtain ⟨rfl, -⟩ := gives_pure.mp h
        exact .merged (.toProperties fun hc => List.cons_ne_nil _ _ (hclean hc))
    | properties ps =>
      cases override with
      | schema o =>
        obtain ⟨rfl, -⟩ := gives_pure.mp h
        exact .merged (.toSchema fun hc => List.cons_ne_nil _ _ (hclean hc))
      | properties ps' =>
        obtain ⟨rfl, -⟩ := gives_pure.mp h
        refine .merged (.properties fun hc => ?_)
        by_contra hne
        exact List.cons_ne_nil _ _ ((if_neg hne).symm.trans (hclean hc))

theorem overlay_of_mergeDependencies (hm : ∀ b p o, Adds (merger b p o))
    {bases merged overrides : List (String × Dependency Schema)} {conflicts : List String}
    {result : List (String × Dependency Schema) × List String}
    (hover : (Entries.keys overrides).Nodup) (hsorted : Entries.Sorted merged)
    (h : Gives (mergeDependencies path
      (Entries.mapValues (Dependency.map (withMerger merger)) bases) merged conflicts overrides)
      s result s')
    (hr : s'.report.actions ⊆ report.actions) (hclean : clean → result.2 = []) :
    Entries.Sorted result.1 ∧ ∀ name,
      (Entries.get? name overrides = none →
        Entries.get? name result.1 = Entries.get? name merged) ∧
      ∀ o, Entries.get? name overrides = some o →
        Entries.Laid (Dependency.Merges (Yields merger report) clean) (Entries.get? name bases)
          (some o) (Entries.get? name result.1) := by
  induction overrides generalizing merged conflicts s with
  | nil =>
    obtain ⟨rfl, -⟩ := gives_pure.mp h
    exact ⟨hsorted, fun name => ⟨fun _ => rfl, fun o ho => by cases ho⟩⟩
  | cons entry rest ih =>
    obtain ⟨first, o⟩ := entry
    obtain ⟨hnew, hrest⟩ := List.nodup_cons.mp hover
    unfold mergeDependencies at h
    rw [Entries.get?_mapValues] at h
    obtain ⟨⟨d, more⟩, s₁, hd, htail⟩ := gives_bind.mp h
    obtain ⟨hconflicts, -⟩ := fate_of_mergeDependencies hm hrest htail
    have hmore : clean → more = [] := fun hc =>
      (List.append_eq_nil_iff.mp (List.subset_nil.mp (hclean hc ▸ hconflicts))).2
    have hlaid := laid_of_mergeDependency hd
      (List.Subset.trans (adds_mergeDependencies hm _ _ _ htail) hr) hmore
    obtain ⟨hordered, hat⟩ := ih hrest (hsorted.insert first d) htail
    refine ⟨hordered, fun name => ?_⟩
    obtain ⟨hout, hin⟩ := hat name
    by_cases hname : name = first
    · subst hname
      refine ⟨fun habsent => by simp [Entries.get?] at habsent, fun o' ho' => ?_⟩
      rw [hout (Entries.get?_eq_none.mpr hnew), Entries.get?_insert, if_pos rfl]
      rw [Entries.get?, if_pos rfl] at ho'
      exact Option.some.inj ho' ▸ hlaid
    · simp only [Entries.get?, if_neg hname]
      refine ⟨fun habsent => ?_, hin⟩
      rw [hout habsent, Entries.get?_insert, if_neg hname]

/-- What a merge of two keywords gives. -/
theorem merges_of_mergeKeyword (hm : ∀ b p o, Adds (merger b p o)) {kind : KeywordKind}
    {k o : Keyword Schema} {m : Merged} (hk : k.ordered = true) (ho : o.ordered = true)
    (h : Gives (mergeKeyword kind path (k.map (withMerger merger)) o) s (.ok m) s')
    (hr : s'.report.actions ⊆ report.actions) (hclean : clean → m.conflict = none) :
    Keyword.Merges (Yields merger report) clean k o m.keyword := by
  have hreplaced {k o : Keyword Schema} (hs : k.scalars o = true)
      (hclean : clean → (replace k o).conflict = none) :
      Keyword.Merges (Yields merger report) clean k o (replace k o).keyword := by
    refine .replaced hs (fun hc => ?_) rfl
    by_contra hne
    have hnone := hclean hc
    rw [replace, if_neg hne] at hnone
    cases hnone
  have hunited {differed : Bool} {union : Keyword Schema}
      (hclean : clean → (united differed union).conflict = none) (hc : clean) :
      differed = false := by
    by_contra hne
    have hnone := hclean hc
    rw [united, if_pos (Bool.not_eq_false _ ▸ hne)] at hnone
    cases hnone
  cases k with
  | string a | uri a | number a | count a | boolean a | json a =>
    cases o <;> cases (gives_pure.mp h).1
    exact hreplaced rfl hclean
  | names a =>
    cases o <;> cases (gives_pure.mp h).1
    exact .names fun hc => not_not.mp (of_decide_eq_false (hunited hclean hc))
  | types a =>
    cases o <;> cases (gives_pure.mp h).1
    exact .types fun hc => not_not.mp (of_decide_eq_false (hunited hclean hc))
  | jsonList a =>
    cases o <;> cases (gives_pure.mp h).1
    exact .jsonList fun hc => by simpa using hunited hclean hc
  | limit a =>
    cases o <;> cases (gives_pure.mp h).1
    exact .limit hclean
  | union a ss => cases o <;> cases (gives_pure.mp h).1
  | schema b =>
    cases o with
    | schema c =>
      obtain ⟨r, hmerged, heq⟩ := gives_map.mp h
      cases heq
      exact .schema ⟨_, s, s', hmerged, hr⟩
    | _ => cases (gives_pure.mp h).1
  | items b =>
    cases o with
    | items c =>
      obtain ⟨r, hmerged, heq⟩ := gives_map.mp h
      cases heq
      exact .items ⟨_, s, s', hmerged, hr⟩
    | _ => cases (gives_pure.mp h).1
  | schemaList bs =>
    cases o with
    | schemaList os =>
      obtain ⟨rs, rfl, hrs⟩ := merges_of_mergeLists hm h hr
      exact .schemaList hrs
    | _ => cases (gives_pure.mp h).1
  | tuple bs =>
    cases o with
    | tuple os =>
      obtain ⟨rs, rfl, hrs⟩ := merges_of_mergeLists hm h hr
      exact .tuple hrs
    | _ => cases (gives_pure.mp h).1
  | schemaMap bs =>
    cases o with
    | schemaMap os =>
      obtain ⟨merged, hmerged, heq⟩ := gives_map.mp h
      cases heq
      rw [entries_of_withMerger] at hmerged
      have hb : Entries.Sorted bs := of_decide_eq_true hk
      have hos : Entries.Sorted os := of_decide_eq_true ho
      exact .schemaMap (sorted_of_mergeEntries hb hmerged)
        (overlay_of_mergeEntries hm hos.nodup hmerged hr)
    | _ => cases (gives_pure.mp h).1
  | dependencies bs =>
    cases o with
    | dependencies os =>
      obtain ⟨result, s₁, hresult, hpure⟩ := gives_bind.mp h
      obtain ⟨heq, rfl⟩ := gives_pure.mp hpure
      cases heq
      rw [dependencies_of_withMerger] at hresult
      have hb : Entries.Sorted bs := of_decide_eq_true (Bool.and_eq_true_iff.mp hk).1
      have hos : Entries.Sorted os := of_decide_eq_true (Bool.and_eq_true_iff.mp ho).1
      obtain ⟨hsorted, hat⟩ := overlay_of_mergeDependencies hm hos.nodup hb hresult hr
        fun hc => joined_eq_none.mp (hclean hc)
      refine .dependencies hsorted fun name => ?_
      cases hget : Entries.get? name os with
      | none =>
        rw [(hat name).1 hget]
        exact .kept _
      | some o => exact (hat name).2 o hget
    | _ => cases (gives_pure.mp h).1

/-- Two keywords of which a merge fails do not fit. -/
theorem fits_of_mergeKeyword {kind : KeywordKind} {k o : Keyword Schema} {fault : MergeFault}
    (h : Gives (mergeKeyword kind path (k.map (withMerger merger)) o) s (.error fault) s') :
    k.fits o = false := by
  cases k with
  | schemaList bs | tuple bs =>
    cases o <;> try rfl
    simp only [mergeKeyword, Keyword.map, mergeLists, List.length_map] at h
    split at h
    · obtain ⟨_, _, heq⟩ := gives_map.mp h
      cases heq
    · rename_i hlen
      exact decide_eq_false hlen
  | schema | items | schemaMap =>
    cases o <;> try rfl
    obtain ⟨_, _, heq⟩ := gives_map.mp h
    cases heq
  | dependencies =>
    cases o <;> try rfl
    obtain ⟨_, _, _, hpure⟩ := gives_bind.mp h
    cases (gives_pure.mp hpure).1
  | string | uri | number | count | boolean | json | names | types | jsonList | limit | union =>
    cases o <;> first
      | rfl
      | cases (gives_pure.mp h).1

/-! ## Nodes -/

theorem laid_of_mergeMember (hm : ∀ b p o, Adds (merger b p o))
    {base : List (KeywordKind × Keyword Schema)} {kind : KeywordKind} {o : Keyword Schema}
    {builder builder' : Builder}
    (hbase : ∀ k, Entries.get? kind base = some k →
      k.ordered = true ∧ builder.keyword? kind = some k)
    (ho : o.ordered = true)
    (h : Gives (mergeMember path (Entries.mapValues (Keyword.map (withMerger merger)) base) kind
      o builder) s builder' s')
    (hr : s'.report.actions ⊆ report.actions) :
    Entries.Laid (Keyword.Merges (Yields merger report) report.Clean) (Entries.get? kind base)
      (some o) (builder'.keyword? kind) := by
  have hstep := step_of_mergeMember h
  rw [Entries.get?_mapValues] at hstep
  cases hk : Entries.get? kind base with
  | none =>
    rw [hk] at hstep
    cases hstep
    rw [keyword?_put, if_pos rfl]
    exact .added o
  | some k =>
    obtain ⟨hordered, hbuilder⟩ := hbase k hk
    rw [hk] at hstep
    cases hstep with
    | merged hresult hgrows hconflict =>
      rw [keyword?_put, if_pos rfl]
      refine .merged (merges_of_mergeKeyword hm hordered ho hresult
        (List.Subset.trans hgrows hr) fun hclean => ?_)
      by_contra hne
      exact MergeReport.not_clean_of_mem (hr (hconflict hne)) (Or.inl rfl) hclean
    | refused hresult herror =>
      rw [hbuilder]
      exact .merged (.refused (fits_of_mergeKeyword hresult)
        (MergeReport.not_clean_of_mem (hr herror) (Or.inr rfl)))

/-- What the members of the override leave as it is in a builder that began as a copy of the
base. -/
structure Grown (base : Schema) (b : Builder) : Prop where
  reference : b.reference = none
  extra : b.extra = base.extra
  keywords : Entries.Sorted b.keywords
  identifier : b.keyword? .id = none
  /-- The schema `true` is given up with the first keyword. -/
  boolean : b.boolean = base.boolean? ∨ b.boolean = none ∧ b.keywords ≠ []

theorem Grown.put {base : Schema} {b : Builder} (h : Grown base b) {kind : KeywordKind}
    (hkind : kind ≠ .id) (k : Keyword Schema) : Grown base (b.put kind k) where
  reference := h.reference
  extra := h.extra
  keywords := h.keywords.insert kind k
  identifier := by
    rw [keyword?_put, if_neg hkind.symm]
    exact h.identifier
  boolean := by
    have hne : (b.put kind k).keywords ≠ [] :=
      List.ne_nil_of_mem (Entries.mem_insert_self kind k b.keywords)
    by_cases htrue : b.boolean = some true
    · exact Or.inr ⟨if_pos htrue, hne⟩
    · exact h.boolean.imp (if_neg htrue).trans fun hnone => ⟨(if_neg htrue).trans hnone.1, hne⟩

theorem grown_start {base override : Schema} (hbase : Entries.Sorted base.keywords)
    (href : base.isReference = false) : Grown base (start base override) := by
  obtain ⟨id, location, draft, body⟩ := base
  cases body with
  | object => exact ⟨rfl, rfl, hbase.erase .id, Entries.get?_erase_self hbase .id, Or.inl rfl⟩
  | boolean => exact ⟨rfl, rfl, .nil, rfl, Or.inl rfl⟩
  | reference => cases href

/-- A builder with the extra members of the override. -/
def putExtras (override : Schema) (b : Builder) : Builder :=
  override.extra.foldl (fun b (key, value) => b.putExtra key value) b

theorem putExtras_fields (override : Schema) (b : Builder) :
    (putExtras override b).keywords = b.keywords ∧
      (putExtras override b).reference = b.reference ∧
      (putExtras override b).boolean = b.boolean := by
  obtain ⟨extra', h⟩ := exists_foldl_putExtra override.extra b
  rw [putExtras, h]
  exact ⟨rfl, rfl, rfl⟩

theorem extra_putExtras {override : Schema} (hover : Entries.Sorted override.extra) (b : Builder)
    (hb : Entries.Sorted b.extra) :
    Entries.Sorted (putExtras override b).extra ∧ ∀ key,
      Entries.get? key (putExtras override b).extra =
        (Entries.get? key override.extra).or (Entries.get? key b.extra) := by
  unfold putExtras
  generalize override.extra = extra at hover ⊢
  induction extra generalizing b with
  | nil => exact ⟨hb, fun key => rfl⟩
  | cons entry rest ih =>
    obtain ⟨name, value⟩ := entry
    obtain ⟨hsorted, hget⟩ := ih (b.putExtra name value) (hb.insert name value)
      (List.pairwise_cons.mp hover).2
    refine ⟨hsorted, fun key => (hget key).trans ?_⟩
    rw [Builder.putExtra, Entries.get?_insert]
    by_cases hkey : key = name
    · have habsent := Entries.get?_of_sorted String.lt_irrefl hover
      simp [Entries.get?, hkey, habsent]
    · simp [Entries.get?, hkey]

/-- The members of what is built, which is boolean only if it has none. -/
theorem members_of_build {b : Builder} {R : Schema} (href : b.reference = none)
    (hfalse : b.boolean ≠ some false) (h : Gives (onStore b.build) s R s') :
    R.isReference = false ∧ R.keywords = b.keywords ∧ R.extra = b.extra ∧
      (R.boolean? = some true ∧ b.boolean = some true ∧ b.keywords = [] ∧ b.extra = [] ∨
        R.boolean? = none ∧ ¬(b.boolean = some true ∧ b.keywords = [] ∧ b.extra = [])) := by
  obtain ⟨rfl, -⟩ := gives_onStore.mp h
  obtain ⟨location, draft, keywords, extra, reference, boolean⟩ := b
  cases href
  rcases boolean with _ | _ | _
  · exact ⟨rfl, rfl, rfl, Or.inr ⟨rfl, fun h => by cases h.1⟩⟩
  · exact absurd rfl hfalse
  · cases keywords with
    | cons => exact ⟨rfl, rfl, rfl, Or.inr ⟨rfl, fun h => by cases h.2.1⟩⟩
    | nil =>
      cases extra with
      | cons => exact ⟨rfl, rfl, rfl, Or.inr ⟨rfl, fun h => by cases h.2.2⟩⟩
      | nil => exact ⟨rfl, rfl, rfl, Or.inl ⟨rfl, rfl, rfl, rfl⟩⟩

theorem overlaid_of_combine (hm : ∀ b p o, Adds (merger b p o)) {base override R : Schema}
    (hbase : base.isOrdered = true) (hover : override.isOrdered = true)
    (href : base.isReference = false) (hfalse : base.boolean? ≠ some false)
    (h : Gives (combine base (base.body.map (withMerger merger)) path override) s R s')
    (hr : s'.report.actions ⊆ report.actions) :
    Schema.Overlaid (Yields merger report) report.Clean base override R ∧
      (R.boolean? = some true ↔ base.boolean? = some true ∧ R.keywords = [] ∧ R.extra = []) := by
  obtain ⟨hkeywords, hextra, hnested⟩ := (Schema.isOrdered_iff base).mp hbase
  obtain ⟨hkeywords', hextra', hnested'⟩ := (Schema.isOrdered_iff override).mp hover
  rw [combine_eq, keywordsOf_map] at h
  obtain ⟨builder, s₁, hmembers, hbuild⟩ := gives_bind.mp h
  have hr₁ := List.Subset.trans (adds_onStore _ _ _ _ hbuild) hr
  have hgrown : Grown base builder := holds_of_mergeMembers (fun _ _ k hkind hb => hb.put hkind k)
    (grown_start hkeywords href) hmembers
  have hmember : ∀ kind, kind ≠ .id → Entries.Laid (Keyword.Merges (Yields merger report)
      report.Clean) (base.keyword? kind) (override.keyword? kind) (builder.keyword? kind) := by
    intro kind hkind
    have hstart : (start base override).keyword? kind = base.keyword? kind :=
      keyword?_start hkind
    cases ho : override.keyword? kind with
    | none =>
      rw [others_of_mergeMembers (Or.inr (Entries.get?_eq_none.mp ho)) hmembers, hstart]
      exact .kept _
    | some o =>
      obtain ⟨b, b', t, t', hgives, hreport, hbefore, hafter⟩ :=
        member_of_mergeMembers hm hkeywords'.nodup hkind ho hmembers
      rw [hafter]
      refine laid_of_mergeMember hm (fun k hk => ?_)
        (hnested' kind o (Entries.mem_of_get? ho)).1 hgives (List.Subset.trans hreport hr₁)
      exact ⟨(hnested kind k (Entries.mem_of_get? hk)).1, (hbefore.trans hstart).trans hk⟩
  obtain ⟨hfields, hreference, hboolean⟩ := putExtras_fields override builder
  obtain ⟨hsorted, hget⟩ := extra_putExtras hextra' builder (hgrown.extra ▸ hextra)
  have hboolean' : (putExtras override builder).boolean ≠ some false := by
    rw [hboolean]
    rcases hgrown.boolean with hsame | ⟨hnone, -⟩
    · rw [hsame]
      exact hfalse
    · rw [hnone]
      exact nofun
  obtain ⟨hR, hRkeywords, hRextra, hRboolean⟩ :=
    members_of_build (hreference.trans hgrown.reference) hboolean' hbuild
  rw [hfields] at hRkeywords
  have hR' : ∀ kind, R.keyword? kind = builder.keyword? kind :=
    fun kind => congrArg (Entries.get? kind) hRkeywords
  refine ⟨⟨hRkeywords ▸ hgrown.keywords, hRextra ▸ hsorted, hR, ?_, ?_, ?_, ?_⟩, ?_⟩
  · rcases hRboolean with ⟨htrue, -⟩ | ⟨hnone, -⟩
    · rw [htrue]
      exact nofun
    · rw [hnone]
      exact nofun
  · exact Or.inl ((hR' .id).trans hgrown.identifier)
  · intro kind hkind
    rw [hR' kind]
    exact hmember kind hkind
  · intro key
    rw [hRextra, hget, hgrown.extra]
  · rw [hRkeywords, hRextra]
    rw [hfields, hboolean] at hRboolean
    rcases hgrown.boolean with hsame | ⟨hnone, hne⟩
    · rw [hsame] at hRboolean
      rcases hRboolean with ⟨htrue, hempty⟩ | ⟨hnone, hnot⟩
      · exact iff_of_true htrue hempty
      · exact iff_of_false (by rw [hnone]; exact nofun) hnot
    · refine iff_of_false (fun htrue => ?_) fun h => hne h.2.1
      rcases hRboolean with ⟨-, htrue', -⟩ | ⟨hnone', -⟩
      · cases hnone.symm.trans htrue'
      · cases htrue.symm.trans hnone'

/-- What a merge of two schemas in order gives. -/
theorem merges_of_mergeAt {base override R : Schema} (hbase : base.isOrdered = true)
    (hover : override.isOrdered = true) (h : Gives (mergeAt path base override) s R s')
    (hr : s'.report.actions ⊆ report.actions) :
    Schema.Merges (Yields merging report) report.Clean base override R := by
  rw [mergeAt_eq] at h
  change Gives (step base (base.body.map (withMerger merging)) path override) s R s' at h
  unfold step at h
  by_cases href : (base.isReference || override.isReference) = true
  · rw [if_pos href] at h
    obtain ⟨rfl, rfl⟩ := gives_pure.mp h
    exact .reference (Bool.or_eq_true_iff.mp href)
  rw [if_neg href] at h
  obtain ⟨hbaseRef, hoverRef⟩ := Bool.or_eq_false_iff.mp (Bool.eq_false_iff.mpr href)
  have hreplaced (hfalse : base.boolean? = some false ∧ override.boolean? = none ∨
        base.boolean? ≠ some false ∧ override.boolean? = some false)
      (h : Gives (do
        record path .conflict (some "false schema cannot be merged")
        return override) s R s') :
      Schema.Merges (Yields merging report) report.Clean base override R := by
    obtain ⟨_, _, hrecord, hpure⟩ := gives_bind.mp h
    obtain ⟨rfl, rfl⟩ := gives_pure.mp hpure
    have hmem : ⟨path, .conflict, some "false schema cannot be merged"⟩ ∈ s'.report.actions := by
      rw [gives_record.mp hrecord]
      exact List.mem_append_right _ List.mem_cons_self
    exact .replaced hbaseRef hoverRef hfalse
      (MergeReport.not_clean_of_mem (hr hmem) (Or.inl rfl))
  split at h
  · rename_i htrue
    obtain ⟨rfl, rfl⟩ := gives_pure.mp h
    exact .unchanged hbaseRef htrue fun hfalse => by cases hfalse
  · rename_i hfalse hfalse'
    obtain ⟨rfl, rfl⟩ := gives_pure.mp h
    exact .unchanged hbaseRef hfalse' fun _ => hfalse
  · rename_i hfalse hnone
    exact hreplaced (Or.inl ⟨hfalse, hnone⟩) h
  · rename_i hfalse hnot
    exact hreplaced (Or.inr ⟨hnot, hfalse⟩) h
  · rename_i hnone hnot
    obtain ⟨hoverlaid, htrue⟩ := overlaid_of_combine adds_merging hbase hover hbaseRef hnot h hr
    exact .overlaid hbaseRef hoverRef hnot hnone hoverlaid htrue

end Merge

/-! ## Order -/

section

variable {merges : Schema → Schema → Schema → Prop} {clean : Prop}

/-- What stands in a map comes from one of the two, or is what a pair of values became. -/
theorem Entries.Overlay.mem {α : Type} {merges : α → α → α → Prop}
    {base above result : List (String × α)} (h : Overlay merges base above result)
    (hsorted : Sorted result) {name : String} {r : α} (hr : (name, r) ∈ result) :
    (name, r) ∈ base ∨ (name, r) ∈ above ∨
      ∃ b o, (name, b) ∈ base ∧ (name, o) ∈ above ∧ merges b o r := by
  have hlaid := h name
  rw [get?_of_mem hsorted.nodup hr] at hlaid
  generalize hb : get? name base = x at hlaid
  generalize ho : get? name above = y at hlaid
  cases hlaid with
  | kept => exact Or.inl (mem_of_get? hb)
  | added => exact Or.inr (Or.inl (mem_of_get? ho))
  | merged hmerged => exact Or.inr (Or.inr ⟨_, _, mem_of_get? hb, mem_of_get? ho, hmerged⟩)

theorem PairwiseMerges.mem {bs os rs : List Schema} (h : PairwiseMerges merges bs os rs)
    {r : Schema} (hr : r ∈ rs) : ∃ b ∈ bs, ∃ o ∈ os, merges b o r := by
  induction h with
  | nil => cases hr
  | cons hmerged _ ih =>
    rcases List.mem_cons.mp hr with rfl | hr
    · exact ⟨_, List.mem_cons_self, _, List.mem_cons_self, hmerged⟩
    · obtain ⟨b, hb, o, ho, hmerged⟩ := ih hr
      exact ⟨b, List.mem_cons_of_mem _ hb, o, List.mem_cons_of_mem _ ho, hmerged⟩

theorem PairwiseMerges.length_eq {bs os rs : List Schema} (h : PairwiseMerges merges bs os rs) :
    bs.length = os.length := by
  induction h with
  | nil => rfl
  | cons _ _ ih => exact congrArg Nat.succ ih

namespace Keyword

variable {k o m : Keyword Schema}

/-- A schema in a merged keyword comes from one of the two, or is what a pair became. -/
theorem Merges.mem_nodes (h : Merges merges clean k o m) {r : Schema} (hr : r ∈ m.nodes) :
    r ∈ k.nodes ∨ r ∈ o.nodes ∨ ∃ b ∈ k.nodes, ∃ c ∈ o.nodes, merges b c r := by
  cases h with
  | refused => exact Or.inl hr
  | replaced _ _ heq =>
    rw [heq, Merge.replace] at hr
    split at hr
    · exact Or.inl hr
    · exact Or.inr (Or.inl hr)
  | names | types | jsonList | limit => cases hr
  | schema h | items h =>
    obtain rfl := List.mem_singleton.mp hr
    exact Or.inr (Or.inr ⟨_, List.mem_cons_self, _, List.mem_cons_self, h⟩)
  | schemaList h =>
    simp only [nodes_schemaList] at hr ⊢
    exact Or.inr (Or.inr (h.mem hr))
  | tuple h =>
    simp only [nodes_tuple] at hr ⊢
    exact Or.inr (Or.inr (h.mem hr))
  | schemaMap hsorted h =>
    obtain ⟨name, hr⟩ := mem_nodes_schemaMap.mp hr
    simp only [mem_nodes_schemaMap]
    rcases h.mem hsorted hr with hb | ho | ⟨b, c, hb, hc, hmerged⟩
    · exact Or.inl ⟨name, hb⟩
    · exact Or.inr (Or.inl ⟨name, ho⟩)
    · exact Or.inr (Or.inr ⟨b, ⟨name, hb⟩, c, ⟨name, hc⟩, hmerged⟩)
  | dependencies hsorted h =>
    obtain ⟨name, hr⟩ := mem_nodes_dependencies.mp hr
    simp only [mem_nodes_dependencies]
    rcases h.mem hsorted hr with hb | ho | ⟨b, c, hb, hc, hmerged⟩
    · exact Or.inl ⟨name, hb⟩
    · exact Or.inr (Or.inl ⟨name, ho⟩)
    · cases hmerged with
      | schema hmerged => exact Or.inr (Or.inr ⟨_, ⟨name, hb⟩, _, ⟨name, hc⟩, hmerged⟩)
      | toSchema => exact Or.inr (Or.inl ⟨name, hc⟩)

theorem ordered_dependencies {entries : List (String × Dependency Schema)} :
    (Keyword.dependencies entries).ordered = true ↔
      Entries.Sorted entries ∧ ∀ name d, (name, d) ∈ entries → d.ordered = true := by
  simp [ordered]

/-- Keywords in order merge into one in order. -/
theorem Merges.ordered (h : Merges merges clean k o m) (hk : k.ordered = true)
    (ho : o.ordered = true) : m.ordered = true := by
  cases h with
  | refused => exact hk
  | replaced _ _ heq =>
    rw [heq, Merge.replace]
    split
    · exact hk
    · exact ho
  | names => exact decide_eq_true ((of_decide_eq_true hk : Members.Sorted _).union _)
  | types => exact decide_eq_true ((of_decide_eq_true hk : Members.Sorted _).union _)
  | jsonList | limit | schema | items | schemaList | tuple => rfl
  | schemaMap hsorted => exact decide_eq_true hsorted
  | dependencies hsorted h =>
    obtain ⟨-, hk⟩ := ordered_dependencies.mp hk
    obtain ⟨-, ho⟩ := ordered_dependencies.mp ho
    refine ordered_dependencies.mpr ⟨hsorted, fun name d hd => ?_⟩
    rcases h.mem hsorted hd with hb | hc | ⟨b, c, hb, hc, hmerged⟩
    · exact hk name d hb
    · exact ho name d hc
    · cases hmerged with
      | schema | toSchema => rfl
      | properties =>
        exact decide_eq_true ((of_decide_eq_true (hk name _ hb) : Members.Sorted _).union _)
      | toProperties => exact ho name _ hc

end Keyword

variable {base above R : Schema}

/-- Nodes in order merge into one in order, if the schemas nested in them do. -/
theorem Schema.Merges.isOrdered (h : Schema.Merges merges clean base above R)
    (hbase : base.isOrdered = true) (hover : above.isOrdered = true)
    (hnested : ∀ {kind k l b o r}, (kind, k) ∈ base.keywords → (kind, l) ∈ above.keywords →
      b ∈ k.nodes → o ∈ l.nodes → merges b o r → r.isOrdered = true) :
    R.isOrdered = true := by
  cases h with
  | reference | replaced => exact hover
  | unchanged => exact hbase
  | overlaid _ _ _ _ h =>
    obtain ⟨-, -, hb⟩ := (isOrdered_iff base).mp hbase
    obtain ⟨-, -, ho⟩ := (isOrdered_iff above).mp hover
    have hbase? : ∀ {kind k}, base.keyword? kind = some k →
        k.ordered = true ∧ ∀ c ∈ k.nodes, c.isOrdered = true :=
      fun hk => hb _ _ (Entries.mem_of_get? hk)
    refine (isOrdered_iff R).mpr ⟨h.keywords, h.extra, fun kind k' hk' => ?_⟩
    replace hk' : R.keyword? kind = some k' := Entries.get?_of_mem h.keywords.nodup hk'
    by_cases hkind : kind = .id
    · subst hkind
      rcases h.identifier with hnone | hsame
      · cases hnone.symm.trans hk'
      · exact hbase? (hsame.symm.trans hk')
    · have hlaid := h.keyword? kind hkind
      rw [hk'] at hlaid
      generalize hk : base.keyword? kind = x at hlaid
      generalize hl : above.keyword? kind = y at hlaid
      cases hlaid with
      | kept => exact hbase? hk
      | added => exact ho kind k' (Entries.mem_of_get? hl)
      | merged hmerged =>
        obtain ⟨hordered, hnodes⟩ := hbase? hk
        have hl' := Entries.mem_of_get? hl
        obtain ⟨hordered', hnodes'⟩ := ho kind _ hl'
        refine ⟨hmerged.ordered hordered hordered', fun c hc => ?_⟩
        rcases hmerged.mem_nodes hc with hc | hc | ⟨b, hb, o, hc, hyields⟩
        · exact hnodes c hc
        · exact hnodes' c hc
        · exact hnested (Entries.mem_of_get? hk) hl' hb hc hyields

end

/-- A merge of schemas in order gives a schema in order. -/
theorem Merge.isOrdered_of_mergeAt {base override R : Schema} {path : Pointer}
    {s s' : MergeState} (hbase : base.isOrdered = true) (hover : override.isOrdered = true)
    (h : Merge.Gives (Merge.mergeAt path base override) s R s') : R.isOrdered = true := by
  induction base using Schema.induction generalizing path override s R s' with
  | step base ih =>
    obtain ⟨-, -, hb⟩ := (Schema.isOrdered_iff base).mp hbase
    obtain ⟨-, -, ho⟩ := (Schema.isOrdered_iff override).mp hover
    refine (merges_of_mergeAt hbase hover h (List.Subset.refl _)).isOrdered hbase hover ?_
    intro kind k l b o r hk hl hbase hover ⟨_, _, _, hgives, _⟩
    exact ih kind k b hk hbase ((hb kind k hk).2 b hbase) ((ho kind l hl).2 o hover) hgives

end SchemaAtlas
