import SchemaAtlas.Proofs.Loading.Frame

/-!
# Strict and lenient readings

A strict policy makes errors of two things that a lenient one puts up with: malformed input,
which it reports as a warning, and members that are no keywords, which it keeps. `Twins` says
that a reading goes the same way under both policies until it comes to one of these, and that
from then on the strict report has an error and the lenient session a blemish. Sequences
respect this, so it holds of the reading of an object's members if it holds of the loader of
nested schemas.
-/

namespace SchemaAtlas

/-! ## Malformed input -/

/-- Whether an issue of this kind is one about malformed input. Of those about identifiers,
the ones are not that say that an identifier was declared before. -/
def IssueKind.isMalformed (kind : IssueKind) (message : String) : Bool :=
  match kind with
  | .typeMismatch | .invalidValue => true
  | .invalidIdentifier => !" is already declared".toList.isSuffixOf message.toList
  | _ => false

def Issue.isMalformed (i : Issue) : Bool := i.kind.isMalformed i.message

theorem IssueKind.isMalformed_of_isFatal {kind : IssueKind} {message : String}
    (h : kind.isFatal = true) : kind.isMalformed message = false := by
  cases kind <;> first | rfl | cases h

theorem isSuffixOf_declared (id : String) : " is already declared".toList.isSuffixOf
    s!"identifier '{id}' is already declared".toList = true := by
  rw [List.isSuffixOf_iff_suffix]
  refine ⟨s!"identifier '{id}'".toList, ?_⟩
  rw [← String.toList_append]
  change (_ ++ "'" ++ " is already declared").toList = (_ ++ "' is already declared").toList
  rw [String.append_assoc]
  rfl

theorem isSuffixOf_fault (text : String) (fault : UriFault) :
    " is already declared".toList.isSuffixOf (text ++ fault.message).toList = false := by
  rw [Bool.eq_false_iff, Ne, List.isSuffixOf_iff_suffix, String.toList_append]
  intro h
  have hfault := List.suffix_append text.toList fault.message.toList
  cases fault with
  | invalidPort | emptyHost =>
    exact absurd (List.suffix_of_suffix_length_le h hfault (by decide)) (by decide)
  | invalidDomainName | invalidIpv4Address | invalidIpv6Address | invalidDomainCharacter
  | relativeWithoutBase | relativeToOpaqueBase =>
    exact absurd (List.suffix_of_suffix_length_le h hfault (by decide)) (by decide)

namespace Session

/-- The session under a lenient policy. -/
def lenient (s : Session) : Session := { s with policy := { s.policy with strict := false } }

/-- What a strict load would not have let pass: an issue for malformed input, or a node made
since there were `n` that holds members that are no keywords. -/
def Blemished (n : Nat) (s : Session) : Prop :=
  (∃ issue ∈ s.report.issues, issue.isMalformed = true) ∨
    ∃ id schema, n ≤ id ∧ s.store.node? id = some schema ∧ schema.extra ≠ []

/-- What a later session has kept. -/
structure Grown (s s' : Session) : Prop where
  policy : s'.policy = s.policy
  report : s.report.issues <+: s'.report.issues
  store : s.store.Grows s'.store

variable {n : Nat} {s s₁ s' : Session}

theorem Frame.grown (h : Frame s s') : Grown s s' := ⟨h.policy, h.report, h.store⟩

theorem Grown.refl (s : Session) : Grown s s := ⟨rfl, List.prefix_refl _, .refl _⟩

theorem Grown.trans (h : Grown s s₁) (h' : Grown s₁ s') : Grown s s' :=
  ⟨h'.policy.trans h.policy, h.report.trans h'.report, h.store.trans h'.store⟩

theorem Grown.blemished (h : Grown s s') (hb : s.Blemished n) : s'.Blemished n := by
  rcases hb with ⟨issue, hi, hm⟩ | ⟨id, schema, hid, hs, he⟩
  · exact Or.inl ⟨issue, h.report.subset hi, hm⟩
  · exact Or.inr ⟨id, schema, hid, h.store.node?_some hs, he⟩

/-- A change that leaves alone what the strictness depends on and what it shows in. -/
structure Neutral (g : Session → Session) : Prop where
  lenient : ∀ s, g s.lenient = (g s).lenient
  policy : ∀ s, (g s).policy = s.policy
  report : ∀ s, (g s).report = s.report
  store : ∀ s, (g s).store = s.store

variable {g : Session → Session}

theorem Neutral.grown (h : Neutral g) (s : Session) : Grown s (g s) :=
  ⟨h.policy s, h.report s ▸ List.prefix_refl _, h.store s ▸ .refl _⟩

theorem Neutral.blemished (h : Neutral g) (s : Session) :
    (g s).Blemished n ↔ s.Blemished n := by
  rw [Blemished, Blemished, h.report, h.store]

theorem neutral_push (document : OpenDocument) : Neutral (push document) :=
  ⟨fun _ => rfl, fun _ => rfl, fun _ => rfl, fun _ => rfl⟩

theorem neutral_pop : Neutral pop := ⟨fun _ => rfl, fun _ => rfl, fun _ => rfl, fun _ => rfl⟩

theorem neutral_beginResolving (uri : Uri) : Neutral (beginResolving uri) :=
  ⟨fun _ => rfl, fun _ => rfl, fun _ => rfl, fun _ => rfl⟩

theorem neutral_endResolving (uri : Uri) : Neutral (endResolving uri) :=
  ⟨fun _ => rfl, fun _ => rfl, fun _ => rfl, fun _ => rfl⟩

theorem neutral_finish (schema : Schema) (uris : List Uri) : Neutral (finish schema uris) :=
  ⟨fun _ => rfl, fun _ => rfl, fun _ => rfl, fun _ => rfl⟩

theorem Grown.hasErrors (h : Grown s s') (he : s.report.hasErrors = true) :
    s'.report.hasErrors = true := by
  obtain ⟨issue, hi, hs⟩ := List.any_eq_true.mp he
  exact List.any_eq_true.mpr ⟨issue, h.report.subset hi, hs⟩

end Session

/-! ## Twins -/

open LoadM

variable {α β : Type} {n : Nat}

/-- What a strict run and the lenient run from the same session come to: the same, with no new
blemish and nothing `kept`; or the strict run has an error, and the lenient one, unless it
ends, something kept or a blemish. -/
inductive Coupled (n : Nat) (kept : α → Prop) (s : Session) (r : Except Stop α) (s' : Session)
    (r' : Except Stop α) (t : Session) : Prop
  | agree : r' = r → t = s'.lenient → (∀ a, r = .ok a → ¬ kept a) →
      (s'.Blemished n → s.Blemished n) → Coupled n kept s r s' r' t
  | depart : s'.report.hasErrors = true → (∀ a, r' = .ok a → kept a ∨ t.Blemished n) →
      Coupled n kept s r s' r' t

/-- A reading that goes the same way under a strict and a lenient policy until they differ. -/
structure Twins (n : Nat) (kept : α → Prop) (x : LoadM α) : Prop where
  grown : ∀ {s r s'}, Runs x s r s' → s.Grown s'
  coupled : ∀ {s r s' r' t}, n ≤ s.store.nodes.size → s.policy.strict = true →
    Runs x s r s' → Runs x s.lenient r' t → Coupled n kept s r s' r' t

/-- A reading whose result keeps nothing that a strict policy would not. -/
abbrev PlainTwins (n : Nat) (x : LoadM α) : Prop := Twins n (fun _ => False) x

namespace Twins

variable {kept : α → Prop} {kept' : β → Prop} {x : LoadM α} {f : α → LoadM β}

theorem pure {a : α} (h : ¬ kept a) : Twins n kept (Pure.pure a) where
  grown := by
    intro s r s' hr
    obtain ⟨-, rfl⟩ := runs_pure.mp hr
    exact .refl _
  coupled := by
    intro s r s' r' t _ _ hr hr'
    obtain ⟨rfl, rfl⟩ := runs_pure.mp hr
    obtain ⟨rfl, rfl⟩ := runs_pure.mp hr'
    refine .agree rfl rfl (fun b hb => ?_) id
    cases hb
    exact h

/-- In a sequence what the first step keeps must not be lost by the second. -/
theorem bind_kept (hx : Twins n kept x)
    (hgrown : ∀ {a s r s'}, Runs (f a) s r s' → s.Grown s')
    (hf : ∀ a, ¬ kept a → Twins n kept' (f a))
    (hkept : ∀ {a s b s'}, kept a → Runs (f a) s (.ok b) s' → kept' b) :
    Twins n kept' (x >>= f) where
  grown := by
    intro s r s' hr
    rcases runs_bind.mp hr with ⟨a, s₁, ha, hb⟩ | ⟨e, he, -⟩
    · exact (hx.grown ha).trans (hgrown hb)
    · exact hx.grown he
  coupled := by
    intro s r s' r' t hn hs hr hr'
    rcases runs_bind.mp hr with ⟨a, s₁, ha, hb⟩ | ⟨e, he, rfl⟩
    · rcases runs_bind.mp hr' with ⟨a', t₁, ha', hb'⟩ | ⟨e', he', rfl⟩
      · cases hx.coupled hn hs ha ha' with
        | agree heq ht hnot hclean =>
          cases heq
          subst ht
          have hgrown₁ := hx.grown ha
          cases (hf a (hnot a rfl)).coupled (Nat.le_trans hn hgrown₁.store.size)
            ((congrArg Policy.strict hgrown₁.policy).trans hs) hb hb' with
          | agree heq ht hnot' hclean' =>
            exact .agree heq ht hnot' fun hblemished => hclean (hclean' hblemished)
          | depart herrors hblemished => exact .depart herrors hblemished
        | depart herrors hblemished =>
          refine .depart ((hgrown hb).hasErrors herrors) fun b hb'' => ?_
          subst hb''
          rcases hblemished a' rfl with hk | hk
          · exact Or.inl (hkept hk hb')
          · exact Or.inr ((hgrown hb').blemished hk)
      · cases hx.coupled hn hs ha he' with
        | agree heq => cases heq
        | depart herrors =>
          exact .depart ((hgrown hb).hasErrors herrors) fun b hb'' => by cases hb''
    · rcases runs_bind.mp hr' with ⟨a', t₁, ha', hb'⟩ | ⟨e', he', rfl⟩
      · cases hx.coupled hn hs he ha' with
        | agree heq => cases heq
        | depart herrors hblemished =>
          refine .depart herrors fun b hb'' => ?_
          subst hb''
          rcases hblemished a' rfl with hk | hk
          · exact Or.inl (hkept hk hb')
          · exact Or.inr ((hgrown hb').blemished hk)
      · cases hx.coupled hn hs he he' with
        | agree heq ht hnot hclean =>
          cases heq
          exact .agree rfl ht (fun b hb => by cases hb) hclean
        | depart herrors => exact .depart herrors fun b hb => by cases hb

theorem bind (hx : PlainTwins n x) (hf : ∀ a, Twins n kept' (f a)) : Twins n kept' (x >>= f) :=
  hx.bind_kept (fun {a} => (hf a).grown) (fun a _ => hf a) fun h => h.elim

theorem map {f : α → β} (hx : PlainTwins n x) : PlainTwins n (do return f (← x)) :=
  hx.bind fun _ => pure id

/-- A reading that does, from a session and from its lenient twin, what twins do. -/
theorem of_runs (h : ∀ s, ∃ y : LoadM α, Twins n kept y ∧
    (∀ {r s'}, Runs x s r s' → Runs y s r s') ∧
    ∀ {r t}, Runs x s.lenient r t → Runs y s.lenient r t) : Twins n kept x where
  grown := by
    intro s r s' hr
    obtain ⟨y, hy, hrun, -⟩ := h s
    exact hy.grown (hrun hr)
  coupled := by
    intro s r s' r' t hn hs hr hr'
    obtain ⟨y, hy, hrun, hrun'⟩ := h s
    exact hy.coupled hn hs (hrun hr) (hrun' hr')

/-- A look at the session, if what is done then does not depend on the strictness. -/
theorem get_bind {f : Session → LoadM β} (hsame : ∀ s, f s.lenient = f s)
    (hf : ∀ s, Twins n kept' (f s)) : Twins n kept' (get >>= f) := by
  refine of_runs fun s => ⟨f s, hf s, runs_get_bind.mp, fun hr => ?_⟩
  rw [← hsame]
  exact runs_get_bind.mp hr

theorem issue {severity : Severity} {kind : IssueKind} {location : Location} {message : String}
    (h : kind.isMalformed message = false) : PlainTwins n (LoadM.issue severity kind location message) where
  grown := by
    intro s r s' hr
    obtain ⟨-, rfl⟩ := runs_issue.mp hr
    exact (Session.frame_record ..).grown
  coupled := by
    intro s r s' r' t _ _ hr hr'
    obtain ⟨rfl, rfl⟩ := runs_issue.mp hr
    obtain ⟨rfl, rfl⟩ := runs_issue.mp hr'
    refine .agree rfl rfl (fun _ _ => id) ?_
    rintro (⟨issue, hi, hm⟩ | hnode)
    · rcases List.mem_append.mp hi with hi | hi
      · exact Or.inl ⟨issue, hi, hm⟩
      · rw [List.mem_singleton.mp hi, Issue.isMalformed, h] at hm
        cases hm
    · exact Or.inr hnode

theorem malformed {kind : IssueKind} {location : Location} {message : String}
    (h : kind.isMalformed message = true) : PlainTwins n (LoadM.malformed kind location message) where
  grown := by
    intro s r s' hr
    obtain ⟨-, rfl⟩ := runs_malformed.mp hr
    exact (Session.frame_record ..).grown
  coupled := by
    intro s r s' r' t _ hs hr hr'
    obtain ⟨rfl, rfl⟩ := runs_malformed.mp hr
    obtain ⟨rfl, rfl⟩ := runs_malformed.mp hr'
    refine .depart ?_ fun _ _ => Or.inr (Or.inl ?_)
    · rw [if_pos hs]
      change (s.report.record _).hasErrors = true
      rw [Report.hasErrors_record]
      simp
    · exact ⟨_, List.mem_append_right _ List.mem_cons_self, h⟩

theorem throw (e : Stop) : Twins n kept (MonadExcept.throw e : LoadM α) where
  grown := by
    intro s r s' hr
    obtain ⟨-, rfl⟩ := runs_throw.mp hr
    exact .refl _
  coupled := by
    intro s r s' r' t _ _ hr hr'
    obtain ⟨rfl, rfl⟩ := runs_throw.mp hr
    obtain ⟨rfl, rfl⟩ := runs_throw.mp hr'
    exact .agree rfl rfl (fun a ha => by cases ha) id

theorem fatal {kind : IssueKind} {location : Location} {message : String}
    (hk : kind.isFatal = true) : Twins n kept (LoadM.fatal kind location message : LoadM α) :=
  (issue (IssueKind.isMalformed_of_isFatal hk)).bind fun _ => throw .fatal

theorem modify {g : Session → Session} (hg : Session.Neutral g) : PlainTwins n (modify g) where
  grown := by
    intro s r s' hr
    obtain ⟨-, rfl⟩ := runs_modify.mp hr
    exact hg.grown s
  coupled := by
    intro s r s' r' t _ _ hr hr'
    obtain ⟨rfl, rfl⟩ := runs_modify.mp hr
    obtain ⟨rfl, rfl⟩ := runs_modify.mp hr'
    exact .agree rfl (hg.lenient s) (fun _ _ => id) (hg.blemished s).mp

theorem between {before after : Session → Session} (hb : Session.Neutral before)
    (ha : Session.Neutral after) (hx : Twins n kept x) :
    Twins n kept (LoadM.between before after x) where
  grown := by
    intro s r s' h
    obtain ⟨s₁, hr, rfl⟩ := runs_between.mp h
    exact ((hb.grown s).trans (hx.grown hr)).trans (ha.grown s₁)
  coupled := by
    intro s r s' r' t hn hs h h'
    obtain ⟨s₁, hr, rfl⟩ := runs_between.mp h
    obtain ⟨t₁, hr', rfl⟩ := runs_between.mp h'
    rw [hb.lenient] at hr'
    cases hx.coupled (hb.store s ▸ hn) ((congrArg Policy.strict (hb.policy s)).trans hs) hr hr' with
    | agree heq ht hnot hclean =>
      subst ht
      exact .agree heq (ha.lenient s₁) hnot fun hblemished =>
        (hb.blemished s).mp (hclean ((ha.blemished s₁).mp hblemished))
    | depart herrors hmarked =>
      exact .depart ((ha.grown s₁).hasErrors herrors) fun a heq =>
        (hmarked a heq).imp_right (ha.blemished t₁).mpr

/-- A node without other members. -/
theorem add {location : Location} {draft : Draft} {body : Body Schema}
    (h : ∀ id, (Schema.node id location draft body).extra = []) :
    PlainTwins n (onStore fun store => store.add location draft body) where
  grown := by
    intro s r s' hr
    obtain ⟨-, rfl⟩ := runs_onStore.mp hr
    exact (Session.frame_add ..).grown
  coupled := by
    intro s r s' r' t _ _ hr hr'
    obtain ⟨rfl, rfl⟩ := runs_onStore.mp hr
    obtain ⟨rfl, rfl⟩ := runs_onStore.mp hr'
    refine .agree rfl rfl (fun _ _ => id) ?_
    rintro (hissue | ⟨id, schema, hid, hs, he⟩)
    · exact Or.inl hissue
    · rcases Store.node?_add_cases hs with hold | ⟨rfl, -⟩
      · exact Or.inr ⟨id, schema, hid, hold, he⟩
      · exact absurd (h _) he

end Twins

/-! ## Reading keywords -/

namespace Digest

open Twins

theorem twins_checkPattern {location : Location} {pattern : String} :
    PlainTwins n (checkPattern location pattern) := by
  unfold checkPattern
  split
  · exact .pure id
  · exact .issue rfl

theorem twins_names {location : Location} {index : Nat} {elements : List Json} :
    PlainTwins n (names location index elements) := by
  induction elements generalizing index with
  | nil => exact .pure id
  | cons value rest ih =>
    unfold names
    cases value with
    | string name => exact ih.map
    | null | bool | number | array | object => exact (Twins.malformed rfl).bind fun _ => ih

theorem twins_uriText {site : Site} {text : String} : PlainTwins n (uriText site text) := by
  unfold uriText
  cases site.location.resolve text with
  | ok uri => exact .pure id
  | error fault =>
    refine (Twins.malformed ?_).bind fun _ => .pure id
    split
    · change (!List.isSuffixOf _ (_ ++ fault.message).toList) = true
      rw [isSuffixOf_fault]
      rfl
    · rfl

theorem twins_positiveNumber {site : Site} {m : Number} :
    PlainTwins n (positiveNumber site m) := by
  unfold positiveNumber
  split
  · exact .pure id
  · exact (Twins.malformed rfl).bind fun _ => .pure id

theorem twins_count {site : Site} {m : Number} : PlainTwins n (count site m) := by
  unfold count
  cases m.count? with
  | some k => exact .pure id
  | none => exact (Twins.malformed rfl).bind fun _ => .pure id

theorem twins_limitFlag {site : Site} : PlainTwins n (limitFlag site) := by
  unfold limitFlag
  dsimp only
  split
  · exact .pure id
  · exact .malformed rfl

theorem twins_forM_malformed {kind : IssueKind} {location : Location}
    {message : CatalogEntry → String} (entries : List CatalogEntry)
    (h : ∀ entry, kind.isMalformed (message entry) = true) :
    PlainTwins n (entries.forM fun entry => LoadM.malformed kind location (message entry)) := by
  induction entries with
  | nil => exact .pure id
  | cons entry rest ih => exact (Twins.malformed (h entry)).bind fun _ => ih

/-- A member that is no keyword is reported, or kept. -/
theorem twins_unknown (location : Location) (message : String) (builder : Builder) (key : String)
    (value : Json) : Twins n (fun b => b.extra ≠ []) (do
      if (← get).policy.strict then
        LoadM.issue .error .keywordNotFound location message
        return builder
      else return builder.putExtra key value) where
  grown := by
    intro s r s' h
    have h := runs_get_bind.mp h
    split at h
    · rcases runs_bind.mp h with ⟨_, _, hi, h⟩ | ⟨_, hi, -⟩
      · obtain ⟨-, rfl⟩ := runs_issue.mp hi
        obtain ⟨-, rfl⟩ := runs_pure.mp h
        exact (Session.frame_record ..).grown
      · cases (runs_issue.mp hi).1
    · obtain ⟨-, rfl⟩ := runs_pure.mp h
      exact .refl _
  coupled := by
    intro s r s' r' t _ hs h h'
    have h := runs_get_bind.mp h
    have h' := runs_get_bind.mp h'
    rw [if_pos hs] at h
    rw [if_neg (show ¬ s.lenient.policy.strict = true from Bool.false_ne_true)] at h'
    obtain ⟨rfl, rfl⟩ := runs_pure.mp h'
    rcases runs_bind.mp h with ⟨_, _, hi, h⟩ | ⟨_, hi, -⟩
    · obtain ⟨-, rfl⟩ := runs_issue.mp hi
      obtain ⟨rfl, rfl⟩ := runs_pure.mp h
      refine .depart ?_ fun b heq => ?_
      · change (s.report.record _).hasErrors = true
        rw [Report.hasErrors_record]
        simp
      · cases heq
        exact Or.inl (List.ne_nil_of_mem (Entries.mem_insert_self key value builder.extra))
    · cases (runs_issue.mp hi).1

/-! ### What members leave -/

theorem Visits.grown {load : Loader} {draft : Draft} {asked : Location → Json → Prop}
    {s s' : Session} {nodes : List Schema}
    (hload : ∀ {location value s r s'}, Runs (load location value) s r s' → s.Grown s')
    (h : Visits load draft asked s nodes s') : s.Grown s' := by
  induction h with
  | start => exact .refl _
  | issue _ _ _ _ _ _ ih => exact ih.trans (Session.frame_record ..).grown
  | boolean _ _ ih => exact ih.trans (Session.frame_add ..).grown
  | load _ _ hr ih => exact ih.trans (hload hr)

theorem grown_of_members {load : Loader} {active : DraftSet} {object list : List (String × Json)}
    {builder : Builder} {s s' : Session} {r : Except Stop Builder}
    (hload : ∀ {location value s r s'}, Runs (load location value) s r s' → s.Grown s')
    (h : Runs (members load active object list builder) s r s') : s.Grown s' := by
  have hg : Gathers load builder.draft (fun _ _ => True) False
      (members load active object list builder) builder.nodes Builder.nodes (fun _ => False) :=
    members_gathers rfl (fun _ _ => trivial) False.elim
  cases r with
  | ok after =>
    obtain ⟨nodes, hv, -⟩ := hg.ok h
    exact hv.grown hload
  | error e =>
    obtain ⟨nodes, s₁, location, value, hv, -, hr⟩ := hg.error h
    exact (hv.grown hload).trans (hload hr)

theorem extra_of_tryCandidates {load : Loader} {active : DraftSet}
    {object : List (String × Json)} {location : Location} {value : Json}
    {builder after : Builder} {candidates : List CatalogEntry} {s s' : Session}
    (h : Runs (tryCandidates load active object location value builder candidates) s (.ok after)
      s') : after.extra = builder.extra := by
  induction candidates generalizing s with
  | nil =>
    obtain ⟨heq, -⟩ := runs_pure.mp h
    cases heq
    rfl
  | cons entry rest ih =>
    obtain ⟨found, s₁, -, hr⟩ := runs_bind_ok.mp h
    cases found with
    | none => exact ih hr
    | some k =>
      obtain ⟨heq, -⟩ := runs_pure.mp hr
      cases heq
      rfl

/-- A member is kept as it is, or leaves what is kept alone. -/
theorem extra_of_member {load : Loader} {active : DraftSet} {object : List (String × Json)}
    {key : String} {value : Json} {builder after : Builder} {s s' : Session}
    (h : Runs (member load active object key value builder) s (.ok after) s') :
    after.extra = builder.extra ∨ after.extra = Entries.insert key value builder.extra := by
  unfold member at h
  dsimp only at h
  split at h
  · have h := runs_get_bind.mp h
    split at h
    · obtain ⟨_, _, -, h⟩ := runs_bind_ok.mp h
      obtain ⟨heq, -⟩ := runs_pure.mp h
      cases heq
      exact Or.inl rfl
    · obtain ⟨heq, -⟩ := runs_pure.mp h
      cases heq
      exact Or.inr rfl
  · split at h
    · obtain ⟨_, _, -, h⟩ := runs_bind_ok.mp h
      obtain ⟨heq, -⟩ := runs_pure.mp h
      cases heq
      exact Or.inl rfl
    · exact Or.inl (extra_of_tryCandidates h)

theorem extra_ne_nil_of_members {load : Loader} {active : DraftSet}
    {object list : List (String × Json)} {builder after : Builder} {s s' : Session}
    (hb : builder.extra ≠ [])
    (h : Runs (members load active object list builder) s (.ok after) s') :
    after.extra ≠ [] := by
  induction list generalizing builder s with
  | nil =>
    obtain ⟨heq, -⟩ := runs_pure.mp h
    cases heq
    exact hb
  | cons entry rest ih =>
    obtain ⟨key, value⟩ := entry
    obtain ⟨next, s₁, hm, hr⟩ := runs_bind_ok.mp h
    refine ih ?_ hr
    rcases extra_of_member hm with heq | heq <;> rw [heq]
    · exact hb
    · exact List.ne_nil_of_mem (Entries.mem_insert_self key value builder.extra)

section

variable {load : Loader} (hload : ∀ location value, PlainTwins n (load location value))

include hload

theorem twins_schemas {location : Location} {index : Nat} {elements : List Json} :
    PlainTwins n (schemas load location index elements) := by
  induction elements generalizing index with
  | nil => exact .pure id
  | cons value rest ih =>
    refine (hload _ _).bind fun found => ?_
    cases found with
    | none => exact .pure id
    | some schema => exact ih.map

theorem twins_schemaList {site : Site} : PlainTwins n (schemaList load site) := by
  unfold schemaList
  cases site.value with
  | array elements => exact (twins_schemas hload).map
  | object members => exact (hload _ _).map
  | null | bool | number | string => exact .pure id

theorem twins_items {site : Site} : PlainTwins n (items load site) := by
  unfold items
  cases site.value with
  | array elements => exact (twins_schemas hload).map
  | null | bool | number | string | object => exact (hload _ _).map

theorem twins_schemaEntries {site : Site} {members : List (String × Json)} :
    PlainTwins n (schemaEntries load site members) := by
  induction members with
  | nil => exact .pure id
  | cons member rest ih =>
    obtain ⟨name, value⟩ := member
    have hentry : ∀ {f : Option Schema → LoadM (List (String × Schema))},
        PlainTwins n (f none) → (∀ schema, PlainTwins n (f (some schema))) →
        PlainTwins n (load (site.location.child name) value >>= f) := by
      intro f hnone hsome
      refine (hload _ _).bind ?_
      rintro (_ | schema)
      · exact hnone
      · exact hsome schema
    unfold schemaEntries
    split
    · exact (Twins.malformed rfl).bind fun _ => ih
    · dsimp only
      split
      · exact twins_checkPattern.bind fun _ => hentry ih fun _ => ih.map
      · exact hentry ih fun _ => ih.map

theorem twins_dependency {location : Location} {name : String} {value : Json} :
    PlainTwins n (dependency load location name value) := by
  unfold dependency
  cases value with
  | array elements => exact twins_names.map
  | string property => exact .pure id
  | object | bool => exact (hload _ _).map
  | null | number => exact (Twins.malformed rfl).bind fun _ => .pure id

theorem twins_dependencyEntries {location : Location} {members : List (String × Json)} :
    PlainTwins n (dependencyEntries load location members) := by
  induction members with
  | nil => exact .pure id
  | cons member rest ih =>
    obtain ⟨name, value⟩ := member
    refine (twins_dependency hload).bind fun found => ?_
    cases found with
    | none => exact ih
    | some d => exact ih.map

theorem twins_typeEntries {thirdDraft : Bool} {entries : List (Location × Json)} :
    PlainTwins n (typeEntries load thirdDraft entries) := by
  induction entries with
  | nil => exact .pure id
  | cons entry rest ih =>
    obtain ⟨location, value⟩ := entry
    unfold typeEntries
    split
    · exact (hload _ _).bind fun _ => ih.map
    · split
      · exact ih.map
      · exact (Twins.malformed rfl).bind fun _ => ih

theorem twins_keyword {active : DraftSet} {builder : Builder} {site : Site} :
    PlainTwins n (keyword load active builder site) := by
  unfold keyword
  split
  · split
    · exact (Twins.add fun _ => rfl).map
    · exact (hload _ _).map
  · exact (hload _ _).map
  · exact twins_schemaList hload
  · exact (twins_schemaEntries hload).map
  · exact twins_items hload
  · exact (twins_dependencyEntries hload).map
  · exact .pure id
  · exact twins_checkPattern.bind fun _ => .pure id
  · exact twins_uriText.map
  · exact twins_positiveNumber
  · exact twins_count
  · exact .pure id
  · exact twins_names.map
  · exact (twins_typeEntries hload).map
  · exact .pure id
  · exact twins_limitFlag.bind fun _ => .pure id
  · exact .pure id
  · exact .pure id
  · exact .pure id

theorem twins_tryCandidates {active : DraftSet} {object : List (String × Json)}
    {location : Location} {value : Json} {builder : Builder} {candidates : List CatalogEntry}
    (hb : builder.extra = []) :
    Twins n (fun b => b.extra ≠ [])
      (tryCandidates load active object location value builder candidates) := by
  induction candidates with
  | nil => exact .pure (not_not_intro hb)
  | cons entry rest ih =>
    refine (twins_keyword hload).bind fun found => ?_
    cases found with
    | none => exact ih
    | some k => exact .pure (not_not_intro hb)

theorem twins_member {active : DraftSet} {object : List (String × Json)} {key : String}
    {value : Json} {builder : Builder} (hb : builder.extra = []) :
    Twins n (fun b => b.extra ≠ []) (member load active object key value builder) := by
  unfold member
  dsimp only
  split
  · exact twins_unknown _ _ _ _ _
  · split
    · exact (twins_forM_malformed _ fun _ => rfl).bind fun _ => .pure (not_not_intro hb)
    · exact twins_tryCandidates hload hb

theorem twins_members {active : DraftSet} {object list : List (String × Json)}
    {builder : Builder} (hb : builder.extra = []) :
    Twins n (fun b => b.extra ≠ []) (members load active object list builder) := by
  induction list generalizing builder with
  | nil => exact .pure (not_not_intro hb)
  | cons entry rest ih =>
    obtain ⟨key, value⟩ := entry
    refine (twins_member hload hb).bind_kept ?_ (fun after hafter => ?_) ?_
    · exact fun hr => grown_of_members (fun h => (hload _ _).grown h) hr
    · exact ih (Decidable.of_not_not hafter)
    · exact fun hk hr => extra_ne_nil_of_members hk hr

end

end Digest
end SchemaAtlas
