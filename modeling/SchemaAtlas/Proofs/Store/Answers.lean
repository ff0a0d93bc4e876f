import SchemaAtlas.Proofs.Spelling.Outline

/-!
# What following references gives

The target of a reference is the end of the row of its successive direct targets, if the row is
not too long. Following asks deferred answers as it goes, so the store changes on the way; but a
deferred answer is asked once and kept, and therefore every later question is answered as it
would have been before (`Asked.follow`). `Store.target_exact` says both: which node is the
target, and what becomes of the deferred answers in any sequence of calls.
-/

namespace SchemaAtlas

/-! ## Deferred answers -/

namespace Deferred

/-- A deferred answer after it was asked for: the first answer is kept. -/
def asked (d : Deferred) : Deferred :=
  { d with memo := some (d.answers d.calls), calls := d.calls + 1 }

/-- What may become of a deferred answer: it is as before, or it had never been given and was
asked for once. -/
inductive Kept (d : Deferred) : Deferred → Prop
  | same : Kept d d
  | asked : d.memo = none → Kept d d.asked

theorem Kept.trans {d d₁ d₂ : Deferred} (h : d.Kept d₁) (h' : d₁.Kept d₂) : d.Kept d₂ := by
  cases h with
  | same => exact h'
  | asked hnone =>
    cases h' with
    | same => exact .asked hnone
    | asked hagain => cases hagain

/-- The answer that is kept, or else the one that asking gives. -/
def answer (d : Deferred) : Option Schema := d.memo.getD (d.answers d.calls)

theorem Kept.answer {d d' : Deferred} (h : d.Kept d') : d'.answer = d.answer := by
  cases h with
  | same => rfl
  | asked hnone => simp [Deferred.answer, Deferred.asked, hnone]

end Deferred

namespace Store

variable {s s₁ s' : Store}

/-- Every deferred answer of a store is kept by a later one. -/
def Keeps (s s' : Store) : Prop :=
  ∀ cell : Nat, Option.Rel Deferred.Kept s.deferred[cell]? s'.deferred[cell]?

theorem Keeps.refl (s : Store) : s.Keeps s := by
  intro cell
  cases s.deferred[cell]? with
  | none => exact .none
  | some d => exact .some .same

theorem Keeps.trans (h : s.Keeps s₁) (h' : s₁.Keeps s') : s.Keeps s' := by
  intro cell
  have hfirst := h cell
  have hsecond := h' cell
  generalize s.deferred[cell]? = a at hfirst
  generalize s₁.deferred[cell]? = b at hfirst hsecond
  generalize s'.deferred[cell]? = c at hsecond
  cases hfirst with
  | none => exact hsecond
  | some hd =>
    cases hsecond with
    | some hd' => exact .some (hd.trans hd')

/-- A store from which nothing but deferred answers has been asked. -/
structure Asked (s s' : Store) : Prop where
  nodes : s'.nodes = s.nodes
  keeps : s.Keeps s'

theorem Asked.refl (s : Store) : s.Asked s := ⟨rfl, .refl s⟩

theorem Asked.trans (h : s.Asked s₁) (h' : s₁.Asked s') : s.Asked s' :=
  ⟨h'.nodes.trans h.nodes, h.keeps.trans h'.keeps⟩

theorem follow_deferred (cell : Nat) (s : Store) :
    (follow (.deferred cell) s).1 = s.deferred[cell]?.bind Deferred.answer := by
  cases hd : s.deferred[cell]? with
  | none => simp only [follow, hd, Option.bind_none]
  | some d => cases hm : d.memo <;> simp [follow, hd, hm, Deferred.answer]

/-- Following one step asks one deferred answer at most. -/
theorem asked_follow (target : Target) (s : Store) : s.Asked (follow target s).2 := by
  unfold follow
  split
  · exact .refl s
  · rename_i cell
    split
    · exact .refl s
    · rename_i d hd
      split
      · exact .refl s
      · rename_i hnone
        refine ⟨rfl, fun other => ?_⟩
        by_cases heq : cell = other
        · subst heq
          obtain ⟨hlt, hget⟩ := Array.getElem?_eq_some_iff.mp hd
          simp only [hd, Array.getElem?_setIfInBounds_self_of_lt hlt]
          exact .some (.asked hnone)
        · simp only [Array.getElem?_setIfInBounds_ne heq]
          exact Keeps.refl s other

/-- What has been asked does not change what is answered. -/
theorem Asked.follow (h : s.Asked s') (target : Target) :
    (follow target s').1 = (follow target s).1 := by
  cases target with
  | node id => exact congrArg (fun nodes => (nodes[id]?).join) h.nodes
  | deferred cell =>
    rw [follow_deferred, follow_deferred]
    have hcell := h.keeps cell
    generalize s.deferred[cell]? = a at hcell
    generalize s'.deferred[cell]? = b at hcell
    cases hcell with
    | none => rfl
    | some hd => exact hd.answer

/-! ## Rows of direct targets -/

/-- The successive direct targets of a reference, up to some node: every one before it is a
reference to the next one. -/
inductive Targets (s : Store) : Reference → List Schema → Prop
  | last {r : Reference} {t : Schema} : (follow r.target s).1 = some t → Targets s r [t]
  | next {r r' : Reference} {t : Schema} {rest : List Schema} : (follow r.target s).1 = some t →
      t.reference? = some r' → Targets s r' rest → Targets s r (t :: rest)

theorem Targets.congr {r : Reference} {row : List Schema} (h : s.Targets r row)
    (hf : ∀ target, (follow target s').1 = (follow target s).1) : s'.Targets r row := by
  induction h with
  | last hlast => exact .last ((hf _).trans hlast)
  | next hnext hr _ ih => exact .next ((hf _).trans hnext) hr ih

theorem Asked.targets_iff (h : s.Asked s') {r : Reference} {row : List Schema} :
    s'.Targets r row ↔ s.Targets r row :=
  ⟨fun hrow => hrow.congr fun target => (h.follow target).symm, fun hrow => hrow.congr h.follow⟩

/-- The direct targets of a reference up to a node that is none. -/
structure Ends (s : Store) (r : Reference) (row : List Schema) (t : Schema) : Prop where
  targets : s.Targets r row
  last : row.getLast? = some t
  plain : t.reference? = none

variable {r : Reference} {row : List Schema} {t : Schema}

theorem Asked.ends_iff (h : s.Asked s') : s'.Ends r row t ↔ s.Ends r row t :=
  ⟨fun ⟨hrow, hlast, hplain⟩ => ⟨h.targets_iff.mp hrow, hlast, hplain⟩,
    fun ⟨hrow, hlast, hplain⟩ => ⟨h.targets_iff.mpr hrow, hlast, hplain⟩⟩

/-- The row of a reference to a reference goes on with the row of the latter. -/
theorem ends_of_reference {r' : Reference} {next : Schema} (hf : (follow r.target s).1 = some next)
    (hr : next.reference? = some r') :
    s.Ends r row t ↔ ∃ rest, row = next :: rest ∧ s.Ends r' rest t := by
  constructor
  · rintro ⟨hrow, hlast, hplain⟩
    cases hrow with
    | last hother =>
      cases hf.symm.trans hother
      cases hlast
      cases hr.symm.trans hplain
    | @next _ _ _ rest hother hr' hrest =>
      cases hf.symm.trans hother
      cases hr.symm.trans hr'
      refine ⟨rest, rfl, hrest, ?_, hplain⟩
      cases rest with
      | nil => cases hrest
      | cons second more => rwa [List.getLast?_cons_cons] at hlast
  · rintro ⟨rest, rfl, hrest, hlast, hplain⟩
    refine ⟨.next hf hr hrest, ?_, hplain⟩
    cases rest with
    | nil => cases hrest
    | cons second more => rwa [List.getLast?_cons_cons]

/-- The row of a reference to any other node is that node. -/
theorem ends_of_plain {next : Schema} (hf : (follow r.target s).1 = some next)
    (hr : next.reference? = none) : s.Ends r row t ↔ row = [next] ∧ t = next := by
  constructor
  · rintro ⟨hrow, hlast, hplain⟩
    cases hrow with
    | last hother =>
      cases hf.symm.trans hother
      cases hlast
      exact ⟨rfl, rfl⟩
    | next hother hr' _ =>
      cases hf.symm.trans hother
      cases hr.symm.trans hr'
  · rintro ⟨rfl, rfl⟩
    exact ⟨.last hf, rfl, hr⟩

theorem not_ends (hf : (follow r.target s).1 = none) : ¬s.Ends r row t := by
  intro h
  cases h.targets with
  | last hother => cases hf.symm.trans hother
  | next hother _ _ => cases hf.symm.trans hother

theorem Ends.ne_nil (h : s.Ends r row t) : row ≠ [] := by
  cases h.targets <;> exact List.cons_ne_nil _ _

/-! ## Targets -/

/-- The end of a row of at most `n` direct targets. -/
def within (n : Nat) (r : Reference) (s : Store) : Option Schema × Store :=
  match follow r.target s with
  | (none, s') => (none, s')
  | (some next, s') => chainEnd n next s'

theorem within_of_none {n : Nat} (h : follow r.target s = (none, s₁)) :
    within n r s = (none, s₁) := by
  rw [within, h]

/-- Every node that is passed takes one from the number of nodes that may be. -/
theorem within_of_some {n : Nat} {next : Schema} (h : follow r.target s = (some next, s₁)) :
    within n r s = match n, next.reference? with
      | 0, _ => (none, s₁)
      | _ + 1, none => (some next, s₁)
      | n + 1, some r' => within n r' s₁ := by
  rw [within, h]
  cases n with
  | zero => rfl
  | succ n =>
    cases hr : next.reference? with
    | none =>
      simp only [chainEnd, hr]
      rfl
    | some r' => exact run_chainEnd hr n s₁

theorem asked_within (n : Nat) (r : Reference) (s : Store) : s.Asked (within n r s).2 := by
  have hasked := asked_follow r.target s
  cases hfound : follow r.target s with
  | mk found s₁ =>
    rw [hfound] at hasked
    cases found with
    | none => rwa [within_of_none hfound]
    | some next =>
      rw [within_of_some hfound]
      cases n with
      | zero => exact hasked
      | succ n =>
        cases next.reference? with
        | none => exact hasked
        | some r' => exact hasked.trans (asked_within n r' s₁)

/-- The induction is on the number of nodes that may still be passed. Every step asks the store,
and what the store answers afterwards is what it would have answered before. -/
theorem within_eq_some_iff {n : Nat} :
    (within n r s).1 = some t ↔ ∃ row, s.Ends r row t ∧ row.length ≤ n := by
  induction n generalizing r s with
  | zero =>
    have hnone : (within 0 r s).1 = none := by
      rcases hfound : follow r.target s with ⟨_ | next, s₁⟩
      · rw [within_of_none hfound]
      · rw [within_of_some hfound]
    rw [hnone]
    refine ⟨fun h => (nomatch h), ?_⟩
    rintro ⟨row, hends, hlength⟩
    exact (hends.ne_nil (List.eq_nil_of_length_eq_zero (Nat.le_zero.mp hlength))).elim
  | succ n ih =>
    have hasked := asked_follow r.target s
    cases hfound : follow r.target s with
    | mk found s₁ =>
      rw [hfound] at hasked
      cases found with
      | none =>
        have hnone : (follow r.target s).1 = none := by rw [hfound]
        rw [within_of_none hfound]
        exact ⟨fun h => (nomatch h), fun ⟨_, hends, _⟩ => (not_ends hnone hends).elim⟩
      | some next =>
        have hf : (follow r.target s).1 = some next := by rw [hfound]
        rw [within_of_some hfound]
        cases hr : next.reference? with
        | none =>
          simp only [ends_of_plain hf hr, Option.some.injEq]
          constructor
          · rintro rfl
            exact ⟨[next], ⟨rfl, rfl⟩, Nat.le_add_left 1 n⟩
          · rintro ⟨_, ⟨_, rfl⟩, _⟩
            rfl
        | some r' =>
          simp only [ih, hasked.ends_iff, ends_of_reference hf hr]
          constructor
          · rintro ⟨rest, hends, hlength⟩
            exact ⟨next :: rest, ⟨rest, rfl, hends⟩, Nat.succ_le_succ hlength⟩
          · rintro ⟨_, ⟨rest, rfl, hends⟩, hlength⟩
            exact ⟨rest, hends, Nat.le_of_succ_le_succ hlength⟩

theorem target_eq_within (r : Reference) (s : Store) : target r s = within longestChain r s :=
  run_target r s

theorem target_eq_some_iff : (target r s).1 = some t ↔ ∃ row, s.Targets r row ∧
    row.getLast? = some t ∧ row.length ≤ longestChain ∧ t.isReference = false := by
  rw [target_eq_within, within_eq_some_iff]
  constructor
  · rintro ⟨row, ⟨hrow, hlast, hplain⟩, hlength⟩
    exact ⟨row, hrow, hlast, hlength, by simp [Schema.isReference, hplain]⟩
  · rintro ⟨row, hrow, hlast, hlength, hplain⟩
    exact ⟨row, ⟨hrow, hlast, by simpa [Schema.isReference] using hplain⟩, hlength⟩

theorem asked_target (r : Reference) (s : Store) : s.Asked (target r s).2 := by
  rw [target_eq_within]
  exact asked_within longestChain r s

/-- Having asked for other targets does not change the target of a reference. -/
theorem Asked.target (h : s.Asked s') (r : Reference) : (target r s').1 = (target r s).1 := by
  refine Option.ext fun t => ?_
  simp only [target_eq_some_iff, h.targets_iff]

theorem asked_resolved (schema : Schema) (s : Store) : s.Asked (resolved schema s).2 := by
  cases hr : schema.reference? with
  | none =>
    simp only [resolved, hr]
    exact .refl s
  | some r =>
    simp only [resolved, hr]
    exact asked_target r s

/-! ## Calls -/

/-- What may happen to a store: someone asks for the target of a reference or for what a node
resolves to, or the nodes change, as when nodes are made, finished or given up. -/
inductive Event where
  | target (r : Reference)
  | resolved (schema : Schema)
  | change (nodes : Array (Option Schema))

/-- The store after an event. -/
def Event.apply (s : Store) : Event → Store
  | .target r => (Store.target r s).2
  | .resolved schema => (Store.resolved schema s).2
  | .change nodes => { s with nodes }

/-- The store after some events. -/
def after (s : Store) (events : List Event) : Store := events.foldl Event.apply s

/-- One event keeps the deferred answers. -/
theorem keeps_apply (s : Store) (event : Event) : s.Keeps (event.apply s) := by
  cases event with
  | target r => exact (asked_target r s).keeps
  | resolved schema => exact (asked_resolved schema s).keeps
  | change nodes => exact Keeps.refl s

theorem keeps_after (s : Store) (events : List Event) : s.Keeps (s.after events) := by
  induction events generalizing s with
  | nil => exact .refl s
  | cons event rest ih => exact (keeps_apply s event).trans (ih (event.apply s))

/-- The target of a reference is the last of its successive direct targets, if that is no
reference and at most the sixty-fourth of them; there is no other target. Asking for it does not
change what later calls give, and whatever happens to the store, a deferred answer stays as it
is, or is asked for once and then kept. -/
theorem target_exact (s : Store) (r : Reference) (events : List Event) :
    (∀ t, (target r s).1 = some t ↔ ∃ row, s.Targets r row ∧ row.getLast? = some t ∧
      row.length ≤ 64 ∧ t.isReference = false) ∧
    (∀ other, (target other (target r s).2).1 = (target other s).1) ∧
    ∀ cell : Nat, Option.Rel Deferred.Kept s.deferred[cell]? (s.after events).deferred[cell]? :=
  ⟨fun _ => target_eq_some_iff, fun other => (asked_target r s).target other,
    keeps_after s events⟩

/-- A node with references in front of it, each to the next. -/
def behind (references : Nat) : Store where
  nodes := ((List.range references).map fun i =>
    some (.node i default default (.reference ⟨"", default, .node (i + 1)⟩))).toArray.push
      (some (.node references default default (.boolean true)))
  deferred := #[]

example : ((target ⟨"", default, .node 0⟩ (behind 63)).1.map Schema.id,
    (target ⟨"", default, .node 0⟩ (behind 64)).1.map Schema.id) = (some 63, none) := by
  decide +kernel

end Store
end SchemaAtlas
