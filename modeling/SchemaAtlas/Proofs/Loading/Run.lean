import SchemaAtlas.Loading.Node

/-!
# Runs

`Runs x s r s'` says that the step `x`, begun in state `s`, ends with `r` in state `s'`.
Every way of composing steps has one equation here, so what a step of a load can do is read
off its text without opening the layers of the monad.
-/

namespace SchemaAtlas

variable {ε σ α β : Type} {s s' : σ} {x : ExceptT ε (StateM σ) α}

/-- The step `x` leads from `s` to `s'` and gives `r`. -/
def Runs (x : ExceptT ε (StateM σ) α) (s : σ) (r : Except ε α) (s' : σ) : Prop :=
  (ExceptT.run x).run s = (r, s')

theorem Runs.unique {r r' : Except ε α} {s₁ s₂ : σ} (h : Runs x s r s₁)
    (h' : Runs x s r' s₂) : r = r' ∧ s₁ = s₂ :=
  Prod.mk.inj (h.symm.trans h')

@[simp] theorem runs_pure {a : α} {r : Except ε α} :
    Runs (pure a) s r s' ↔ r = .ok a ∧ s' = s := by
  constructor
  · intro h
    cases h
    exact ⟨rfl, rfl⟩
  · rintro ⟨rfl, rfl⟩
    rfl

@[simp] theorem runs_throw {e : ε} {r : Except ε α} :
    Runs (throw e : ExceptT ε (StateM σ) α) s r s' ↔ r = .error e ∧ s' = s := by
  constructor
  · intro h
    cases h
    exact ⟨rfl, rfl⟩
  · rintro ⟨rfl, rfl⟩
    rfl

@[simp] theorem runs_ofExcept {outcome r : Except ε α} :
    Runs (MonadExcept.ofExcept outcome : ExceptT ε (StateM σ) α) s r s' ↔
      r = outcome ∧ s' = s := by
  cases outcome with
  | error e => exact runs_throw
  | ok a => exact runs_pure

@[simp] theorem runs_get {r : Except ε σ} :
    Runs (get : ExceptT ε (StateM σ) σ) s r s' ↔ r = .ok s ∧ s' = s := by
  constructor
  · intro h
    cases h
    exact ⟨rfl, rfl⟩
  · rintro ⟨rfl, rfl⟩
    rfl

@[simp] theorem runs_modify {f : σ → σ} {r : Except ε PUnit} :
    Runs (modify f : ExceptT ε (StateM σ) PUnit) s r s' ↔ r = .ok ⟨⟩ ∧ s' = f s := by
  constructor
  · intro h
    cases h
    exact ⟨rfl, rfl⟩
  · rintro ⟨rfl, rfl⟩
    rfl

@[simp] theorem runs_modifyGet {f : σ → α × σ} {r : Except ε α} :
    Runs (modifyGet f : ExceptT ε (StateM σ) α) s r s' ↔ r = .ok (f s).1 ∧ s' = (f s).2 := by
  constructor
  · intro h
    cases h
    exact ⟨rfl, rfl⟩
  · rintro ⟨rfl, rfl⟩
    rfl

theorem run_bind (x : ExceptT ε (StateM σ) α) (f : α → ExceptT ε (StateM σ) β) (s : σ) :
    (ExceptT.run (x >>= f)).run s =
      match (ExceptT.run x).run s with
      | (.ok a, s₁) => (ExceptT.run (f a)).run s₁
      | (.error e, s₁) => (.error e, s₁) := by
  change (match (ExceptT.run x).run s with | (a, s₁) => (ExceptT.bindCont f a) s₁) = _
  rcases (ExceptT.run x).run s with ⟨_ | _, _⟩ <;> rfl

/-- A sequence stops in its first step, or ends as its second does. -/
theorem runs_bind {f : α → ExceptT ε (StateM σ) β} {r : Except ε β} :
    Runs (x >>= f) s r s' ↔
      (∃ a s₁, Runs x s (.ok a) s₁ ∧ Runs (f a) s₁ r s') ∨
        ∃ e, Runs x s (.error e) s' ∧ r = .error e := by
  unfold Runs
  rw [run_bind]
  rcases (ExceptT.run x).run s with ⟨e | a, s₁⟩
  · constructor
    · intro h
      cases h
      exact Or.inr ⟨e, rfl, rfl⟩
    · rintro (⟨a, s₂, h, _⟩ | ⟨e', h, rfl⟩)
      · cases h
      · cases h
        rfl
  · constructor
    · intro h
      exact Or.inl ⟨a, s₁, rfl, h⟩
    · rintro (⟨a', s₂, h, hf⟩ | ⟨e', h, _⟩)
      · cases h
        exact hf
      · cases h

theorem runs_bind_ok {f : α → ExceptT ε (StateM σ) β} {b : β} :
    Runs (x >>= f) s (.ok b) s' ↔
      ∃ a s₁, Runs x s (.ok a) s₁ ∧ Runs (f a) s₁ (.ok b) s' := by
  rw [runs_bind]
  constructor
  · rintro (h | ⟨e, _, he⟩)
    · exact h
    · cases he
  · exact Or.inl

theorem runs_get_bind {f : σ → ExceptT ε (StateM σ) β} {r : Except ε β} :
    Runs ((get : ExceptT ε (StateM σ) σ) >>= f) s r s' ↔ Runs (f s) s r s' := by
  unfold Runs
  rw [run_bind]
  rfl

theorem runs_set_bind {t : σ} {f : PUnit → ExceptT ε (StateM σ) β} {r : Except ε β} :
    Runs ((set t : ExceptT ε (StateM σ) PUnit) >>= f) s r s' ↔ Runs (f ⟨⟩) t r s' := by
  unfold Runs
  rw [run_bind]
  rfl

theorem runs_modify_bind {g : σ → σ} {f : PUnit → ExceptT ε (StateM σ) β} {r : Except ε β} :
    Runs ((modify g : ExceptT ε (StateM σ) PUnit) >>= f) s r s' ↔ Runs (f ⟨⟩) (g s) r s' := by
  unfold Runs
  rw [run_bind]
  rfl

theorem runs_modifyGet_bind {g : σ → α × σ} {f : α → ExceptT ε (StateM σ) β}
    {r : Except ε β} :
    Runs ((modifyGet g : ExceptT ε (StateM σ) α) >>= f) s r s' ↔ Runs (f (g s).1) (g s).2 r s' := by
  unfold Runs
  rw [run_bind]
  rfl

/-- A step whose result is turned into another. -/
theorem Runs.returning {r : Except ε α} (h : Runs x s r s') (f : α → β) :
    Runs (x >>= fun a => pure (f a)) s (r.map f) s' := by
  cases r with
  | ok a => exact runs_bind.mpr (Or.inl ⟨a, s', h, runs_pure.mpr ⟨rfl, rfl⟩⟩)
  | error e => exact runs_bind.mpr (Or.inr ⟨e, h, rfl⟩)

theorem runs_map {f : α → β} {r : Except ε β} :
    Runs (f <$> x) s r s' ↔
      (∃ a, Runs x s (.ok a) s' ∧ r = .ok (f a)) ∨
        ∃ e, Runs x s (.error e) s' ∧ r = .error e := by
  rw [map_eq_pure_bind, runs_bind]
  simp only [runs_pure]
  constructor
  · rintro (⟨a, s₁, h, rfl, rfl⟩ | h)
    · exact Or.inl ⟨a, h, rfl⟩
    · exact Or.inr h
  · rintro (⟨a, h, rfl⟩ | h)
    · exact Or.inl ⟨a, s', h, rfl, rfl⟩
    · exact Or.inr h

namespace LoadM

variable {α : Type} {s s' : Session} {x : LoadM α}

@[simp] theorem runs_issue {severity : Severity} {kind : IssueKind} {location : Location}
    {message : String} {r : Except Stop Unit} :
    Runs (issue severity kind location message) s r s' ↔
      r = .ok () ∧ s' = s.record severity kind location.document location.path message :=
  runs_modify

@[simp] theorem runs_malformed {kind : IssueKind} {location : Location} {message : String}
    {r : Except Stop Unit} :
    Runs (malformed kind location message) s r s' ↔
      r = .ok () ∧ s' = s.record (if s.policy.strict then .error else .warning) kind
        location.document location.path message := by
  unfold malformed
  simp only [runs_bind, runs_get, runs_issue]
  constructor
  · rintro (⟨_, _, ⟨h, rfl⟩, hr⟩ | ⟨_, ⟨h, _⟩, _⟩)
    · cases h
      exact hr
    · cases h
  · intro h
    exact Or.inl ⟨s, s, ⟨rfl, rfl⟩, h⟩

@[simp] theorem runs_fatal {kind : IssueKind} {location : Location} {message : String}
    {r : Except Stop α} :
    Runs (fatal kind location message : LoadM α) s r s' ↔
      r = .error .fatal ∧ s' = s.record .error kind location.document location.path message := by
  unfold fatal
  rw [runs_bind]
  simp

@[simp] theorem runs_onStore {step : Store → α × Store} {r : Except Stop α} :
    Runs (onStore step) s r s' ↔
      r = .ok (step s.store).1 ∧ s' = { s with store := (step s.store).2 } :=
  runs_modifyGet

theorem run_between (before after : Session → Session) (x : LoadM α) (s : Session) :
    (ExceptT.run (between before after x)).run s =
      (((ExceptT.run x).run (before s)).1, after ((ExceptT.run x).run (before s)).2) := by
  change (match (match (ExceptT.run x).run (before s) with
    | (a, s₁) => ((Except.ok a : Except Stop _), s₁)) with
    | (a, s₁) => ExceptT.bindCont (fun outcome => do
        modify after
        MonadExcept.ofExcept outcome : Except Stop α → LoadM α) a s₁) = _
  rcases (ExceptT.run x).run (before s) with ⟨_ | _, _⟩ <;> rfl

/-- The second change is made whatever the step between comes to. -/
theorem runs_between {before after : Session → Session} {r : Except Stop α} :
    Runs (between before after x) s r s' ↔ ∃ s₁, Runs x (before s) r s₁ ∧ s' = after s₁ := by
  unfold Runs
  rw [run_between]
  rcases (ExceptT.run x).run (before s) with ⟨outcome, s₁⟩
  constructor
  · intro h
    cases h
    exact ⟨s₁, rfl, rfl⟩
  · rintro ⟨s₂, h, rfl⟩
    cases h
    rfl

end LoadM
end SchemaAtlas
