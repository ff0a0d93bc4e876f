import SchemaAtlas.Proofs.Spelling.Skeleton

/-!
# Readings that go alike

Two readings are alike if, begun in sessions that are compared, such as sessions that differ
in the spelling of references only, they both fail or end in such sessions with related
results. Sequences respect this, so it is shown of a function by going through its steps.
-/

namespace SchemaAtlas

/-- The values of a function agree. -/
def Same {α β : Type} (f : α → β) (a b : α) : Prop := f a = f b

section

variable {α β : Type} {f : α → β} {a b : Option α}

theorem map_eq_of_rel (h : Option.Rel (Same f) a b) : a.map f = b.map f := by
  cases h with
  | some hab => exact congrArg some hab
  | none => rfl

theorem rel_of_map_eq (h : a.map f = b.map f) : Option.Rel (Same f) a b := by
  cases a with
  | none =>
    cases b with
    | none => exact .none
    | some => cases h
  | some =>
    cases b with
    | none => cases h
    | some => exact .some (Option.some.inj h)

theorem bind_eq_of_rel {R : α → α → Prop} {g k : α → Option β} (h : Option.Rel R a b)
    (hg : ∀ x y, a = some x → b = some y → R x y → g x = k y) : a.bind g = b.bind k := by
  cases h with
  | some hxy => exact hg _ _ rfl rfl hxy
  | none => rfl

end

namespace Entries

variable {κ α β : Type} [DecidableEq κ] {R : α → α → Prop} {a b : List (κ × α)} {v w : α}

theorem Related.contains (h : Related R a b) (key : κ) :
    Entries.contains key a = Entries.contains key b := by
  have hfound := h.get? key
  unfold Entries.contains
  revert hfound
  generalize Entries.get? key a = found
  generalize Entries.get? key b = found'
  rintro (_ | _) <;> rfl

theorem Related.putNew (h : Related R a b) (key : κ) (hv : R v w) :
    Related R (Entries.putNew key v a) (Entries.putNew key w b) := by
  unfold Entries.putNew
  rw [h.contains key]
  split
  · exact h
  · exact .cons ⟨rfl, hv⟩ h

theorem Related.insert [LT κ] [DecidableLT κ] (h : Related R a b) (key : κ) (hv : R v w) :
    Related R (Entries.insert key v a) (Entries.insert key w b) := by
  induction h with
  | nil => exact .cons ⟨rfl, hv⟩ .nil
  | @cons entry other rest rest' hentry hrest ih =>
    obtain ⟨k, x⟩ := entry
    obtain ⟨k', y⟩ := other
    obtain ⟨hkey, hvalue⟩ := hentry
    cases hkey
    simp only [Entries.insert]
    split
    · exact .cons ⟨rfl, hv⟩ hrest
    · split
      · exact .cons ⟨rfl, hv⟩ (.cons ⟨rfl, hvalue⟩ hrest)
      · exact .cons ⟨rfl, hvalue⟩ ih

omit [DecidableEq κ] in
theorem Related.mapValues_eq {f : α → β} (h : Related (Same f) a b) :
    mapValues f a = mapValues f b := by
  induction h with
  | nil => rfl
  | cons hentry _ ih => exact congrArg₂ List.cons (Prod.ext hentry.1 hentry.2) ih

end Entries

theorem forall₂_head? {α : Type} {R : α → α → Prop} {a b : List α} (h : List.Forall₂ R a b) :
    Option.Rel R a.head? b.head? := by
  cases h with
  | nil => exact .none
  | cons hd _ => exact .some hd

/-! ## Sessions -/

namespace Session

/-- Sessions that differ in the spelling of references only, and in the wording of issues. -/
structure Respells (s t : Session) : Prop where
  policy : s.policy = t.policy
  cache : s.cache = t.cache
  documents : s.documents.Respells t.documents
  store : s.store.skeleton = t.store.skeleton
  errors : s.report.hasErrors = t.report.hasErrors
  stack : List.Forall₂ OpenDocument.Respells s.stack t.stack
  opened : Entries.Related OpenDocument.Respells s.opened t.opened
  inProgress : s.inProgress = t.inProgress
  resolving : s.resolving = t.resolving
  built : Entries.Related (Same Schema.skeleton) s.built t.built

namespace Respells

variable {s t : Session} (h : s.Respells t)

include h

theorem current? : Option.Rel OpenDocument.Respells s.current? t.current? :=
  forall₂_head? h.stack

theorem nearby : List.Forall₂ OpenDocument.Respells s.nearby t.nearby := by
  have hlast : Option.Rel OpenDocument.Respells s.stack.getLast? t.stack.getLast? := by
    rw [List.getLast?_eq_head?_reverse, List.getLast?_eq_head?_reverse]
    exact forall₂_head? (List.forall₂_reverse_iff.mpr h.stack)
  have hhead := forall₂_head? h.stack
  unfold Session.nearby
  revert hhead hlast
  generalize s.stack.head? = current
  generalize t.stack.head? = current'
  generalize s.stack.getLast? = first
  generalize t.stack.getLast? = first'
  rintro (hfirst | _) (hcurrent | _)
  · simp only [hcurrent.uri, hfirst.uri]
    split
    · exact .cons hcurrent .nil
    · exact .cons hcurrent (.cons hfirst .nil)
  · exact .nil
  · exact .nil
  · exact .nil

theorem knows (uri : Uri) : s.knows uri = t.knows uri := by
  rw [Session.knows, Session.knows, h.inProgress, h.built.contains]

theorem record (severity : Severity) (kind kind' : IssueKind) (document document' : Uri)
    (path path' : Pointer) (message message' : String) :
    (s.record severity kind document path message).Respells
      (t.record severity kind' document' path' message') where
  __ := h
  errors := by
    simp only [Session.record, Report.hasErrors_record, h.errors]

theorem push {d e : OpenDocument} (hd : d.Respells e) : (s.push d).Respells (t.push e) where
  __ := h
  stack := .cons hd h.stack

theorem pop : s.pop.Respells t.pop where
  __ := h
  stack := by
    have hstack := h.stack
    unfold Session.pop
    revert hstack
    generalize s.stack = stack
    generalize t.stack = stack'
    rintro (_ | ⟨_, hrest⟩)
    · exact .nil
    · exact hrest

theorem beginResolving (uri : Uri) : (s.beginResolving uri).Respells (t.beginResolving uri) where
  __ := h
  resolving := congrArg (uri :: ·) h.resolving

theorem endResolving (uri : Uri) : (s.endResolving uri).Respells (t.endResolving uri) where
  __ := h
  resolving := congrArg (·.erase uri) h.resolving

theorem register (id : Nat) (uris : List Uri) :
    (s.register id uris).Respells (t.register id uris) where
  __ := h
  inProgress := by
    rw [Session.register, h.inProgress]
    rfl

theorem release (id : Nat) (uris : List Uri) :
    (s.release id uris).Respells (t.release id uris) where
  __ := h
  inProgress := by
    rw [Session.release, h.inProgress]
    rfl

theorem finish {N M : Schema} (hN : N.skeleton = M.skeleton) (uris : List Uri) :
    (s.finish N uris).Respells (t.finish M uris) where
  __ := h
  built := by
    have hput : ∀ {a b : List (Uri × Schema)}, Entries.Related (Same Schema.skeleton) a b →
        Entries.Related (Same Schema.skeleton)
          (uris.foldl (fun table uri => Entries.putNew uri N table) a)
          (uris.foldl (fun table uri => Entries.putNew uri M table) b) := by
      induction uris with
      | nil => exact id
      | cons uri rest ih => exact fun hab => ih (hab.putNew uri hN)
    exact hput h.built

theorem withStore {σ τ : Store} (hστ : σ.skeleton = τ.skeleton) :
    Session.Respells { s with store := σ } { t with store := τ } where
  __ := h
  store := hστ

theorem withDocuments {d e : Documents} (hd : d.Respells e) :
    Session.Respells { s with documents := d } { t with documents := e } where
  __ := h
  documents := hd

/-- Documents that respell each other are opened alike. -/
theorem openDocument (uri : Uri) {v w : Json} (hv : v.Respells w) :
    (s.openDocument uri v).1.Respells (t.openDocument uri w).1 ∧
      (s.openDocument uri v).2.Respells (t.openDocument uri w).2 := by
  have hfound := h.opened.get? uri
  unfold Session.openDocument
  rw [hv.metaSchema, h.policy]
  revert hfound
  generalize Entries.get? uri s.opened = found
  generalize Entries.get? uri t.opened = found'
  rintro (hfound | _)
  · exact ⟨hfound, h⟩
  · dsimp only
    obtain ⟨draft, active, unknown⟩ :=
      t.policy.draftsOf ((w.member? "$schema").bind Json.string?)
    have hopened : OpenDocument.Respells ⟨uri, v, draft, active⟩ ⟨uri, w, draft, active⟩ :=
      ⟨rfl, rfl, rfl, hv⟩
    refine ⟨hopened, ?_⟩
    have hopen : ∀ {s t : Session}, s.Respells t →
        Session.Respells { s with opened := Entries.put uri ⟨uri, v, draft, active⟩ s.opened }
          { t with opened := Entries.put uri ⟨uri, w, draft, active⟩ t.opened } :=
      fun h => { __ := h, opened := h.opened.put uri hopened }
    cases unknown with
    | none => exact hopen h
    | some name => exact hopen (h.record ..)

end Respells
end Session

/-! ## Comparisons -/

/-- What two readings are compared by. -/
structure Comparison (α : Type) where
  /-- The sessions that the readings begin and end in. -/
  sessions : Session → Session → Prop
  /-- What is seen of a node. -/
  view : Schema → α
  /-- Whether one of the readings may fail alone. -/
  alone : Prop
  policy : ∀ {s t}, sessions s t → s.policy = t.policy
  record : ∀ {s t}, sessions s t → ∀ severity kind kind' document document' path path' message
    message', sessions (s.record severity kind document path message)
      (t.record severity kind' document' path' message')
  boolean : ∀ {s t}, sessions s t → ∀ location draft b,
    view (s.store.add location draft (.boolean b)).1 =
        view (t.store.add location draft (.boolean b)).1 ∧
      sessions { s with store := (s.store.add location draft (.boolean b)).2 }
        { t with store := (t.store.add location draft (.boolean b)).2 }

/-- Sessions that differ in the spelling of references only, compared by skeletons. -/
def Comparison.spelling : Comparison Schema where
  sessions := Session.Respells
  view := Schema.skeleton
  alone := False
  policy h := h.policy
  record h := h.record
  boolean h location draft b :=
    have hadd := Store.add_of_skeleton h.store location draft (b := .boolean b) rfl
    ⟨hadd.1, h.withStore hadd.2⟩

/-! ## Readings -/

open LoadM Session

variable {α β γ : Type} {C : Comparison γ} {R : α → α → Prop} {S : β → β → Prop} {x y : LoadM α}

/-- What alike readings come to. -/
inductive Agree (C : Comparison γ) (R : α → α → Prop) :
    Except Stop α → Session → Except Stop α → Session → Prop
  | ok {a b : α} {s t : Session} : R a b → C.sessions s t → Agree C R (.ok a) s (.ok b) t
  | error {e e' : Stop} {s t : Session} : Agree C R (.error e) s (.error e') t
  | first {e : Stop} {r : Except Stop α} {s t : Session} : C.alone → Agree C R (.error e) s r t
  | second {e : Stop} {r : Except Stop α} {s t : Session} : C.alone → Agree C R r s (.error e) t

/-- Readings that, begun in sessions that are compared, come to the same. -/
structure Alike (C : Comparison γ) (R : α → α → Prop) (x y : LoadM α) : Prop where
  agree : ∀ {s t r r' s' t'}, C.sessions s t → Runs x s r s' → Runs y t r' t' →
    Agree C R r s' r' t'

namespace Alike

theorem pure {a b : α} (h : R a b) : Alike C R (Pure.pure a) (Pure.pure b) := by
  refine ⟨fun hs hx hy => ?_⟩
  obtain ⟨rfl, rfl⟩ := runs_pure.mp hx
  obtain ⟨rfl, rfl⟩ := runs_pure.mp hy
  exact .ok h hs

theorem throw (e e' : Stop) : Alike C R (MonadExcept.throw e) (MonadExcept.throw e') := by
  refine ⟨fun _ hx hy => ?_⟩
  obtain ⟨rfl, rfl⟩ := runs_throw.mp hx
  obtain ⟨rfl, rfl⟩ := runs_throw.mp hy
  exact .error

theorem bind {f g : α → LoadM β} (h : Alike C R x y)
    (hf : ∀ {a b}, R a b → Alike C S (f a) (g b)) : Alike C S (x >>= f) (y >>= g) := by
  refine ⟨fun hs hx hy => ?_⟩
  rcases runs_bind.mp hx with ⟨a, s₁, ha, hfa⟩ | ⟨e, he, rfl⟩
  · rcases runs_bind.mp hy with ⟨b, t₁, hb, hgb⟩ | ⟨e', he', rfl⟩
    · cases h.agree hs ha hb with
      | ok hab hs₁ => exact (hf hab).agree hs₁ hfa hgb
    · cases h.agree hs ha he' with
      | second halone => exact .second halone
  · rcases runs_bind.mp hy with ⟨b, t₁, hb, hgb⟩ | ⟨e', he', rfl⟩
    · cases h.agree hs he hb with
      | first halone => exact .first halone
    · exact .error

/-- A reading that is followed by a computation without steps. -/
theorem map {f g : α → β} (h : Alike C R x y) (hf : ∀ {a b}, R a b → S (f a) (g b)) :
    Alike C S (do return f (← x)) (do return g (← y)) :=
  h.bind fun hab => .pure (hf hab)

theorem get_bind {f g : Session → LoadM β}
    (h : ∀ {s t}, C.sessions s t → Alike C S (f s) (g t)) :
    Alike C S (get >>= f) (get >>= g) := by
  refine ⟨fun hs hx hy => ?_⟩
  exact (h hs).agree hs (runs_get_bind.mp hx) (runs_get_bind.mp hy)

theorem modify {f g : Session → Session}
    (h : ∀ {s t}, C.sessions s t → C.sessions (f s) (g t)) :
    Alike C Eq (modify f : LoadM PUnit) (modify g) := by
  refine ⟨fun hs hx hy => ?_⟩
  obtain ⟨rfl, rfl⟩ := runs_modify.mp hx
  obtain ⟨rfl, rfl⟩ := runs_modify.mp hy
  exact .ok rfl (h hs)

theorem modifyGet {f g : Session → α × Session}
    (h : ∀ {s t}, C.sessions s t → R (f s).1 (g t).1 ∧ C.sessions (f s).2 (g t).2) :
    Alike C R (modifyGet f : LoadM α) (modifyGet g) := by
  refine ⟨fun hs hx hy => ?_⟩
  obtain ⟨rfl, rfl⟩ := runs_modifyGet.mp hx
  obtain ⟨rfl, rfl⟩ := runs_modifyGet.mp hy
  exact .ok (h hs).1 (h hs).2

theorem set_bind {s₁ t₁ : Session} {f g : PUnit → LoadM β} (h : C.sessions s₁ t₁)
    (hf : Alike C S (f ⟨⟩) (g ⟨⟩)) : Alike C S (set s₁ >>= f) (set t₁ >>= g) := by
  refine ⟨fun _ hx hy => ?_⟩
  exact hf.agree h (runs_set_bind.mp hx) (runs_set_bind.mp hy)

theorem onStore {f g : Store → α × Store} (h : ∀ {s t : Session}, C.sessions s t →
    R (f s.store).1 (g t.store).1 ∧
      C.sessions { s with store := (f s.store).2 } { t with store := (g t.store).2 }) :
    Alike C R (onStore f) (onStore g) := by
  refine ⟨fun hs hx hy => ?_⟩
  obtain ⟨rfl, rfl⟩ := runs_onStore.mp hx
  obtain ⟨rfl, rfl⟩ := runs_onStore.mp hy
  exact .ok (h hs).1 (h hs).2

/-- A step on the store that respects skeletons. -/
theorem onSkeleton {f g : Store → α × Store} (h : ∀ {s t : Store}, s.skeleton = t.skeleton →
    R (f s).1 (g t).1 ∧ (f s).2.skeleton = (g t).2.skeleton) :
    Alike .spelling R (LoadM.onStore f) (LoadM.onStore g) :=
  .onStore fun {_ _} (hs : Session.Respells _ _) => ⟨(h hs.store).1, hs.withStore (h hs.store).2⟩

theorem between {before after before' after' : Session → Session} (h : Alike C R x y)
    (hb : ∀ {s t}, C.sessions s t → C.sessions (before s) (before' t))
    (ha : ∀ {s t}, C.sessions s t → C.sessions (after s) (after' t)) :
    Alike C R (LoadM.between before after x) (LoadM.between before' after' y) := by
  refine ⟨fun hs hx hy => ?_⟩
  obtain ⟨s₁, hrun, rfl⟩ := runs_between.mp hx
  obtain ⟨t₁, hrun', rfl⟩ := runs_between.mp hy
  cases h.agree (hb hs) hrun hrun' with
  | ok hab hs₁ => exact .ok hab (ha hs₁)
  | error => exact .error
  | first halone => exact .first halone
  | second halone => exact .second halone

/-- The wording of an issue plays no part. -/
theorem issue {severity : Severity} {kind kind' : IssueKind} {location location' : Location}
    {message message' : String} : Alike C Eq (LoadM.issue severity kind location message)
      (LoadM.issue severity kind' location' message') :=
  .modify fun hs => C.record hs ..

theorem malformed {kind kind' : IssueKind} {location location' : Location}
    {message message' : String} : Alike C Eq (LoadM.malformed kind location message)
      (LoadM.malformed kind' location' message') := by
  refine .get_bind fun hs => ?_
  rw [C.policy hs]
  exact .issue

theorem fatal {kind kind' : IssueKind} {location location' : Location}
    {message message' : String} : Alike C R (LoadM.fatal kind location message)
      (LoadM.fatal kind' location' message') :=
  issue.bind fun _ => .throw ..

end Alike
end SchemaAtlas
