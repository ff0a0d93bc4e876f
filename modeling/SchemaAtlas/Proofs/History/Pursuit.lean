import SchemaAtlas.Proofs.Loading.Links
import SchemaAtlas.Proofs.Loading.Pairing

/-!
# Loads that keep up with each other

Two loads read the same object, each in a session of its own. `KeepsUp` says that the second comes
as far as the first: wherever a part of the first ends without being discounted, the same part of
the second ends too, or has an excuse. An object is read so if the schemas inside are.
-/

namespace SchemaAtlas

/-- A load that pursues another: the relation of their sessions, the sessions of the first that
count, and the excuses of the second for stopping. -/
structure Pursuit where
  related : Session → Session → Prop
  counts : Session → Prop
  excused : Stop → Session → Prop

/-- A pursuit that issues and boolean schemas do not disturb. -/
structure Pursuit.Lawful (C : Pursuit) : Prop where
  numbered : ∀ {s t}, C.related s t → s.Numbered
  policy : ∀ {s t}, C.related s t → t.policy = s.policy
  counts : ∀ {s s'}, s.Numbered → s.Frame s' → C.counts s' → C.counts s
  record : ∀ {s t} severity kind document path message, C.related s t →
    C.counts (s.record severity kind document path message) →
    C.related (s.record severity kind document path message)
      (t.record severity kind document path message)
  add : ∀ {s t} location draft body, C.related s t →
    C.related { s with store := (s.store.add location draft body).2 }
      { t with store := (t.store.add location draft body).2 }

namespace LoadM

variable {α β : Type} {C : Pursuit} {P : α → α → Prop} {Q : β → β → Prop} {x y : LoadM α}

/-- The second step comes as far as the first, or has an excuse. -/
structure KeepsUp (C : Pursuit) (P : α → α → Prop) (x y : LoadM α) : Prop where
  frame : ∀ {s r s'}, Runs x s r s' → s.Frame s'
  keeps : ∀ {s a s' t r t'}, C.related s t → Runs x s (.ok a) s' → C.counts s' → Runs y t r t' →
    (∃ e, r = .error e ∧ C.excused e t') ∨ ∃ b, r = .ok b ∧ C.related s' t' ∧ P a b

namespace KeepsUp

theorem pure {a b : α} (h : P a b) : KeepsUp C P (pure a) (pure b) where
  frame := by
    intro s r s' hr
    obtain ⟨-, rfl⟩ := runs_pure.mp hr
    exact .refl _
  keeps := by
    intro s _ s' t r t' hst hx _ hy
    obtain ⟨ha, rfl⟩ := runs_pure.mp hx
    obtain ⟨rfl, rfl⟩ := runs_pure.mp hy
    cases ha
    exact Or.inr ⟨b, rfl, hst, h⟩

theorem bind_of_frame (hC : C.Lawful) {f g : α → LoadM β} (h : KeepsUp C P x y)
    (hframe : ∀ {a s r s'}, Runs (f a) s r s' → s.Frame s')
    (hf : ∀ {a b}, P a b → KeepsUp C Q (f a) (g b)) : KeepsUp C Q (x >>= f) (y >>= g) where
  frame := by
    intro s r s' hr
    rcases runs_bind.mp hr with ⟨a, s₁, ha, hb⟩ | ⟨e, he, -⟩
    · exact (h.frame ha).trans (hframe hb)
    · exact h.frame he
  keeps := by
    intro s a s' t r t' hst hx hs hy
    obtain ⟨a₁, s₁, ha, hfa⟩ := runs_bind_ok.mp hx
    have hs₁ := hC.counts ((h.frame ha).numbered (hC.numbered hst)) (hframe hfa) hs
    rcases runs_bind.mp hy with ⟨b₁, t₁, hb, hgb⟩ | ⟨e, he, rfl⟩
    · rcases h.keeps hst ha hs₁ hb with ⟨e, he, -⟩ | ⟨_, hb₁, hst₁, hab⟩
      · cases he
      · cases hb₁
        exact (hf hab).keeps hst₁ hfa hs hgb
    · rcases h.keeps hst ha hs₁ he with ⟨_, he', hexcused⟩ | ⟨_, hb₁, -⟩
      · cases he'
        exact Or.inl ⟨e, rfl, hexcused⟩
      · cases hb₁

theorem bind (hC : C.Lawful) [Std.Refl P] {f g : α → LoadM β} (h : KeepsUp C P x y)
    (hf : ∀ {a b}, P a b → KeepsUp C Q (f a) (g b)) : KeepsUp C Q (x >>= f) (y >>= g) :=
  h.bind_of_frame hC (fun {a} => (hf (Std.Refl.refl a)).frame) hf

/-- A choice that both sessions make alike. -/
theorem strict (hC : C.Lawful) {f g : Bool → LoadM α} (h : ∀ strict, KeepsUp C P (f strict) (g strict)) :
    KeepsUp C P (do f (← get).policy.strict) (do g (← get).policy.strict) where
  frame := fun hr => (h _).frame (runs_get_bind.mp hr)
  keeps := by
    intro s a s' t r t' hst hx hs hy
    have hy := runs_get_bind.mp hy
    rw [hC.policy hst] at hy
    exact (h _).keeps hst (runs_get_bind.mp hx) hs hy

theorem issue (hC : C.Lawful) {severity : Severity} {kind : IssueKind} {location : Location}
    {message : String} : KeepsUp C Eq (issue severity kind location message)
      (issue severity kind location message) where
  frame := by
    intro s r s' hr
    obtain ⟨-, rfl⟩ := runs_issue.mp hr
    exact Session.frame_record ..
  keeps := by
    intro s _ s' t r t' hst hx hs hy
    obtain ⟨-, rfl⟩ := runs_issue.mp hx
    obtain ⟨rfl, rfl⟩ := runs_issue.mp hy
    exact Or.inr ⟨_, rfl, hC.record _ _ _ _ _ hst hs, rfl⟩

theorem malformed (hC : C.Lawful) {kind : IssueKind} {location : Location} {message : String} :
    KeepsUp C Eq (malformed kind location message) (malformed kind location message) :=
  strict hC (f := fun strict => LoadM.issue (if strict then .error else .warning) kind location message)
    (g := fun strict => LoadM.issue (if strict then .error else .warning) kind location message)
    fun _ => issue hC

theorem boolean (hC : C.Lawful) {location : Location} {draft : Draft} {b : Bool} :
    KeepsUp C (Same fun _ => ()) (onStore fun store => store.add location draft (.boolean b))
      (onStore fun store => store.add location draft (.boolean b)) where
  frame := by
    intro s r s' hr
    obtain ⟨-, rfl⟩ := runs_onStore.mp hr
    exact Session.frame_add ..
  keeps := by
    intro s _ s' t r t' hst hx _ hy
    obtain ⟨-, rfl⟩ := runs_onStore.mp hx
    obtain ⟨rfl, rfl⟩ := runs_onStore.mp hy
    exact Or.inr ⟨_, rfl, hC.add location draft _ hst, rfl⟩

end KeepsUp
end LoadM

namespace Digest

open LoadM

variable {C : Pursuit} {load other : Loader} {draft : Draft}
variable {asked : Location → Json → Prop}

theorem pairing_keepsUp (hC : C.Lawful) (hload : ∀ location value, asked location value →
      KeepsUp C (Option.Rel (Same fun _ => ())) (load location value) (other location value)) :
    Pairing (fun _ => ()) (fun _ P x y => KeepsUp C P x y) load other draft draft asked where
  pure := .pure
  bind := .bind hC
  issue := .issue hC
  malformed := .malformed hC
  boolean := .boolean hC
  load := hload _ _

theorem frame_of_members {active : DraftSet} {object list : List (String × Json)}
    {b : Builder} {s s' : Session} {r : Except Stop Builder}
    (hload : ∀ {location value s r s'}, Runs (load location value) s r s' → s.Frame s')
    (h : Runs (members load active object list b) s r s') : s.Frame s' := by
  have hvisits : ∀ {nodes s'}, Visits load b.draft (fun _ _ => True) s nodes s' → s.Frame s' := by
    intro nodes s' hv
    induction hv with
    | start => exact .refl _
    | issue _ _ _ _ _ _ ih => exact ih.trans (Session.frame_record ..)
    | boolean _ _ ih => exact ih.trans (Session.frame_add ..)
    | load _ _ hr ih => exact ih.trans (hload hr)
  have hg : Gathers load b.draft (fun _ _ => True) False (members load active object list b)
      b.nodes Builder.nodes (fun _ => False) :=
    members_gathers rfl (fun _ _ => trivial) False.elim
  cases r with
  | ok after =>
    obtain ⟨nodes, hv, -⟩ := hg.ok h
    exact hvisits hv
  | error e =>
    obtain ⟨nodes, s₁, location, value, hv, -, hr⟩ := hg.error h
    exact (hvisits hv).trans (hload hr)

/-- The members of an object are read as far as the schemas inside are. -/
theorem keepsUp_members (hC : C.Lawful) {active : DraftSet} {object list : List (String × Json)}
    {inner : Location}
    (hframe : ∀ {location value s r s'}, Runs (load location value) s r s' → s.Frame s')
    (hload : ∀ place ∈ nested active inner object, KeepsUp C (Option.Rel (Same fun _ => ()))
      (load place.1 place.2) (other place.1 place.2))
    (hlist : list ⊆ object) {b c : Builder}
    (hb : b.Matches (fun _ => ()) inner draft draft c) :
    KeepsUp C (Builder.Matches (fun _ => ()) inner draft draft)
      (members load active object list b) (members other active object list c) := by
  have hR : Pairing (fun _ => ()) (fun _ P x y => KeepsUp C P x y) load other draft draft
      fun location value => (location, value) ∈ nested active inner object :=
    pairing_keepsUp hC fun location value hp => hload (location, value) hp
  induction list generalizing b c with
  | nil => exact .pure hb
  | cons entry rest ih =>
    obtain ⟨key, value⟩ := entry
    obtain ⟨hm, hrest⟩ := List.cons_subset.mp hlist
    unfold members
    exact (hR.member (.strict hC) (fun _ hp => hp) hm hb).bind_of_frame hC
      (frame_of_members hframe) fun hnext => ih hrest hnext

end Digest

namespace Loading

open LoadM

variable {C : Pursuit} {context : OpenDocument} {location : Location} {value : Json} {hops : Nat}

/-- What is no schema holds no load up. -/
theorem keepsUp_of_refused (hC : C.Lawful) (hcurrent : ∀ {s t}, C.related s t →
      s.current? = some context ∧ t.current? = some context)
    (hexhausted : ∀ t, C.excused .exhausted t) (ha : context.accepts value = false)
    (steps steps' : Nat) : KeepsUp C (Option.Rel (Same fun _ => ()))
      (loadNode steps location value hops) (loadNode steps' location value hops) where
  frame := (framed_loadNode steps).frame
  keeps := by
    intro s a s' t r t' hst hx hs hy
    obtain ⟨message, hrefused⟩ := runs_loadWith_of_refused ha
    cases steps with
    | zero => cases (runs_throw.mp hx).1
    | succ steps =>
      cases steps' with
      | zero => exact Or.inl ⟨_, (runs_throw.mp hy).1, hexhausted t'⟩
      | succ steps' =>
        obtain ⟨hnone, rfl⟩ := hrefused (hcurrent hst).1 hx
        obtain ⟨rfl, rfl⟩ := hrefused (hcurrent hst).2 hy
        cases hnone
        rw [hC.policy hst]
        exact Or.inr ⟨none, rfl, hC.record _ _ _ _ _ hst hs, .none⟩

end Loading
end SchemaAtlas
