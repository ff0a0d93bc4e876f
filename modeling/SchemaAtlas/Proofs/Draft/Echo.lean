import SchemaAtlas.Proofs.Loading.Pairing
import SchemaAtlas.Proofs.Loading.Twins
import SchemaAtlas.Proofs.Render.Silent
import SchemaAtlas.Proofs.Schema.Content

/-!
# Readings that echo a silent one

A strict load in one draft that reports nothing has found a reader of this draft for every member
of every object. In all drafts the same members have the same readers, so a load in all drafts
echoes it: it records nothing either, and comes to schemas with the same content.
-/

namespace SchemaAtlas

/-! ## Readers -/

namespace Catalog

/-- The entries that read a value of some shape under a key. -/
def readers (active : DraftSet) (key : String) (shape : Shape) : List CatalogEntry :=
  (applicable key active).filter (·.expects.accepts shape)

theorem readers_eq (active : DraftSet) (key : String) (shape : Shape) :
    readers active key shape =
      ((candidates key).filter (·.expects.accepts shape)).filter (·.drafts.intersects active) := by
  rw [readers, applicable, List.filter_comm]

/-- No two entries of a key accept the same shape. -/
theorem length_accepting_le : ∀ key ∈ entries.map (·.key), ∀ shape ∈ Shape.all,
    ((candidates key).filter (·.expects.accepts shape)).length ≤ 1 := by
  decide +kernel

theorem candidates_eq_nil {key : String} (h : key ∉ entries.map (·.key)) : candidates key = [] := by
  have hnone : entries.filter (·.key = key) = [] :=
    List.filter_eq_nil_iff.mpr fun entry he hkey =>
      h (List.mem_map.mpr ⟨entry, he, of_decide_eq_true hkey⟩)
  rw [candidates, hnone]
  rfl

theorem intersects_all {s t : DraftSet} (h : s.intersects t = true) : s.intersects .all = true := by
  obtain ⟨d, hd, -⟩ := List.any_eq_true.mp h
  exact List.any_eq_true.mpr ⟨d, hd, DraftSet.contains_filter _ d⟩

/-- What some drafts have a reader for, all drafts read in the same way. -/
theorem readers_all {active : DraftSet} {key : String} {shape : Shape}
    (h : readers active key shape ≠ []) : readers .all key shape = readers active key shape := by
  have hlength : ((candidates key).filter (·.expects.accepts shape)).length ≤ 1 := by
    by_cases hkey : key ∈ entries.map (·.key)
    · exact length_accepting_le key hkey shape (by cases shape <;> decide)
    · rw [candidates_eq_nil hkey]
      exact Nat.zero_le 1
  rw [readers_eq] at h ⊢
  rw [readers_eq]
  revert h hlength
  generalize (candidates key).filter (·.expects.accepts shape) = accepting
  intro h hlength
  obtain ⟨entry, he⟩ := List.exists_mem_of_ne_nil _ h
  obtain ⟨hmem, hactive⟩ := List.mem_filter.mp he
  obtain ⟨only, rfl⟩ := List.length_eq_one_iff.mp
    (Nat.le_antisymm hlength (List.length_pos_of_mem hmem))
  cases List.mem_singleton.mp hmem
  rw [List.filter_singleton, List.filter_singleton, hactive, intersects_all hactive]

end Catalog

/-- Every member of an object has a reader. -/
def Digest.Fits (active : DraftSet) (object : List (String × Json)) : Prop :=
  ∀ key value, (key, value) ∈ object → Catalog.readers active key (Shape.of value) ≠ []

namespace Digest.Fits

variable {draft : Draft} {object : List (String × Json)}

theorem ne_nil_of_get? {active : DraftSet} {key : String} {value : Json}
    (h : Fits active object) (hget : Entries.get? key object = some value) :
    Catalog.readers active key (Shape.of value) ≠ [] :=
  h key value (Entries.mem_of_get? hget)

/-- The drafts with another key for identifiers do not know that of a draft. -/
theorem readers_idKey : ∀ d ∈ Draft.all, ∀ e ∈ Draft.all, d.idKey ≠ e.idKey →
    Catalog.readers (.only d) e.idKey .string = [] := by
  decide +kernel

/-- The identifier of an object is the one that the draft sees. -/
theorem declaredId?_eq (h : Fits (.only draft) object) :
    Lookup.declaredId? DraftSet.all.idKeys (.object object) =
      Lookup.declaredId? (DraftSet.only draft).idKeys (.object object) := by
  have hother : ∀ e : Draft, draft.idKey ≠ e.idKey →
      (Entries.get? e.idKey object).bind Json.string? = none := by
    intro e hne
    cases hget : Entries.get? e.idKey object with
    | none => rfl
    | some value =>
      cases hv : value.string? with
      | none => exact hv
      | some text =>
        cases Json.eq_string hv
        exact absurd (readers_idKey draft (by cases draft <;> decide) e (by cases e <;> decide) hne)
          (h.ne_nil_of_get? hget)
  have hall : DraftSet.all.idKeys = [Draft.draft7.idKey, Draft.draft3.idKey] := by decide
  have hown : (DraftSet.only draft).idKeys = [draft.idKey] := by cases draft <;> rfl
  unfold Lookup.declaredId?
  dsimp only
  rw [hall, hown]
  split
  · rfl
  · have hkey : draft.idKey = Draft.draft3.idKey ∧ draft.idKey ≠ Draft.draft7.idKey ∨
        draft.idKey = Draft.draft7.idKey ∧ draft.idKey ≠ Draft.draft3.idKey := by
      cases draft <;> decide
    rcases hkey with ⟨hold, hne⟩ | ⟨hnew, hne⟩
    · rw [hold, List.findSome?_cons, hother _ hne]
    · rw [hnew, List.findSome?_cons, List.findSome?_cons, List.findSome?_cons, hother _ hne]

/-- The drafts without flags beside bounds have no reader for one. -/
theorem readers_exclusiveKey : ∀ d ∈ Draft.all,
    (DraftSet.only d).intersects (.range .draft3 .draft5) = false → ∀ kind ∈ KeywordKind.all,
      Catalog.readers (.only d) (exclusiveKey kind) .boolean = [] := by
  decide +kernel

/-- Flags stand beside bounds in the drafts that look for them only. -/
theorem limitWith_eq {site : Site} (h : Fits (.only draft) site.object) (limit : Limit)
    (n : Number) : limitWith (.only draft) site limit n = limitWith .all site limit n := by
  have hall : DraftSet.all.intersects (.range .draft3 .draft5) = true := by decide
  unfold limitWith
  cases hflags : (DraftSet.only draft).intersects (.range .draft3 .draft5) with
  | true => rw [hall]
  | false =>
    have hnone : (Entries.get? (exclusiveKey site.entry.kind) site.object).bind Json.bool? ≠
        some true := by
      intro hflag
      obtain ⟨value, hvalue, hbool⟩ := Option.bind_eq_some_iff.mp hflag
      cases value with
      | bool b =>
        exact h.ne_nil_of_get? hvalue (readers_exclusiveKey draft (by cases draft <;> decide)
          hflags site.entry.kind (by cases site.entry.kind <;> decide))
      | null | number | string | array | object => cases hbool
    simp [hnone]

end Digest.Fits

/-! ## Echoes -/

namespace LoadM

variable {α β : Type} {I : Session → Session → Prop} {P : α → α → Prop} {Q : β → β → Prop}
variable {x y : LoadM α}

/-- A step that takes back no issue, and another one that comes to the same from every session
that is related to the one of the first, if the first records none. -/
structure Echoes (I : Session → Session → Prop) (P : α → α → Prop) (x y : LoadM α) : Prop where
  grown : ∀ {s r s'}, Runs x s r s' → s.report.issues <+: s'.report.issues
  echo : ∀ {s a s' t r t'}, I s t → Runs x s (.ok a) s' → s'.report = s.report → Runs y t r t' →
    ∃ b, r = .ok b ∧ I s' t' ∧ P a b

namespace Echoes

theorem pure {a b : α} (h : P a b) : Echoes I P (pure a) (pure b) where
  grown := by
    intro s r s' hr
    obtain ⟨-, rfl⟩ := runs_pure.mp hr
    exact List.prefix_refl _
  echo := by
    intro s _ s' t r t' hi hx _ hy
    obtain ⟨ha, rfl⟩ := runs_pure.mp hx
    obtain ⟨rfl, rfl⟩ := runs_pure.mp hy
    cases ha
    exact ⟨b, rfl, hi, h⟩

/-- In a sequence the growth of what follows is needed for whatever the first step gives. -/
theorem bind_of_grown {f g : α → LoadM β} (h : Echoes I P x y)
    (hgrown : ∀ {a s r s'}, Runs (f a) s r s' → s.report.issues <+: s'.report.issues)
    (hf : ∀ {a b}, P a b → Echoes I Q (f a) (g b)) : Echoes I Q (x >>= f) (y >>= g) where
  grown := by
    intro s r s' hr
    rcases runs_bind.mp hr with ⟨a, s₁, ha, hb⟩ | ⟨e, he, -⟩
    · exact (h.grown ha).trans (hgrown hb)
    · exact h.grown he
  echo := by
    intro s a s' t r t' hi hx hs hy
    obtain ⟨a₁, s₁, ha, hfa⟩ := runs_bind_ok.mp hx
    have hback : s₁.report = s.report := Report.eq_of_prefix (h.grown ha) (hgrown hfa) hs
    rcases runs_bind.mp hy with ⟨b₁, t₁, hb, hgb⟩ | ⟨e, he, -⟩
    · obtain ⟨_, hb₁, hi₁, hab⟩ := h.echo hi ha hback hb
      cases hb₁
      exact (hf hab).echo hi₁ hfa (hs.trans hback.symm) hgb
    · obtain ⟨_, hb₁, -⟩ := h.echo hi ha hback he
      cases hb₁

theorem bind [Std.Refl P] {f g : α → LoadM β} (h : Echoes I P x y)
    (hf : ∀ {a b}, P a b → Echoes I Q (f a) (g b)) : Echoes I Q (x >>= f) (y >>= g) :=
  h.bind_of_grown (fun {a} => (hf (Std.Refl.refl a)).grown) hf

/-- Nothing is asked of what follows an issue. -/
theorem of_records (h : ∀ {s r s'}, Runs x s r s' → ∃ severity kind document path message,
    s' = s.record severity kind document path message) : Echoes I P x y where
  grown := by
    intro s r s' hr
    obtain ⟨_, _, _, _, _, rfl⟩ := h hr
    exact List.prefix_append _ _
  echo := by
    intro s a s' t r t' _ hx hs _
    obtain ⟨_, _, _, _, _, rfl⟩ := h hx
    exact absurd hs (Session.record_report_ne _ _ _ _ _ _)

theorem malformed_bind {kind : IssueKind} {location : Location} {message : String}
    {f : Unit → LoadM α}
    (hgrown : ∀ {s r s'}, Runs (f ()) s r s' → s.report.issues <+: s'.report.issues) :
    Echoes I P (malformed kind location message >>= f) y where
  grown := by
    intro s r s' hr
    rcases runs_bind.mp hr with ⟨_, s₁, hm, hf⟩ | ⟨e, hm, -⟩
    · obtain ⟨-, rfl⟩ := runs_malformed.mp hm
      exact (List.prefix_append _ _).trans (hgrown hf)
    · cases (runs_malformed.mp hm).1
  echo := by
    intro s a s' t r t' _ hx hs _
    obtain ⟨_, s₁, hm, hf⟩ := runs_bind_ok.mp hx
    obtain ⟨-, rfl⟩ := runs_malformed.mp hm
    have hback := Report.eq_of_prefix (List.prefix_append _ _) (hgrown hf) hs
    exact absurd hback (Session.record_report_ne _ _ _ _ _ _)

end Echoes
end LoadM

namespace Digest

open LoadM

variable {I : Session → Session → Prop} {load other : Loader} {draft draft' : Draft}
variable {asked : Location → Json → Prop}

theorem pairing_echoes (hload : ∀ location value, asked location value →
      Echoes I (Option.Rel (Same Schema.content)) (load location value) (other location value))
    (hadd : ∀ s t, I s t → ∀ location body, I
      { s with store := (s.store.add location draft body).2 }
      { t with store := (t.store.add location draft' body).2 }) :
    Pairing Schema.content (fun _ P x y => Echoes I P x y) load other draft draft' asked where
  pure := .pure
  bind := .bind
  issue := .of_records fun hr => ⟨_, _, _, _, _, (runs_issue.mp hr).2⟩
  malformed := .of_records fun hr => ⟨_, _, _, _, _, (runs_malformed.mp hr).2⟩
  boolean := by
    intro location b
    refine ⟨fun hr => ?_, fun {s a s' t r t'} hi hx _ hy => ?_⟩
    · obtain ⟨-, rfl⟩ := runs_onStore.mp hr
      exact List.prefix_refl _
    · obtain ⟨ha, rfl⟩ := runs_onStore.mp hx
      obtain ⟨rfl, rfl⟩ := runs_onStore.mp hy
      cases ha
      refine ⟨_, rfl, hadd s t hi location _, ?_⟩
      rw [Same, Schema.content_node, Schema.content_node]
      rfl
  load := hload _ _

section

variable (hR : Pairing Schema.content (fun _ P x y => Echoes I P x y) load other draft draft' asked)

include hR

/-- Names of types that some draft but the third reads, all drafts read. -/
theorem echoes_typeEntries {thirdDraft : Bool} {entries : List (Location × Json)} :
    Echoes I (TypesMatch Schema.content) (typeEntries load false entries)
      (typeEntries other thirdDraft entries) := by
  induction entries with
  | nil => exact .pure ⟨rfl, rfl⟩
  | cons place rest ih =>
    obtain ⟨location, value⟩ := place
    unfold typeEntries
    cases hnamed : (value.string?.bind Shape.ofName?).filter fun t => t ≠ .any || false with
    | none =>
      simp only [Bool.false_and, Bool.false_eq_true, if_false]
      exact .malformed_bind ih.grown
    | some shape =>
      obtain ⟨hshape, hany⟩ := Option.filter_eq_some_iff.mp hnamed
      obtain ⟨text, htext, -⟩ := Option.bind_eq_some_iff.mp hshape
      cases Json.eq_string htext
      have hwide : ((Json.string text).string?.bind Shape.ofName?).filter
          (fun t => t ≠ .any || thirdDraft) = some shape :=
        Option.filter_eq_some_iff.mpr ⟨hshape, by rw [Bool.or_false] at hany; rw [hany, Bool.true_or]⟩
      have hobject : (thirdDraft && (Shape.of (.string text) = .object)) = false :=
        Bool.and_false _
      simp only [Bool.false_and, Bool.false_eq_true, if_false, hwide, hobject]
      exact hR.map ih fun hfound => ⟨congrArg (shape :: ·) hfound.1, hfound.2⟩

theorem echoes_types {d : Draft} {site : Site}
    (ha : ∀ place ∈ nestedIn (.only d) .types site.location site.value, asked place.1 place.2) :
    Echoes I (Option.Rel (Same (Keyword.map Schema.content))) (types load (.only d) site)
      (types other .all site) := by
  apply hR.types
  by_cases hd : d = .draft3
  · subst hd
    exact hR.typeEntries fun place hp hthird hshape => ha place (mem_nestedIn_types hthird hp hshape)
  · have hthird : (DraftSet.only d).contains .draft3 = false :=
      (DraftSet.contains_filter _ _).trans (decide_eq_false fun h => hd h.symm)
    rw [hthird]
    exact echoes_typeEntries hR

omit hR in
/-- A member with a reader is tried on its readers. -/
theorem member_eq {active : DraftSet} {object : List (String × Json)} {key : String}
    {value : Json} {b : Builder} (h : Catalog.readers active key (Shape.of value) ≠ []) :
    member load active object key value b = tryCandidates load active object
      (b.location.child key) value b (Catalog.readers active key (Shape.of value)) := by
  have hsome : (Catalog.applicable key active).isEmpty = false := by
    rw [List.isEmpty_eq_false_iff]
    intro hnone
    rw [Catalog.readers, hnone] at h
    exact h rfl
  have hreaders : ((Catalog.applicable key active).filter
      (·.expects.accepts (Shape.of value))).isEmpty = false := List.isEmpty_eq_false_iff.mpr h
  unfold member
  simp only [hsome, hreaders, Bool.false_eq_true, if_false]
  rfl

theorem echoes_member {d : Draft} {object : List (String × Json)} {inner : Location}
    (hfits : Fits (.only d) object)
    (ha : ∀ place ∈ nested (.only d) inner object, asked place.1 place.2) {key : String}
    {value : Json} (hm : (key, value) ∈ object) {b c : Builder}
    (hb : b.Matches Schema.content inner draft draft' c) :
    Echoes I (Builder.Matches Schema.content inner draft draft')
      (member load (.only d) object key value b) (member other .all object key value c) := by
  have hread := hfits key value hm
  have hall := Catalog.readers_all hread
  rw [member_eq hread, member_eq (hall.symm ▸ hread), hall, hb.location.1, hb.location.2]
  refine hR.tryCandidates hb fun entry he => ?_
  have hplaces : ∀ place ∈ nestedIn (.only d) entry.reading (inner.child key) value,
      asked place.1 place.2 := fun place hp => ha place (mem_nested hm he hp)
  refine hR.keyword hb (fun hr => ?_) (fun limit n => hfits.limitWith_eq limit n) hplaces
  exact echoes_types hR (hr ▸ hplaces)

/-- The members of an object with readers for all of them. -/
theorem echoes_members {d : Draft} {object list : List (String × Json)} {inner : Location}
    (hgrown : ∀ {location value s r s'}, Runs (load location value) s r s' → s.Grown s')
    (hfits : Fits (.only d) object)
    (ha : ∀ place ∈ nested (.only d) inner object, asked place.1 place.2) (hlist : list ⊆ object)
    {b c : Builder} (hb : b.Matches Schema.content inner draft draft' c) :
    Echoes I (Builder.Matches Schema.content inner draft draft')
      (members load (.only d) object list b) (members other .all object list c) := by
  induction list generalizing b c with
  | nil => exact .pure hb
  | cons entry rest ih =>
    obtain ⟨key, value⟩ := entry
    obtain ⟨hm, hrest⟩ := List.cons_subset.mp hlist
    unfold members
    exact (echoes_member hR hfits ha hm hb).bind_of_grown
      (fun hr => (grown_of_members hgrown hr).report) fun hnext => ih hrest hnext

end

/-! ## What a silent strict reading says of an object -/

/-- A strict reading of a member without a reader records an issue. -/
theorem readers_of_member {active : DraftSet} {object : List (String × Json)} {key : String}
    {value : Json} {b c : Builder} {s s' : Session} (hstrict : s.policy.strict = true)
    (hr : Runs (member load active object key value b) s (.ok c) s') (hs : s'.report = s.report) :
    Catalog.readers active key (Shape.of value) ≠ [] := by
  unfold member at hr
  dsimp only at hr
  split at hr
  · have hr := runs_get_bind.mp hr
    rw [if_pos hstrict] at hr
    obtain ⟨_, _, hi, hp⟩ := runs_bind_ok.mp hr
    obtain ⟨-, rfl⟩ := runs_issue.mp hi
    obtain ⟨-, rfl⟩ := runs_pure.mp hp
    exact absurd hs (Session.record_report_ne _ _ _ _ _ _)
  · rename_i hsome
    split at hr
    · obtain ⟨_, s₁, hi, hp⟩ := runs_bind_ok.mp hr
      obtain ⟨-, rfl⟩ := runs_pure.mp hp
      have hnil := ((Silent.forM_malformed (I := fun _ => True) _).ok trivial hi hs).2
      rw [hnil] at hsome
      exact absurd rfl hsome
    · rename_i hreaders
      exact fun hnil => hreaders (List.isEmpty_iff.mpr hnil)

theorem fits_of_members {active : DraftSet} {object list : List (String × Json)}
    (hgrown : ∀ {location value s r s'}, Runs (load location value) s r s' → s.Grown s')
    {b c : Builder} {s s' : Session} (hstrict : s.policy.strict = true)
    (hr : Runs (members load active object list b) s (.ok c) s') (hs : s'.report = s.report) :
    Fits active list := by
  induction list generalizing b s with
  | nil => exact fun _ _ hm => absurd hm List.not_mem_nil
  | cons entry rest ih =>
    obtain ⟨key, value⟩ := entry
    obtain ⟨b₁, s₁, hmember, hrest⟩ := runs_bind_ok.mp hr
    have hfirst : s.Grown s₁ := by
      have hone : Runs (members load active object [(key, value)] b) s (.ok b₁) s₁ :=
        runs_bind_ok.mpr ⟨b₁, s₁, hmember, runs_pure.mpr ⟨rfl, rfl⟩⟩
      exact grown_of_members hgrown hone
    have hback := Report.eq_of_prefix hfirst.report (grown_of_members hgrown hrest).report hs
    intro key' value' hm
    rcases List.mem_cons.mp hm with heq | hm
    · cases heq
      exact readers_of_member hstrict hmember hback
    · exact ih ((congrArg Policy.strict hfirst.policy).trans hstrict) hrest (hs.trans hback.symm)
        key' value' hm

end Digest
end SchemaAtlas
