import SchemaAtlas.Proofs.Spelling.Plain

/-!
# Independence of the spelling

What a request comes to does not depend on the spelling of references as long as the look-ups
under the URIs as they are spelled do not change it: `outcome_of_respelled`. In a plain
document the spelling has no say in where references lead, only in whether the load succeeds;
`returning_refused` shows that it has one there.
-/

namespace SchemaAtlas

namespace Load

/-- Whether a value refers to a URI in canonical form, if it is a reference at all. -/
def spellsCanonically (root : Uri) (value : Json) : Bool :=
  match (value.member? "$ref").bind Json.string? with
  | some written =>
    match (root.join written).map Uri.normalized with
    | .ok uri => uri.canonical = uri
    | .error _ => true
  | none => true

/-- How a plain document writes references can be seen from it. -/
theorem IsPlain.writesCanonically {l : Load} (h : l.IsPlain)
    (hfragments : l.document.all refersToFragment = true)
    (hall : l.document.all (spellsCanonically l.documentUri) = true) : l.WritesCanonically := by
  intro p uri hp hu
  obtain ⟨path, hplaces⟩ := (h.isLocal hfragments).places hp
  obtain ⟨written, _, href, hjoin⟩ := hplaces.reference hu
  have hself := Json.all_self (Lookup.all_at? hall hplaces.value)
  simpa [spellsCanonically, href, Json.string?, hjoin] using hself

end Load

namespace Request

variable {policy : Policy} {w w' : Workspace} {request request' : Request}

/-! ## References in canonical form -/

/-- Looking references up in canonical form makes no difference to what a request comes to. -/
def Faithful (request : Request) (policy : Policy) (w : Workspace) : Prop :=
  request.outcome policy w = request.canonicalOutcome policy w

/-- The references that a request meets are written in canonical form. -/
def WritesCanonically (request : Request) (policy : Policy) (w : Workspace) : Prop :=
  ∀ l, request.load? policy w = some l → l.WritesCanonically

theorem WritesCanonically.faithful (h : request.WritesCanonically policy w) :
    request.Faithful policy w := by
  unfold Faithful canonicalOutcome
  cases hl : request.load? policy w with
  | none => rfl
  | some l =>
    dsimp only
    rw [Load.outcomeBy, (h l hl).runBy_eq, outcome, run_of_load? hl]

/-- Whether a request loads a document in which references are written in canonical form. -/
def loadsCanonical (request : Request) (policy : Policy) (w : Workspace) : Bool :=
  match request.load? policy w with
  | some l => l.document.all (Load.spellsCanonically l.documentUri)
  | none => true

theorem writesCanonically_of_loads (hplain : request.loadsPlain policy w = true)
    (h : request.loadsCanonical policy w = true) : request.WritesCanonically policy w := by
  obtain ⟨l, hl, hplain, hfragments⟩ := isPlain_of_loadsPlain hplain
  intro m hm
  cases hl.symm.trans hm
  unfold loadsCanonical at h
  rw [hl] at h
  exact hplain.writesCanonically hfragments h

/-! ## Plain documents -/

theorem Respells.loadsPlain_eq (hw : w.Respells w') (h : request.Respells request') :
    request.loadsPlain policy w = request'.loadsPlain policy w' := by
  have hload := h.load? policy hw
  unfold loadsPlain
  revert hload
  generalize request.load? policy w = found
  generalize request'.load? policy w' = found'
  rintro (hlm | _)
  · rename_i l m
    have hanonymous : Lookup.Anonymous l.context.active.idKeys l.document ↔
        Lookup.Anonymous m.context.active.idKeys m.document := by
      unfold Lookup.Anonymous
      rw [hlm.context.active,
        hlm.document.all (Json.blind_declares (DraftSet.ref_notMem_idKeys _))]
    dsimp only
    rw [hlm.document.all Json.blind_isStored, hlm.document.all Json.blind_refersToFragment,
      decide_eq_decide.mpr hanonymous]
  · rfl

/-- With plain documents, requests come to the same if both or none of them succeed. -/
theorem Respells.outcome_of_plain (hw : w.Respells w') (h : request.Respells request')
    (hplain : request.loadsPlain policy w = true) (hcache : w.cache = .empty)
    (hsome : (request'.outcome policy w').isSome = (request.outcome policy w).isSome) :
    request'.outcome policy w' = request.outcome policy w := by
  have hplain' := hplain
  rw [h.loadsPlain_eq hw] at hplain'
  obtain ⟨l, hl, hlplain, hlfragments⟩ := isPlain_of_loadsPlain hplain
  obtain ⟨m, hm, hmplain, hmfragments⟩ := isPlain_of_loadsPlain hplain'
  have hlm : l.Respells m := by
    have hload := h.load? policy hw
    rw [hl, hm] at hload
    cases hload with
    | some hlm => exact hlm
  have hlcache : l.workspace.cache = .empty := (load?_workspace hl).2.1.trans hcache
  simp only [outcome, run_of_load? hl, run_of_load? hm, SchemaAtlas.outcome] at hsome ⊢
  cases hlrun : l.run.1 with
  | error =>
    cases hmrun : m.run.1 with
    | error => rfl
    | ok =>
      rw [hlrun, hmrun] at hsome
      cases hsome
  | ok =>
    cases hmrun : m.run.1 with
    | error =>
      rw [hlrun, hmrun] at hsome
      cases hsome
    | ok =>
      exact congrArg some (hlm.outline_eq (hlplain.isLocal hlfragments)
        (hmplain.isLocal hmfragments) hlcache hlrun hmrun).symm

end Request

variable {w w' : Workspace} {request request' : Request}

/-- What requests that respell each other come to. With references looked up in canonical
form, it is the same; so they come to the same exactly if that makes no difference, which is
so where references are written in canonical form. With a plain document in a fresh workspace,
they come to the same exactly if both or none of them succeed. -/
theorem outcome_of_respelled (policy : Policy) (hw : w.Respells w')
    (h : request.Respells request') :
    request.canonicalOutcome policy w = request'.canonicalOutcome policy w' ∧
      (request.WritesCanonically policy w → request.Faithful policy w) ∧
      (request.Faithful policy w →
        (request'.outcome policy w' = request.outcome policy w ↔ request'.Faithful policy w')) ∧
      (request.loadsPlain policy w = true → w.cache = .empty →
        (request'.outcome policy w' = request.outcome policy w ↔
          (request'.outcome policy w').isSome = (request.outcome policy w).isSome)) := by
  have heq := h.canonicalOutcome_eq policy hw
  refine ⟨heq, Request.WritesCanonically.faithful, fun hfaithful => ?_, fun hplain hcache => ?_⟩
  · unfold Request.Faithful at hfaithful ⊢
    rw [hfaithful, heq]
  · exact ⟨congrArg Option.isSome, h.outcome_of_plain hw hplain hcache⟩

theorem Respelled.caret : Respelled "#/definitions/a%5Eb" "#/definitions/a^b" := by
  have hencoded : Uri.Spells ⟨["definitions", "a^b"]⟩ "/definitions/a%5Eb".toList :=
    Uri.spells_of_check (by decide) (by decide) rfl (by decide +kernel)
  have hraw : Uri.Spells ⟨["definitions", "a^b"]⟩ "/definitions/a^b".toList :=
    Uri.spells_of_check (by decide) (by decide) rfl (by decide +kernel)
  exact @Respelled.path [] _ _ _ (by decide) hencoded hraw

theorem Workspace.respells_empty : Workspace.empty.Respells Workspace.empty :=
  ⟨⟨.nil, .nil⟩, rfl, rfl⟩

/-- A schema with a property that refers to a definition. -/
def Request.pointing (written : String) : Request :=
  .named ⟨"http", some "e.com", .segments ["r.json"], none, none⟩
    (.object [
      ("definitions", .object [("a^b", .object [("type", .string "string")])]),
      ("properties", .object [("x", .object [("$ref", .string written)])])])

theorem outcome_of_pointing :
    (Request.pointing "#/definitions/a^b").outcome .standard .empty =
        (Request.pointing "#/definitions/a%5Eb").outcome .standard .empty ∧
      (Request.pointing "#/definitions/a%5Eb").Faithful .standard .empty ∧
      (Request.pointing "#/definitions/a^b").Faithful .standard .empty := by
  have hrespells : (Request.pointing "#/definitions/a%5Eb").Respells
      (Request.pointing "#/definitions/a^b") :=
    .named _ (.object (.cons _ (.refl _) (.cons _ (.object (.cons _
      (.object (.reference .caret .nil)) .nil)) .nil)))
  obtain ⟨_, hwrites, hfaithful, hplain⟩ :=
    outcome_of_respelled .standard Workspace.respells_empty hrespells
  have hloads : (Request.pointing "#/definitions/a%5Eb").loadsPlain .standard .empty = true := by
    decide +kernel
  have hcanonical := hwrites (Request.writesCanonically_of_loads hloads (by decide +kernel))
  have hsame := (hplain hloads rfl).mpr (by decide +kernel)
  exact ⟨hsame, hcanonical, (hfaithful hcanonical).mp hsame⟩

/-- A schema whose definition refers back to itself. -/
def Request.returning (written : String) : Request :=
  .named ⟨"http", some "e.com", .segments ["r.json"], none, none⟩
    (.object [("definitions", .object [
      ("a^b", .object [("properties", .object [
        ("x", .object [("$ref", .string written)])])])])])

/-- One spelling of it is loaded, the other is refused. -/
theorem returning_refused :
    (Request.returning "#/definitions/a%5Eb").Respells (Request.returning "#/definitions/a^b") ∧
      ((Request.returning "#/definitions/a%5Eb").outcome .standard .empty).isSome = true ∧
      (Request.returning "#/definitions/a^b").outcome .standard .empty = none := by
  have hrespells : (Request.returning "#/definitions/a%5Eb").Respells
      (Request.returning "#/definitions/a^b") :=
    .named _ (.object (.cons _ (.object (.cons _ (.object (.cons _ (.object (.cons _
      (.object (.reference .caret .nil)) .nil)) .nil)) .nil)) .nil))
  exact ⟨hrespells, by decide +kernel, by decide +kernel⟩

end SchemaAtlas
