import SchemaAtlas.Proofs.Spelling.Keywords

/-!
# Reading nodes in every spelling

References are looked up under the URI that they spell, while nodes are known under URIs in
canonical form. `loadCanonical` looks references up in canonical form too. The nodes that it
reads are the same in every spelling of the references, as `alike_loadCanonical` says.
-/

namespace SchemaAtlas
namespace Loading

open LoadM Json

/-! ## The canonical loader -/

/-- Reads a reference like `loadReference`, but looks its URI up in canonical form. -/
def loadCanonicalReference (load : NodeLoader) (draft : Draft) (location : Location)
    (written : String) (hops : Nat) : LoadM Schema :=
  match location.resolve written with
  | .error fault =>
    fatal .malformedReference (location.child "$ref")
      s!"'{written}' is not a valid URI reference: {fault.message}"
  | .ok uri => do
    let reference ← resolve load location written uri.canonical hops
    onStore fun store => store.add location draft (.reference reference)

/-- The text of a reference. -/
def written? (value : Json) : Option String := (value.member? "$ref").bind Json.string?

/-- Reads a node like `loadWith`, but looks references up in canonical form. -/
def loadCanonicalWith (load : NodeLoader) (location : Location) (value : Json) (hops : Nat) :
    LoadM (Option Schema) :=
  match written? value with
  | none => loadWith load location value hops
  | some written => do
    let s ← get
    match s.current?, Entries.get? location.pointerUri s.built with
    | none, _ => return none
    | some _, some schema => return some schema
    | some context, none =>
      return some (← loadCanonicalReference load context.draft location written hops)

/-- Reads a node like `loadNode`, but looks references up in canonical form. -/
def loadCanonical (steps : Nat) (location : Location) (value : Json) (hops : Nat) :
    LoadM (Option Schema) :=
  match steps with
  | 0 => throw .exhausted
  | steps + 1 => loadCanonicalWith (loadCanonical steps) location value hops

/-! ## Objects -/

theorem rel_or {α : Type} {R : α → α → Prop} {a b c d : Option α} (h : Option.Rel R a b)
    (h' : Option.Rel R c d) : Option.Rel R (a.or c) (b.or d) := by
  cases h with
  | some hab => exact .some hab
  | none => exact h'

theorem alike_identify {location : Location} {id : String} :
    Alike .spelling Eq (identify location id) (identify location id) := by
  unfold identify
  cases location.withId id with
  | ok inner =>
    refine .get_bind fun hs => ?_
    rw [hs.knows]
    split
    · exact Alike.issue.bind fun _ => .pure rfl
    · exact .pure rfl
  | error fault => exact Alike.malformed.bind fun _ => .pure rfl

theorem alike_keywordsRun {α : Type} {C : Comparison α} {load other : NodeLoader}
    {context context' : OpenDocument} {location : Location} {ms ns : List (String × Json)}
    (hload : Digest.LoadsAlike C (fun location value => load location value 0)
      (fun location value => other location value 0))
    (hcontext : context.Respells context') (h : RespellsMembers ms ns)
    (href : Entries.get? "$ref" ms = none) :
    Alike C C.builder (keywordsRun load context location ms)
      (keywordsRun other context' location ns) := by
  have hnew : C.builder (.new location context'.draft) (.new location context'.draft) :=
    ⟨rfl, rfl, .nil, ⟨rfl, rfl⟩, ⟨rfl, rfl⟩⟩
  unfold keywordsRun
  rw [hcontext.active, hcontext.draft]
  exact Digest.alike_members hload h h href hnew

/-- Loaders of nodes that read alike what resembles each other. -/
def NodesAlike (load other : NodeLoader) : Prop :=
  ∀ hops, Digest.LoadsAlike .spelling (fun location value => load location value hops)
    (fun location value => other location value hops)

section

variable {load other : NodeLoader} (hload : NodesAlike load other)
variable {context context' : OpenDocument} {location : Location} {uri : Uri} {hops : Nat}
variable {v w : Json} {ms ns : List (String × Json)}

include hload

theorem alike_loadObject (hcontext : context.Respells context') (h : RespellsMembers ms ns)
    (href : Entries.get? "$ref" ms = none) :
    Alike .spelling (Same Schema.skeleton) (loadObject load context location ms)
      (loadObject other context' location ns) := by
  have hid : Lookup.declaredId? context'.active.idKeys (.object ms) =
      Lookup.declaredId? context'.active.idKeys (.object ns) :=
    Lookup.declaredId?_eq (DraftSet.ref_notMem_idKeys _) (.respells (.object h))
  rw [loadObject_eq, loadObject_eq, hcontext.active, hcontext.draft]
  refine Alike.bind (R := Eq) ?_ ?_
  · unfold identifyObject
    rw [hid]
    cases Lookup.declaredId? context'.active.idKeys (.object ns) with
    | some id => exact alike_identify
    | none => exact .pure rfl
  · rintro ⟨inner, declared⟩ _ rfl
    refine Alike.bind (R := Eq) (.onSkeleton fun hs => ?_) ?_
    · exact ⟨Store.size_of_skeleton hs, Store.reserve_of_skeleton hs⟩
    · rintro id _ rfl
      refine ((alike_keywordsRun (hload 0) hcontext h href).between (fun hs => hs.register ..)
        (fun hs => hs.release ..)).bind fun {b c} hbc => ?_
      have hnode : (Schema.node id inner context'.draft b.body).skeleton =
          (Schema.node id inner context'.draft c.body).skeleton := by
        rw [Schema.skeleton_node, Schema.skeleton_node]
        exact congrArg (Schema.node id inner context'.draft) hbc.body
      refine Alike.bind (R := Eq) (.onSkeleton fun hs => ?_) fun _ => ?_
      · exact ⟨rfl, Store.complete_of_skeleton hs hnode⟩
      · exact (Alike.modify (C := .spelling) fun hs => hs.finish hnode _).bind fun _ => .pure hnode

/-! ## References -/

theorem alike_buildTarget (hcontext : context.Respells context') :
    Alike .spelling (Option.Rel (Same Schema.skeleton)) (buildTarget load context uri hops)
      (buildTarget other context' uri hops) := by
  have hlocate := hcontext.locate_rel uri
  unfold OpenDocument.locate at hlocate
  unfold buildTarget
  dsimp only
  revert hlocate
  generalize Lookup.locate context.active.idKeys _ context.document uri = found
  generalize Lookup.locate context'.active.idKeys _ context'.document uri = found'
  rintro (⟨hlocation, hvalue⟩ | _)
  · dsimp only
    rw [hlocation]
    exact (hload _ _ hvalue).between (fun hs => hs.push hcontext) fun hs => hs.pop
  · exact .pure .none

theorem alike_buildInFirst {documents documents' : List OpenDocument}
    (h : List.Forall₂ OpenDocument.Respells documents documents') :
    Alike .spelling (Option.Rel (Same Schema.skeleton)) (buildInFirst load uri hops documents)
      (buildInFirst other uri hops documents') := by
  induction h with
  | nil => exact .pure .none
  | cons hdocument _ ih =>
    unfold buildInFirst
    refine (alike_buildTarget hload hdocument).bind ?_
    rintro _ _ (hab | _)
    · exact .pure (.some hab)
    · exact ih

omit hload in
theorem alike_obtain : Alike .spelling Json.Respells (obtain location uri) (obtain location uri) := by
  refine .get_bind fun {s t} hs => ?_
  have hknown : Option.Rel Json.Respells
      (((Entries.get? uri s.opened).map OpenDocument.document).or (s.documents.loaded? uri))
      (((Entries.get? uri t.opened).map OpenDocument.document).or (t.documents.loaded? uri)) := by
    refine rel_or ?_ (hs.documents.loaded? uri)
    have hopened := hs.opened.get? uri
    revert hopened
    generalize Entries.get? uri s.opened = opened
    generalize Entries.get? uri t.opened = opened'
    rintro (hopened | _)
    · exact .some hopened.document
    · exact .none
  revert hknown
  generalize ((Entries.get? uri s.opened).map OpenDocument.document).or _ = known
  generalize ((Entries.get? uri t.opened).map OpenDocument.document).or _ = known'
  rintro (hdocument | _)
  · exact .pure hdocument
  · have hfetched := hs.documents.fetch? uri
    dsimp only
    revert hfetched
    generalize s.documents.fetch? uri = fetched
    generalize t.documents.fetch? uri = fetched'
    rintro (⟨hdocument, hdocuments⟩ | _)
    · exact .set_bind (hs.withDocuments hdocuments) (.pure hdocument)
    · exact .fatal

theorem alike_chase : Alike .spelling (Same Schema.skeleton) (chase load location uri hops)
    (chase other location uri hops) := by
  refine .get_bind fun {s t} hs => ?_
  have hany : s.nearby.any (·.uri = uri.withoutFragment) =
      t.nearby.any (·.uri = uri.withoutFragment) := by
    have hnearby := hs.nearby
    generalize s.nearby = documents at hnearby ⊢
    generalize t.nearby = documents' at hnearby ⊢
    induction hnearby with
    | nil => rfl
    | cons hd _ ih => rw [List.any_cons, List.any_cons, hd.uri, ih]
  refine (alike_buildInFirst hload hs.nearby).bind ?_
  rintro _ _ (hab | _)
  · exact .pure hab
  · dsimp only
    rw [hany]
    split
    · exact .fatal
    · refine alike_obtain.bind fun hdocument => ?_
      refine Alike.bind (R := OpenDocument.Respells)
        (.modifyGet fun hs => hs.openDocument _ hdocument) fun hopened => ?_
      refine (alike_buildTarget hload hopened).bind ?_
      rintro _ _ (hab | _)
      · exact .pure hab
      · exact .fatal

omit hload in
/-- The reference without its text depends on the skeleton of its target. -/
theorem referenceTo_bare {target target' : Schema} (h : target.skeleton = target'.skeleton)
    (written written' : String) :
    Same Reference.bare (referenceTo written uri target) (referenceTo written' uri target') := by
  have href := congrArg Schema.reference? h
  have hid := congrArg Schema.id h
  rw [Schema.skeleton_reference?, Schema.skeleton_reference?] at href
  rw [Schema.skeleton_id, Schema.skeleton_id] at hid
  unfold referenceTo
  revert href
  generalize target.reference? = reference
  generalize target'.reference? = reference'
  intro href
  cases reference with
  | none =>
    cases reference' with
    | none => rw [hid]; rfl
    | some => cases href
  | some r =>
    cases reference' with
    | none => cases href
    | some r' =>
      have htarget := congrArg Reference.target (Option.some.inj href)
      exact congrArg (fun target => (⟨"", uri, target⟩ : Reference)) htarget

theorem alike_resolve (written written' : String) :
    Alike .spelling (Same Reference.bare) (resolve load location written uri hops)
      (resolve other location written' uri hops) := by
  refine .get_bind fun {s t} hs => ?_
  have hknown : Option.Rel (Same Schema.skeleton)
      ((Entries.get? uri s.built).or (s.cache.get? uri))
      ((Entries.get? uri t.built).or (t.cache.get? uri)) := by
    rw [hs.cache]
    refine rel_or (hs.built.get? uri) ?_
    cases t.cache.get? uri with
    | none => exact .none
    | some target => exact .some rfl
  rw [hs.inProgress, hs.policy, hs.resolving]
  revert hknown
  generalize (Entries.get? uri s.built).or (s.cache.get? uri) = known
  generalize (Entries.get? uri t.built).or (t.cache.get? uri) = known'
  rintro (htarget | _)
  · exact .pure (referenceTo_bare htarget written written')
  · cases Entries.get? uri t.inProgress with
    | some id => exact .pure rfl
    | none =>
      dsimp only
      split
      · exact .fatal
      · split
        · exact .fatal
        · refine ((alike_chase hload).between (fun hs => hs.beginResolving uri)
            (fun hs => hs.endResolving uri)).bind fun htarget => ?_
          exact (Alike.modify (C := .spelling) fun hs => hs.finish htarget [uri]).bind fun _ =>
            .pure (referenceTo_bare htarget written written')

theorem alike_loadCanonicalReference {draft : Draft} {written written' : String}
    (h : (location.resolve written).map Uri.canonical =
      (location.resolve written').map Uri.canonical) :
    Alike .spelling (Same Schema.skeleton) (loadCanonicalReference load draft location written hops)
      (loadCanonicalReference other draft location written' hops) := by
  unfold loadCanonicalReference
  revert h
  generalize location.resolve written = found
  generalize location.resolve written' = found'
  intro h
  cases found with
  | error fault =>
    cases found' with
    | error fault' => exact .fatal
    | ok => cases h
  | ok uri =>
    cases found' with
    | error => cases h
    | ok uri' =>
      dsimp only
      rw [Except.ok.inj h]
      refine (alike_resolve hload written written').bind fun hreference => ?_
      exact .onSkeleton fun hs => Store.add_of_skeleton hs location draft
        (congrArg Body.reference hreference)

/-- An object that is no reference is known, or read, or fails for its `$ref`. -/
theorem alike_unreferenced (hcontext : context.Respells context') (h : RespellsMembers ms ns)
    (hm : (Entries.get? "$ref" ms).bind Json.string? = none)
    (hn : (Entries.get? "$ref" ns).bind Json.string? = none) :
    Alike .spelling (Option.Rel (Same Schema.skeleton))
      (do
        match Entries.get? location.pointerUri (← get).built, Entries.get? "$ref" ms with
        | some schema, _ => return some schema
        | none, some (.string written) =>
          return some (← loadReference load context.draft location written hops)
        | none, some other =>
          fatal .malformedReference (location.child "$ref") s!"$ref must be a string, found {other}"
        | none, none => return some (← loadObject load context location ms))
      (do
        match Entries.get? location.pointerUri (← get).built, Entries.get? "$ref" ns with
        | some schema, _ => return some schema
        | none, some (.string written) =>
          return some (← loadReference other context'.draft location written hops)
        | none, some other =>
          fatal .malformedReference (location.child "$ref") s!"$ref must be a string, found {other}"
        | none, none => return some (← loadObject other context' location ns)) := by
  refine .get_bind fun {s t} hs => ?_
  have hbuilt := hs.built.get? location.pointerUri
  revert hbuilt
  generalize Entries.get? location.pointerUri s.built = known
  generalize Entries.get? location.pointerUri t.built = known'
  rintro (hschema | _)
  · exact .pure (.some hschema)
  · have hfound := h.found "$ref"
    cases href : Entries.get? "$ref" ms with
    | none =>
      cases href' : Entries.get? "$ref" ns with
      | none => exact (alike_loadObject hload hcontext h href).map fun hab => .some hab
      | some =>
        rw [href, href'] at hfound
        cases hfound
    | some value =>
      cases href' : Entries.get? "$ref" ns with
      | none =>
        rw [href, href'] at hfound
        cases hfound
      | some value' =>
        rw [href] at hm
        rw [href'] at hn
        cases value with
        | string => cases hm
        | null | bool | number | array | object =>
          cases value' with
          | string => cases hn
          | null | bool | number | array | object => exact .fatal

/-- Values that are no references are read alike. -/
theorem alike_loadWith (h : Resembles v w) (hv : written? v = none) (hw : written? w = none) :
    Alike .spelling (Option.Rel (Same Schema.skeleton)) (loadWith load location v hops)
      (loadWith other location w hops) := by
  refine .get_bind fun {s t} hs => ?_
  have hcurrent := hs.current?
  revert hcurrent
  generalize s.current? = current
  generalize t.current? = current'
  rintro (hcontext | _)
  · have hrefused : ∀ {kind kind' : IssueKind} {message message' : String},
        Alike .spelling (Option.Rel (Same Schema.skeleton))
          (do malformed kind location message; return none)
          (do malformed kind' location message'; return none) :=
      Alike.malformed.bind fun _ => .pure .none
    cases h with
    | strings => exact hrefused
    | respells h =>
      cases h with
      | object h => exact alike_unreferenced hload hcontext h hv hw
      | bool b =>
        dsimp only
        rw [hcontext.active, hcontext.draft]
        split
        · refine Alike.map (R := Same Schema.skeleton) (.onSkeleton fun hs => ?_) fun hab => .some hab
          exact Store.add_of_skeleton hs location _ rfl
        · exact hrefused
      | null | number | string | array => exact hrefused
  · exact .pure .none

omit hload in
/-- A reference is one in every spelling, and names the same in canonical form. -/
theorem written?_rel (h : Resembles v w) :
    Option.Rel (fun written written' => ∀ location : Location,
      (location.resolve written).map Uri.canonical =
        (location.resolve written').map Uri.canonical) (written? v) (written? w) := by
  cases h with
  | strings => exact .none
  | respells h =>
    cases h with
    | object h =>
      have hfound := h.found "$ref"
      unfold written? Json.member?
      dsimp only
      revert hfound
      generalize Entries.get? "$ref" _ = found
      generalize Entries.get? "$ref" _ = found'
      rintro (_ | hvalue | ⟨_, hwritten⟩)
      · exact .none
      · rw [Option.bind_some, Option.bind_some, hvalue.string?]
        cases Json.string? _ with
        | none => exact .none
        | some written => exact .some fun _ => rfl
      · exact .some hwritten.resolve
    | null | bool | number | string | array => exact .none

theorem alike_loadCanonicalWith (h : Resembles v w) :
    Alike .spelling (Option.Rel (Same Schema.skeleton)) (loadCanonicalWith load location v hops)
      (loadCanonicalWith other location w hops) := by
  have hwritten := written?_rel h
  unfold loadCanonicalWith
  cases hv : written? v with
  | none =>
    cases hw : written? w with
    | none => exact alike_loadWith hload h hv hw
    | some =>
      rw [hv, hw] at hwritten
      cases hwritten
  | some written =>
    cases hw : written? w with
    | none =>
      rw [hv, hw] at hwritten
      cases hwritten
    | some written' =>
      rw [hv, hw] at hwritten
      cases hwritten with
      | some hresolve =>
        refine .get_bind fun {s t} hs => ?_
        have hcurrent := hs.current?
        have hbuilt := hs.built.get? location.pointerUri
        revert hcurrent hbuilt
        generalize s.current? = current
        generalize t.current? = current'
        generalize Entries.get? location.pointerUri s.built = known
        generalize Entries.get? location.pointerUri t.built = known'
        rintro (hcontext | _) (hschema | _)
        · exact .pure (.some hschema)
        · dsimp only
          rw [hcontext.draft]
          exact (alike_loadCanonicalReference hload (hresolve location)).map fun hab => .some hab
        · exact .pure .none
        · exact .pure .none

end

/-- The canonical loader reads alike what resembles each other. -/
theorem alike_loadCanonical (steps : Nat) :
    NodesAlike (loadCanonical steps) (loadCanonical steps) := by
  induction steps with
  | zero => exact fun _ _ _ _ _ => .throw ..
  | succ steps ih => exact fun _ _ _ _ h => alike_loadCanonicalWith ih h

end Loading
end SchemaAtlas
