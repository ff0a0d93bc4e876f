import SchemaAtlas.Proofs.Loading.Frame
import SchemaAtlas.Schema.Builder
import SchemaAtlas.Schema.Render

/-!
# Copies under another identity

A node is copied as the root of another document, or under an identifier of its own. The first
kind of copy has the same body. The second has an identifier in addition, for which a boolean
schema has to become an object. The schema `true` may, as an identifier asks nothing of a value;
but `false` loses what it says, and its copy admits every value (`Schema.reidentified`). Which
values a boolean schema admits, in the forms that the drafts have for it, is what
`Draft.verdict?` computes.
-/

namespace SchemaAtlas

/-! ## Boolean schemas as the drafts write them -/

/-- Types by their names. -/
def Json.shapes? (json : Json) : Option (List Shape) :=
  json.elements?.bind fun elements => elements.mapM fun name => name.string?.bind Shape.ofName?

namespace Draft

section

variable (draft : Draft) (value : Json)

mutual

/-- Whether a schema of the draft admits the value, if the schema is made of booleans, identifiers,
negations and forbidden types only. -/
def verdict? : Json → Option Bool
  | .bool b => if draft.allowsBooleanSchemas then some b else none
  | .object members => memberVerdict? members
  | _ => none

def memberVerdict? : List (String × Json) → Option Bool
  | [] => some true
  | (key, schema) :: rest =>
    let own :=
      if key = draft.idKey then some true
      else if key = "not" ∧ draft ≠ .draft3 then (verdict? schema).map (! ·)
      else if key = "disallow" ∧ draft = .draft3 then
        schema.shapes?.map fun shapes => ! shapes.any (·.accepts (Shape.of value))
      else none
    own.bind fun admits => (memberVerdict? rest).map (admits && ·)

end

end

variable (draft : Draft) (value : Json)

theorem shapes?_any : (Json.strings ["any"]).shapes? = some [.any] := by decide

/-- The forms of a boolean schema say what the boolean says. -/
theorem verdict?_renderBoolean (b : Bool) :
    draft.verdict? value (Schema.renderBoolean draft b) = some b := by
  by_cases hd : draft.allowsBooleanSchemas = true
  · simp [Schema.renderBoolean, verdict?, hd]
  · cases b with
    | true => simp [Schema.renderBoolean, verdict?, memberVerdict?, hd]
    | false =>
      have hid : draft.idKey ≠ "not" ∧ draft.idKey ≠ "disallow" := by cases draft <;> decide
      by_cases h3 : draft = .draft3
      · subst h3
        simp [Schema.renderBoolean, verdict?, memberVerdict?, hd, hid.2.symm, shapes?_any,
          Shape.accepts]
      · simp [Schema.renderBoolean, verdict?, memberVerdict?, hd, h3, hid.1.symm]

/-- An identifier alone admits everything. -/
theorem verdict?_identifier (text : String) :
    draft.verdict? value (.object [(draft.idKey, .string text)]) = some true := by
  simp [verdict?, memberVerdict?]

end Draft

/-! ## Copies -/

/-- The content of a node with an identifier. A reference has no content of its own. -/
def Body.identified {σ : Type} (id : String) : Body σ → Body σ
  | .object keywords extra => .object (Entries.insert .id (.uri id) keywords) extra
  | .boolean _ => .object [(.id, .uri id)] []
  | .reference r => .reference r

namespace Schema

variable {s copy : Schema} {store store' : Store} {id uri : String}

/-- A copy says what the node says, apart from an identifier. -/
structure Restates (copy s : Schema) : Prop where
  draft : copy.draft = s.draft
  keyword : ∀ kind ≠ .id, copy.keyword? kind = s.keyword? kind
  extra : copy.extra = s.extra
  reference : copy.reference? = s.reference?

/-- A node is new in a store, next to which everything stays as it was. -/
structure Joins (copy : Schema) (store store' : Store) : Prop where
  node : store'.node? copy.id = some copy
  fresh : store.nodes.size ≤ copy.id
  grows : store.Grows store'
  deferred : store'.deferred = store.deferred

theorem joins_add (store : Store) (location : Location) (draft : Draft) (body : Body Schema) :
    (store.add location draft body).1.Joins store (store.add location draft body).2 where
  node := Store.node?_add store location draft body
  fresh := Nat.le_refl _
  grows := Store.grows_add store location draft body
  deferred := rfl

/-- A copy as the root of a document is a new node with the same body. -/
theorem withDocument_eq (s : Schema) (uri : String) (store : Store) :
    s.withDocument uri store =
      (s.location.withDocument uri).map fun location => store.add location s.draft s.body := by
  obtain ⟨number, own, draft, body⟩ := s
  refine congrArg (Except.map · (own.withDocument uri)) (funext fun location => ?_)
  cases body <;> rfl

/-- A copy under an identifier is a new node whose body has the identifier. -/
theorem withId_eq (s : Schema) (id : String) (store : Store) :
    s.withId id store = (s.location.withId id).map fun location =>
      store.add location s.draft (s.body.identified id) := by
  obtain ⟨number, own, draft, body⟩ := s
  refine congrArg (Except.map · (own.withId id)) (funext fun location => ?_)
  cases body with
  | object => rfl
  | reference => rfl
  | boolean value => cases value <;> rfl

/-- A copy is a node of the location that was found for it. -/
theorem add_of_map {place : Except UriFault Location} {draft : Draft} {body : Body Schema}
    (h : place.map (fun location => store.add location draft body) = .ok (copy, store')) :
    place = .ok copy.location ∧ copy = node copy.id copy.location draft body ∧
      copy.Joins store store' := by
  cases place with
  | error fault => cases h
  | ok location =>
    cases h
    exact ⟨rfl, rfl, joins_add store location draft body⟩

theorem restates_identified (s : Schema) (number : Nat) (location : Location) (id : String) :
    (node number location s.draft (s.body.identified id)).Restates s where
  draft := rfl
  keyword := by
    intro kind hkind
    obtain ⟨_, _, _, body⟩ := s
    cases body with
    | object keywords extra =>
      exact (Entries.get?_insert .id kind (.uri id) keywords).trans (if_neg hkind)
    | boolean => exact if_neg hkind
    | reference => rfl
  extra := by
    obtain ⟨_, _, _, body⟩ := s
    cases body <;> rfl
  reference := by
    obtain ⟨_, _, _, body⟩ := s
    cases body <;> rfl

theorem keyword?_identified (hr : s.isReference = false) (number : Nat) (location : Location)
    (id : String) :
    (node number location s.draft (s.body.identified id)).keyword? .id = some (.uri id) := by
  obtain ⟨_, _, _, body⟩ := s
  cases body with
  | object keywords extra =>
    exact (Entries.get?_insert .id .id (.uri id) keywords).trans (if_pos rfl)
  | boolean => rfl
  | reference => cases hr

theorem identified_of_reference (hr : s.isReference = true) (id : String) :
    s.body.identified id = s.body := by
  obtain ⟨_, _, _, body⟩ := s
  cases body <;> cases hr
  rfl

/-- For whatever draft it is written, the schema admits every value, or rejects every value. -/
def Decides (s : Schema) (b : Bool) : Prop :=
  ∀ (draft : Draft) (withExtra : Bool) (value : Json),
    draft.verdict? value (s.render draft withExtra) = some b

theorem Decides.unique {b b' : Bool} (h : s.Decides b) (h' : s.Decides b') : b = b' :=
  Option.some.inj ((h .latest true .null).symm.trans (h' .latest true .null))

theorem decides_of_boolean {b : Bool} (hb : s.boolean? = some b) : s.Decides b := by
  intro draft withExtra value
  obtain ⟨_, _, _, body⟩ := s
  cases body <;> cases hb
  exact draft.verdict?_renderBoolean value b

theorem render_of_identifier (number : Nat) (location : Location) (own draft : Draft)
    (withExtra : Bool) :
    (node number location own (.object [(.id, .uri id)] [])).render draft withExtra =
      .object [(draft.idKey, .string id)] := by
  cases draft <;> cases withExtra <;> rfl

theorem decides_of_identifier (number : Nat) (location : Location) (own : Draft) (id : String) :
    (node number location own (.object [(.id, .uri id)] [])).Decides true := by
  intro draft withExtra value
  rw [render_of_identifier]
  exact draft.verdict?_identifier value id

theorem decides_identified {b : Bool} (hb : s.boolean? = some b) (number : Nat)
    (location : Location) (id : String) :
    (node number location s.draft (s.body.identified id)).Decides true := by
  have hbody : s.body.identified id = .object [(.id, .uri id)] [] := by
    obtain ⟨_, _, _, body⟩ := s
    cases body <;> cases hb
    rfl
  rw [hbody]
  exact decides_of_identifier number location s.draft id

/-- A copy as the root of a document differs from the node in its location only, and a copy under
an identifier in its location and, if it is no reference, in the identifier. A boolean schema keeps
its verdict under an identifier unless it is `false`, whose copy admits every value. -/
theorem reidentified (s : Schema) (store : Store) :
    (∀ uri copy store', s.withDocument uri store = .ok (copy, store') →
      s.location.withDocument uri = .ok copy.location ∧ copy.draft = s.draft ∧
        copy.body = s.body ∧ copy.Joins store store' ∧
        ∀ b, s.boolean? = some b → copy.Decides b) ∧
    ∀ id copy store', s.withId id store = .ok (copy, store') →
      s.location.withId id = .ok copy.location ∧ copy.Restates s ∧
        (s.isReference = false → copy.keyword? .id = some (.uri id)) ∧
        (s.isReference = true → copy.body = s.body) ∧ copy.Joins store store' ∧
        ((∀ b, s.boolean? = some b → copy.Decides b) ↔ s.boolean? ≠ some false) ∧
        (s.boolean? = some false → copy.Decides true) := by
  constructor
  · intro uri copy store' h
    obtain ⟨hplace, hcopy, hjoins⟩ := add_of_map (withDocument_eq s uri store ▸ h)
    have hbody : copy.body = s.body := by rw [hcopy, body]
    refine ⟨hplace, by rw [hcopy, draft], hbody, hjoins, fun b hb => decides_of_boolean ?_⟩
    rw [boolean?, hbody]
    exact hb
  · intro id copy store' h
    obtain ⟨hplace, hcopy, hjoins⟩ := add_of_map (withId_eq s id store ▸ h)
    have htrue : ∀ b, s.boolean? = some b → copy.Decides true := by
      intro b hb
      rw [hcopy]
      exact decides_identified hb _ _ id
    refine ⟨hplace, ?_, fun hr => ?_, fun hr => ?_, hjoins,
      ⟨fun hall hfalse => ?_, fun hfalse b hb => ?_⟩, htrue false⟩
    · rw [hcopy]
      exact restates_identified s _ _ id
    · rw [hcopy]
      exact keyword?_identified hr _ _ id
    · rw [hcopy]
      exact identified_of_reference hr id
    · cases (hall false hfalse).unique (htrue false hfalse)
    · cases b with
      | false => exact (hfalse hb).elim
      | true => exact htrue true hb

/-- A boolean schema that is a document. -/
def alone (value : Bool) : Schema :=
  .node 0 (.ofDocument ⟨"file", some "", .segments ["s", "r.json"], none, none⟩) .draft7
    (.boolean value)

theorem exists_withId (s : Schema) (id : String) (store : Store)
    (h : (s.location.withId id).toOption.isSome = true) :
    ∃ copy store', s.withId id store = .ok (copy, store') := by
  rw [withId_eq]
  cases hl : s.location.withId id with
  | error fault =>
    rw [hl] at h
    cases h
  | ok location => exact ⟨_, _, rfl⟩

/-- The copy of `true` under an identifier still admits every value. -/
theorem reidentified_of_true : ∃ copy store',
    (alone true).withId "t.json" .empty = .ok (copy, store') ∧ (alone true).boolean? ≠ some false ∧
      copy.keyword? .id = some (.uri "t.json") ∧ copy.Decides true := by
  obtain ⟨copy, store', h⟩ := exists_withId (alone true) "t.json" .empty (by decide)
  obtain ⟨-, -, hid, -, -, hiff, -⟩ := (reidentified (alone true) .empty).2 "t.json" copy store' h
  have hbool : (alone true).boolean? ≠ some false := by decide
  exact ⟨copy, store', h, hbool, hid rfl, hiff.mpr hbool true rfl⟩

/-- The schema `false` rejects every value, and its copy under an identifier admits every value. -/
theorem admits_of_false : ∃ copy store',
    (alone false).withId "x.json" .empty = .ok (copy, store') ∧ (alone false).Decides false ∧
      copy.Decides true ∧
      ∀ withExtra, copy.render .draft7 withExtra = .object [("$id", .string "x.json")] := by
  obtain ⟨copy, store', h⟩ := exists_withId (alone false) "x.json" .empty (by decide)
  obtain ⟨-, hcopy, -⟩ := add_of_map (withId_eq (alone false) "x.json" .empty ▸ h)
  refine ⟨copy, store', h, decides_of_boolean rfl, ?_, fun withExtra => ?_⟩
  · rw [hcopy]
    exact decides_of_identifier _ _ _ _
  · rw [hcopy]
    exact render_of_identifier _ _ _ .draft7 withExtra

end Schema
end SchemaAtlas
