import SchemaAtlas.Proofs.Graph.Provenance
import SchemaAtlas.Proofs.Graph.Unnamed
import SchemaAtlas.Proofs.Loading.Layout

/-!
# Segments of nested schemas

A node lists the schemas of its keywords with the segments that lead to them. In a load that
answers calls with nodes of their own places, a segment below the key of its keyword leads to
where the schema stands, unless the value of the keyword is a schema in place of a list, or a
union in which a schema follows a name of a type (`Request.lays_out_of_run`).
-/

namespace SchemaAtlas

/-- The schemas of all keywords stand at their segments below the node. -/
def Schema.NamesPlaces (t : Schema) : Prop :=
  ∀ kind k, (kind, k) ∈ t.keywords →
    k.StandsBelow (t.location.path.segments ++ [KeywordKind.key kind])

namespace Position

/-- No keyword of an object counts its schemas from another place on. -/
def IsStraight (p : Position) : Prop :=
  ∀ members, p.members? = some members → ∀ kind value, (KeywordKind.key kind, value) ∈ members →
    Digest.shifts p.context.active kind value = false

/-- A node stands where an object does. The schemas of a keyword stand at their segments below
it exactly if they are not counted from another place on. -/
structure LaysOut (p : Position) (t : Schema) : Prop where
  path : t.location.path = p.location.path
  keyword : ∀ kind k, (kind, k) ∈ t.keywords → k.subschemas ≠ [] → ∃ members value,
    p.members? = some members ∧ (KeywordKind.key kind, value) ∈ members ∧
      (k.StandsBelow (t.location.path.segments ++ [kind.key]) ↔
        Digest.shifts p.context.active kind value = false)

/-- Outside of the third draft every object is straight. -/
theorem isStraight_of_not_contains {p : Position}
    (h : p.context.active.contains .draft3 = false) : p.IsStraight := by
  intro members _ kind value _
  simp only [Digest.shifts, h, Bool.false_and]

theorem LaysOut.namesPlaces {p : Position} {t : Schema} (h : p.LaysOut t) (hp : p.IsStraight) :
    t.NamesPlaces := by
  intro kind k hk
  by_cases hnone : k.subschemas = []
  · exact Keyword.standsBelow_of_subschemas hnone
  · obtain ⟨members, value, hm, hvalue, hiff⟩ := h.keyword kind k hk hnone
    exact hiff.mpr (hp members hm kind value hvalue)

end Position

namespace Loading

open LoadM Session

variable {load : NodeLoader} {p : Position} {s s' : Session}

theorem Placing.seats (hl : Placing load) (context : OpenDocument) :
    Digest.Seats (nestedLoad load) context where
  toLoud := hl.toFramed.loud context
  path h := congrArg Prod.snd (hl.place h)
  object := by
    intro location value s s' hc hobject h
    obtain ⟨hrefused, -⟩ := hl.refusal hc h
    cases value with
    | object members => cases hrefused
    | null | bool | number | string | array =>
      exact absurd hobject (Digest.not_object_of_shape (by simp))

/-- The node of an object is laid out as the object is. -/
theorem laysOut_of_objectRun (hl : Placing load) {lib : Library}
    {object : List (String × Json)} {N : Schema} (hm : p.members? = some object)
    (hin : s.Inside lib p.context)
    (hr : ObjectRun load p.context p.location object s (.ok N) s') : p.LaysOut N := by
  cases hr with
  | @finished inner declared builder s₁ s₂ hid hread =>
    have hpath : inner.path = p.location.path := congrArg Prod.snd hid.place
    refine ⟨hpath, ?_⟩
    intro kind k hk hsome
    rw [keywordsRun_body hread] at hk
    have hseats := hl.seats p.context
    have hc := (hid.inside hin (p.location.pointerUri :: p.location.uri :: declared)).current?
    rcases Digest.reads_of_members hseats.toLoud hc (List.Subset.refl _) hread kind k hk with
      hold | hreads
    · cases hold
    · obtain ⟨value, hvalue, hiff⟩ := hreads.stands_iff hseats hsome
      exact ⟨object, value, hm, hvalue, hiff⟩

end Loading

/-! ## Loads -/

namespace Load

/-- Every node that a load finishes is laid out as an object that was met. -/
structure LaysOut (l : Load) (w w' : Workspace) (s : Schema) : Prop where
  nodes : ∀ {t}, w.Finishes w' t → t.isObject = true → ∃ p, l.Meets p ∧ p.LaysOut t
  /-- Any other node that is reached is one that a schema of the cache led to before. -/
  reached : ∀ {given}, Gave w.store given → (∀ uri c, w.cache.get? uri = some c → given c) →
    ∀ {t}, w'.store.Reaches s t → w.Finishes w' t ∨ w.Recalls t

end Load

namespace Request

/-- A load that answers calls with nodes of their own places lays its nodes out as the objects
that it meets, so where all of these are straight, segments lead to where the schemas stand. It
answers calls like this where no document declares an identifier. -/
theorem lays_out_of_run {request : Request} {policy : Policy} {w w' : Workspace} {l : Load}
    {s : Schema} (hl : request.load? policy w = some l)
    (hrun : request.run policy w = (.ok s, w')) :
    (l.IsUnnamed → l.Placed) ∧
      (l.Placed → l.LaysOut w w' s ∧ ((∀ p, l.Meets p → p.IsStraight) →
        ∀ {t}, w.Finishes w' t → t.isObject = true → t.NamesPlaces)) := by
  refine ⟨fun h => (h.apart (begins_of_load? hl)).placed, fun hplaced => ?_⟩
  have hlays : l.LaysOut w w' s := by
    refine ⟨?_, fun hw hcache _ => reaches_cases hl hrun hw hcache⟩
    intro t ht hobject
    obtain ⟨report, hok, rfl⟩ := run_ok_of_load? hl hrun
    obtain ⟨-, -, hstore⟩ := load?_workspace hl
    have hfirst : l.first ≤ t.id := by
      rw [Load.first, hstore]
      exact ht.fresh
    exact hplaced.traced hok
      (fun hload _ _ _ _ _ _ hm hin hr => Loading.laysOut_of_objectRun hload hm hin hr)
      hfirst ht.stored hobject
  refine ⟨hlays, fun hstraight t ht hobject => ?_⟩
  obtain ⟨p, hp, hlaid⟩ := hlays.nodes ht hobject
  exact hlaid.namesPlaces (hstraight p hp)

/-- The URI of a document with a name. -/
def pageUri (name : String) : Uri := ⟨"http", some "e.com", .segments [name], none, none⟩

/-- A workspace with a document and another one that it refers to. -/
def pages : Workspace :=
  { Workspace.empty with documents := .ofList [
      (pageUri "r.json", .object [
        ("dependencies", .object [("name", .object [("required", .array [.string "kind"])])]),
        ("items", .array [.object [("type", .string "string")],
          .object [("$ref", .string "s.json")]])]),
      (pageUri "s.json", .object [
        ("anyOf", .array [.object [("minimum", .number (.integer 1))], .bool true])])] }

theorem names_places_of_pages : ∃ s w',
    (Request.ofUri (pageUri "r.json")).run (.ofDraft .draft7) pages = (.ok s, w') ∧
      (.items, some "1") ∈ s.children.map (fun entry => (entry.1, entry.2.1)) ∧
      ∀ t, w'.store.Reaches s t → t.isObject = true → t.NamesPlaces := by
  have hcheck : ((Request.ofUri (pageUri "r.json")).run (.ofDraft .draft7) pages).1.toOption.any
      (fun s => s.children.map (fun entry => (entry.1, entry.2.1)) |>.contains
        (.items, some "1")) = true := by
    decide +kernel
  have hopens : ((Request.ofUri (pageUri "r.json")).load? (.ofDraft .draft7) pages).any
      (fun l => l.opens.all fun document =>
        decide document.IsUnnamed && !document.active.contains .draft3) = true := by
    decide +kernel
  obtain ⟨l, hl, hall⟩ := exists_of_any_load? hopens
  obtain ⟨s, w', hr, hs⟩ := exists_of_any_run hcheck
  have hdocument : ∀ p, l.Meets p →
      p.context.IsUnnamed ∧ p.context.active.contains .draft3 = false := by
    intro p hp
    have hone := List.all_eq_true.mp hall p.context ((begins_of_load? hl).mem_opens hp)
    simpa using hone
  obtain ⟨hunnamed, hplaced⟩ := lays_out_of_run hl hr
  obtain ⟨hlays, hnames⟩ := hplaced (hunnamed fun p hp => (hdocument p hp).1)
  refine ⟨s, w', hr, by simpa using hs, ?_⟩
  intro t ht hobject
  have hstraight : ∀ p, l.Meets p → p.IsStraight := fun p hp =>
    Position.isStraight_of_not_contains (hdocument p hp).2
  rcases hlays.reached (.nothing _) (fun _ _ h => nomatch h) ht with hfinished | ⟨_, _, hc, _⟩
  · exact hnames hstraight hfinished hobject
  · cases hc

/-- A union of a name of a type and a schema. -/
def blended : Request :=
  .named (pageUri "r.json") (.object [("type", .array [.string "string", .object []])])

/-- Its schema is the second element of the list, and the first schema of the union. -/
theorem blended_misnamed : ∃ l s w', blended.load? .standard .empty = some l ∧
    blended.run .standard .empty = (.ok s, w') ∧ l.IsUnnamed ∧
      ∃ t, (.type, some "0", t) ∈ s.children ∧ t.location.path.segments = ["type", "1"] ∧
        ¬ s.NamesPlaces := by
  have hcheck : (blended.run .standard .empty).1.toOption.any (fun s =>
      s.location.path.segments = [] && s.keywords.any fun entry => entry.1 = .type &&
        entry.2.subschemas.any fun child => child.1 = some "0" &&
          child.2.location.path.segments = ["type", "1"]) = true := by
    decide +kernel
  have hopens : (blended.load? .standard .empty).any (fun l =>
      l.opens.all fun document => decide document.IsUnnamed) = true := by
    decide +kernel
  obtain ⟨l, hl, hall⟩ := exists_of_any_load? hopens
  obtain ⟨s, w', hr, hs⟩ := exists_of_any_run hcheck
  have hunnamed : l.IsUnnamed := fun p hp =>
    of_decide_eq_true (List.all_eq_true.mp hall p.context ((begins_of_load? hl).mem_opens hp))
  simp only [Bool.and_eq_true, decide_eq_true_eq, List.any_eq_true] at hs
  obtain ⟨hroot, ⟨kind, k⟩, hk, rfl, ⟨segment, t⟩, ht, rfl, hpath⟩ := hs
  refine ⟨l, s, w', hl, hr, hunnamed, t, ?_, hpath, ?_⟩
  · exact List.mem_flatMap.mpr ⟨_, hk, List.mem_map.mpr ⟨_, ht, rfl⟩⟩
  · intro hnames
    have hsegments := hnames _ k hk _ ht
    rw [hroot, hpath] at hsegments
    have hne : ["type", "1"] ≠ [] ++ [KeywordKind.key .type] ++ (some "0").toList := by decide
    exact hne hsegments

end Request
end SchemaAtlas
