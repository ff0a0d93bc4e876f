import SchemaAtlas.Proofs.Loading.Run

/-!
# The nested schemas of an object

`Digest.nested` lists the places below an object at which the reading of its keywords asks
for a schema. A reading of keywords is a sequence of visits: it records issues, makes
boolean nodes, and loads the values at nested places, nothing else. The main statements say
that the nodes an object holds in the end were made in those visits, and that all of them
are held when no issue was recorded and no key occurs twice.
-/

namespace SchemaAtlas

namespace Keyword

/-- The nested schemas without their segments. -/
def nodes {σ : Type} (k : Keyword σ) : List σ := k.subschemas.map Prod.snd

@[simp] theorem map_snd_indexed {σ : Type} (list : List σ) :
    (indexed list).map Prod.snd = list := by
  simp [indexed, Function.comp_def]

end Keyword

namespace Builder

/-- The nested schemas gathered so far. -/
def nodes (b : Builder) : List Schema := b.keywords.flatMap fun entry => entry.2.nodes

@[simp] theorem nodes_new (location : Location) (draft : Draft) :
    (new location draft).nodes = [] := rfl

@[simp] theorem nodes_putExtra (b : Builder) (key : String) (value : Json) :
    (b.putExtra key value).nodes = b.nodes := rfl

end Builder

/-- The schemas nested in a node are those of its keywords. -/
theorem Schema.mem_children {s : Schema} {keywords : List (KeywordKind × Keyword Schema)}
    {extra : List (String × Json)} (hb : s.body = .object keywords extra) {t : Schema} :
    (∃ kind segment, (kind, segment, t) ∈ s.children) ↔
      t ∈ keywords.flatMap fun entry => entry.2.nodes := by
  have hk : s.keywords = keywords := by simp [Schema.keywords, hb]
  simp only [Schema.children, hk, Keyword.nodes, List.mem_flatMap, List.mem_map]
  constructor
  · rintro ⟨kind, segment, entry, he, child, hc, heq⟩
    cases heq
    exact ⟨entry, he, child, hc, rfl⟩
  · rintro ⟨entry, he, child, hc, rfl⟩
    exact ⟨entry.1, child.1, entry, he, child, hc, rfl⟩

/-- A report between two equal ones, from which nothing is taken back, is the same. -/
theorem Report.eq_of_prefix {a b c : Report} (hab : a.issues <+: b.issues)
    (hbc : b.issues <+: c.issues) (h : c = a) : b = a := by
  have hlen : b.issues.length ≤ a.issues.length := h ▸ hbc.length_le
  exact congrArg Report.mk (hab.eq_of_length_le hlen).symm

namespace Digest

open LoadM

/-! ## Places -/

/-- Elements with their locations, counted from an index. -/
def elementPlaces (location : Location) (index : Nat) (elements : List Json) :
    List (Location × Json) :=
  (elements.zipIdx index).map fun (value, i) => (location.childIndex i, value)

/-- Members with their locations. -/
def memberPlaces (location : Location) (members : List (String × Json)) :
    List (Location × Json) :=
  members.map fun (name, value) => (location.child name, value)

/-- A dependency that is a schema and no list of properties. -/
def isSchemaDependency : Json → Bool
  | .object _ | .bool _ => true
  | _ => false

/-- The places below a value at which a candidate asks for schemas. -/
def nestedIn (active : DraftSet) (reading : Reading) (location : Location) (value : Json) :
    List (Location × Json) :=
  match reading, value with
  | .schema, value => [(location, value)]
  | .schemaList, .array elements => elementPlaces location 0 elements
  | .schemaList, .object members => [(location, .object members)]
  | .items, .array elements => elementPlaces location 0 elements
  | .items, value => [(location, value)]
  | .schemaMap, .object members => memberPlaces location (members.filter (! ·.1.isEmpty))
  | .dependencies, .object members =>
    memberPlaces location (members.filter fun entry => isSchemaDependency entry.2)
  | .types, .array elements =>
    if active.contains .draft3 then
      (elementPlaces location 0 elements).filter fun place => Shape.of place.2 = .object
    else []
  | .types, value =>
    if active.contains .draft3 && (Shape.of value = .object) then [(location, value)] else []
  | _, _ => []

/-- The places below an object at which the reading of its members asks for schemas. -/
def nested (active : DraftSet) (location : Location) (object : List (String × Json)) :
    List (Location × Json) :=
  object.flatMap fun (key, value) =>
    ((Catalog.applicable key active).filter (·.expects.accepts (Shape.of value))).flatMap
      fun entry => nestedIn active entry.reading (location.child key) value

theorem mem_nested {active : DraftSet} {location : Location} {object : List (String × Json)}
    {key : String} {value : Json} {entry : CatalogEntry} {place : Location × Json}
    (hm : (key, value) ∈ object)
    (he : entry ∈ (Catalog.applicable key active).filter (·.expects.accepts (Shape.of value)))
    (hp : place ∈ nestedIn active entry.reading (location.child key) value) :
    place ∈ nested active location object :=
  List.mem_flatMap.mpr ⟨(key, value), hm, List.mem_flatMap.mpr ⟨entry, he, hp⟩⟩

theorem elementPlaces_cons (location : Location) (index : Nat) (value : Json)
    (rest : List Json) :
    elementPlaces location index (value :: rest) =
      (location.childIndex index, value) :: elementPlaces location (index + 1) rest := by
  simp [elementPlaces, List.zipIdx_cons]

/-! ## Visits -/

section

variable (load : Loader) (draft : Draft) (asked : Location → Json → Prop)

/-- What a reading of keywords does to the session, and the nodes that it gets on the way. -/
inductive Visits : Session → List Schema → Session → Prop
  | start (s : Session) : Visits s [] s
  | issue {s s₁ : Session} {nodes : List Schema} (severity : Severity) (kind : IssueKind)
      (location : Location) (message : String) :
      Visits s nodes s₁ → kind.isFatal = false →
      Visits s nodes (s₁.record severity kind location.document location.path message)
  | boolean {s s₁ : Session} {nodes : List Schema} {location : Location} {b : Bool} :
      Visits s nodes s₁ → asked location (.bool b) →
      Visits s (nodes ++ [(s₁.store.add location draft (.boolean b)).1])
        { s₁ with store := (s₁.store.add location draft (.boolean b)).2 }
  | load {s s₁ s₂ : Session} {nodes : List Schema} {location : Location} {value : Json}
      {found : Option Schema} :
      Visits s nodes s₁ → asked location value →
      Runs (load location value) s₁ (.ok found) s₂ → Visits s (nodes ++ found.toList) s₂

/-- A reading of keywords that a nested schema brings to an end. -/
def Breaks (s : Session) (e : Stop) (s' : Session) : Prop :=
  ∃ nodes s₁ location value, Visits load draft asked s nodes s₁ ∧ asked location value ∧
    Runs (load location value) s₁ (.error e) s'

/-- Loading a value that is no schema records an issue, and no issue is ever taken back. -/
structure Loud (context : OpenDocument) : Prop where
  current : ∀ {location value s r s'}, s.current? = some context →
    Runs (load location value) s r s' → s'.current? = some context
  report : ∀ {location value s r s'}, s.current? = some context →
    Runs (load location value) s r s' → s.report.issues <+: s'.report.issues
  none : ∀ {location value s s'}, s.current? = some context →
    Runs (load location value) s (.ok none) s' → s'.report ≠ s.report

/-- A part of a load in which nothing is reported. -/
def Quiet (s s' : Session) : Prop :=
  ∃ context, Loud load context ∧ s.current? = some context ∧ s'.report = s.report

/-- The nodes held after a step are those of `base` and those it visited; if no issue was
recorded and nothing was lost before, they are all of these. -/
structure Gathers {α : Type} (intact : Prop) (x : LoadM α) (base : List Schema)
    (held : α → List Schema) (lost : α → Prop) : Prop where
  ok : ∀ {s a s'}, Runs x s (.ok a) s' → ∃ nodes, Visits load draft asked s nodes s' ∧
    held a ⊆ base ++ nodes ∧ (intact → Quiet load s s' → ¬ lost a ∧ base ++ nodes ⊆ held a)
  error : ∀ {s e s'}, Runs x s (.error e) s' → Breaks load draft asked s e s'

end

variable {α β : Type} {load : Loader} {draft : Draft} {asked : Location → Json → Prop}
variable {intact : Prop} {base : List Schema}

theorem Visits.trans {s s₁ s₂ : Session} {nodes nodes' : List Schema}
    (h : Visits load draft asked s nodes s₁) (h' : Visits load draft asked s₁ nodes' s₂) :
    Visits load draft asked s (nodes ++ nodes') s₂ := by
  induction h' with
  | start => simpa using h
  | issue severity kind location message _ hk ih => exact .issue _ _ _ _ ih hk
  | boolean _ ha ih =>
    rw [← List.append_assoc]
    exact .boolean ih ha
  | load _ ha hr ih =>
    rw [← List.append_assoc]
    exact .load ih ha hr

theorem Visits.mono {s s' : Session} {nodes : List Schema} {asked' : Location → Json → Prop}
    (h : Visits load draft asked s nodes s')
    (ha : ∀ location value, asked location value → asked' location value) :
    Visits load draft asked' s nodes s' := by
  induction h with
  | start => exact .start _
  | issue severity kind location message _ hk ih => exact .issue _ _ _ _ ih hk
  | boolean _ hasked ih => exact .boolean ih (ha _ _ hasked)
  | load _ hasked hr ih => exact .load ih (ha _ _ hasked) hr

theorem Visits.nodes_eq_nil {s s' : Session} {nodes : List Schema}
    (h : Visits load draft (fun _ _ => False) s nodes s') : nodes = [] := by
  induction h with
  | start => rfl
  | issue _ _ _ _ _ _ ih => exact ih
  | boolean _ ha _ => exact ha.elim
  | load _ ha _ _ => exact ha.elim

/-- Visits leave the current document and take back no issue. -/
theorem Visits.loud {context : OpenDocument} {s s' : Session} {nodes : List Schema}
    (h : Visits load draft asked s nodes s') (hl : Loud load context)
    (hc : s.current? = some context) :
    s'.current? = some context ∧ s.report.issues <+: s'.report.issues := by
  induction h with
  | start => exact ⟨hc, List.prefix_refl _⟩
  | issue severity kind location message _ _ ih =>
    exact ⟨ih.1, ih.2.trans (List.prefix_append _ _)⟩
  | boolean _ _ ih => exact ih
  | load _ _ hr ih =>
    obtain ⟨hc₁, hp⟩ := ih
    exact ⟨hl.current hc₁ hr, hp.trans (hl.report hc₁ hr)⟩

theorem Quiet.split {s s₁ s₂ : Session} {nodes nodes' : List Schema}
    (h : Visits load draft asked s nodes s₁) (h' : Visits load draft asked s₁ nodes' s₂)
    (hq : Quiet load s s₂) : Quiet load s s₁ ∧ Quiet load s₁ s₂ := by
  obtain ⟨context, hl, hc, heq⟩ := hq
  obtain ⟨hc₁, hp₁⟩ := h.loud hl hc
  have hp₂ := (h'.loud hl hc₁).2
  have hback : s₁.report = s.report := Report.eq_of_prefix hp₁ hp₂ heq
  exact ⟨⟨context, hl, hc, hback⟩, ⟨context, hl, hc₁, heq.trans hback.symm⟩⟩

/-! ## Composition -/

theorem gathers_pure {a : α} {held : α → List Schema} {lost : α → Prop} (hs : held a ⊆ base)
    (hc : intact → ¬ lost a ∧ base ⊆ held a) :
    Gathers load draft asked intact (pure a) base held lost := by
  constructor
  · intro s b s' h
    obtain ⟨hb, rfl⟩ := runs_pure.mp h
    cases hb
    exact ⟨[], .start _, by simpa using hs, fun hi _ => by simpa using hc hi⟩
  · intro s e s' h
    cases (runs_pure.mp h).1

/-- Where nothing is asked for, nothing is held that was not held before. -/
theorem Gathers.held_subset {x : LoadM α} {held : α → List Schema} {lost : α → Prop}
    (hx : Gathers load draft (fun _ _ => False) intact x base held lost) {s s' : Session}
    {a : α} (h : Runs x s (.ok a) s') : held a ⊆ base := by
  obtain ⟨nodes, hv, hsub, _⟩ := hx.ok h
  simpa [hv.nodes_eq_nil] using hsub

/-- In a sequence the second step may count on what the first step gives. -/
theorem Gathers.bind_of_runs {x : LoadM α} {f : α → LoadM β} {held : α → List Schema}
    {held' : β → List Schema} {lost : α → Prop} {lost' : β → Prop}
    (hx : Gathers load draft asked intact x base held lost)
    (hf : ∀ s a s₁, Runs x s (.ok a) s₁ →
      Gathers load draft asked (intact ∧ ¬ lost a) (f a) (held a) held' lost') :
    Gathers load draft asked intact (x >>= f) base held' lost' := by
  constructor
  · intro s b s' h
    rcases runs_bind.mp h with ⟨a, s₁, ha, hb⟩ | ⟨e, _, he⟩
    · obtain ⟨nodes, hv, hsub, hall⟩ := hx.ok ha
      obtain ⟨nodes', hv', hsub', hall'⟩ := (hf s a s₁ ha).ok hb
      refine ⟨nodes ++ nodes', hv.trans hv', ?_, ?_⟩
      · intro t ht
        rw [← List.append_assoc]
        rcases List.mem_append.mp (hsub' ht) with h | h
        · exact List.mem_append_left _ (hsub h)
        · exact List.mem_append_right _ h
      · intro hi hq
        obtain ⟨hq₁, hq₂⟩ := Quiet.split hv hv' hq
        obtain ⟨hlost, hbase⟩ := hall hi hq₁
        obtain ⟨hlost', hbase'⟩ := hall' ⟨hi, hlost⟩ hq₂
        refine ⟨hlost', fun t ht => hbase' ?_⟩
        rw [← List.append_assoc] at ht
        rcases List.mem_append.mp ht with h | h
        · exact List.mem_append_left _ (hbase h)
        · exact List.mem_append_right _ h
    · cases he
  · intro s e s' h
    rcases runs_bind.mp h with ⟨a, s₁, ha, hb⟩ | ⟨e', he, heq⟩
    · obtain ⟨nodes, hv, _, _⟩ := hx.ok ha
      obtain ⟨nodes', s₂, location, value, hv', hasked, hr⟩ := (hf s a s₁ ha).error hb
      exact ⟨_, s₂, location, value, hv.trans hv', hasked, hr⟩
    · cases heq
      exact hx.error he

theorem Gathers.bind {x : LoadM α} {f : α → LoadM β} {held : α → List Schema}
    {held' : β → List Schema} {lost : α → Prop} {lost' : β → Prop}
    (hx : Gathers load draft asked intact x base held lost)
    (hf : ∀ a, Gathers load draft asked (intact ∧ ¬ lost a) (f a) (held a) held' lost') :
    Gathers load draft asked intact (x >>= f) base held' lost' :=
  hx.bind_of_runs fun _ a _ _ => hf a

theorem gathers_issue {severity : Severity} {kind : IssueKind} {location : Location}
    {message : String} (hk : kind.isFatal = false) :
    Gathers load draft asked intact (issue severity kind location message) base
      (fun _ => base) (fun _ => False) := by
  constructor
  · intro s a s' h
    obtain ⟨_, rfl⟩ := runs_issue.mp h
    exact ⟨[], .issue _ _ _ _ (.start s) hk, by simp, fun _ _ => by simp⟩
  · intro s e s' h
    cases (runs_issue.mp h).1

theorem gathers_malformed {kind : IssueKind} {location : Location} {message : String}
    (hk : kind.isFatal = false) :
    Gathers load draft asked intact (malformed kind location message) base
      (fun _ => base) (fun _ => False) := by
  constructor
  · intro s a s' h
    obtain ⟨_, rfl⟩ := runs_malformed.mp h
    exact ⟨[], .issue _ _ _ _ (.start s) hk, by simp, fun _ _ => by simp⟩
  · intro s e s' h
    cases (runs_malformed.mp h).1

theorem gathers_get :
    Gathers load draft asked intact (get : LoadM Session) base (fun _ => base)
      (fun _ => False) := by
  constructor
  · intro s a s' h
    obtain ⟨_, rfl⟩ := runs_get.mp h
    exact ⟨[], .start _, by simp, fun _ _ => by simp⟩
  · intro s e s' h
    cases (runs_get.mp h).1

theorem gathers_load {location : Location} {value : Json} (ha : asked location value) :
    Gathers load draft asked intact (load location value) base
      (fun found => base ++ found.toList) (· = none) := by
  constructor
  · intro s found s' h
    refine ⟨found.toList, by simpa using Visits.load (.start s) ha h, by simp, ?_⟩
    rintro _ ⟨context, hl, hc, heq⟩
    refine ⟨?_, by simp⟩
    rintro rfl
    exact hl.none hc h heq
  · intro s e s' h
    exact ⟨[], s, location, value, .start s, ha, h⟩

end Digest
end SchemaAtlas
