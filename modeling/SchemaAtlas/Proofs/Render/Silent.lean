import SchemaAtlas.Proofs.Loading.Keywords
import SchemaAtlas.Proofs.Render.Object

/-!
# Reading keywords without a word

An issue is never taken back, so a load that ends with the report that it began with has
recorded none in any of its steps. `LoadM.Silent` says what a step gives in that case, and keeps
of the session. Every function that reads a part of an object has one lemma here; the last one,
for all members, gives `Digest.TakesAll`.
-/

namespace SchemaAtlas

theorem Session.record_report_ne (s : Session) (severity : Severity) (kind : IssueKind)
    (document : Uri) (path : Pointer) (message : String) :
    (s.record severity kind document path message).report ≠ s.report := by
  intro h
  have hlen := congrArg (fun report => report.issues.length) h
  simp [Session.record] at hlen

namespace LoadM

variable {α β : Type} {I : Session → Prop} {good good' : α → Prop}

/-- A step that takes back no issue, and when it records none, keeps what holds of the session
and gives something good. -/
structure Silent (I : Session → Prop) (x : LoadM α) (good : α → Prop) : Prop where
  grown : ∀ {s r s'}, Runs x s r s' → s.report.issues <+: s'.report.issues
  ok : ∀ {s a s'}, I s → Runs x s (.ok a) s' → s'.report = s.report → I s' ∧ good a

namespace Silent

theorem mono {x : LoadM α} (h : Silent I x good) (hgood : ∀ a, good a → good' a) :
    Silent I x good' :=
  ⟨h.grown, fun hi hr hs => (h.ok hi hr hs).imp_right (hgood _)⟩

theorem pure {a : α} (h : good a) : Silent I (pure a) good where
  grown := by
    intro s r s' hr
    obtain ⟨-, rfl⟩ := runs_pure.mp hr
    exact List.prefix_refl _
  ok := by
    intro s b s' hi hr _
    obtain ⟨hb, rfl⟩ := runs_pure.mp hr
    cases hb
    exact ⟨hi, h⟩

/-- In a sequence no step records anything. What the first one gives is good for the second. -/
theorem bind_of_runs {x : LoadM α} {f : α → LoadM β} {better : β → Prop}
    (hx : Silent I x good)
    (hf : ∀ s a s₁, Runs x s (.ok a) s₁ → Silent I (f a) fun b => good a → better b) :
    Silent I (x >>= f) better where
  grown := by
    intro s r s' hr
    rcases runs_bind.mp hr with ⟨a, s₁, ha, hb⟩ | ⟨e, he, -⟩
    · exact (hx.grown ha).trans ((hf s a s₁ ha).grown hb)
    · exact hx.grown he
  ok := by
    intro s b s' hi hr hs
    obtain ⟨a, s₁, ha, hb⟩ := runs_bind_ok.mp hr
    have hsecond := hf s a s₁ ha
    have hback : s₁.report = s.report :=
      Report.eq_of_prefix (hx.grown ha) (hsecond.grown hb) hs
    obtain ⟨hi₁, hgood⟩ := hx.ok hi ha hback
    obtain ⟨hi', hbetter⟩ := hsecond.ok hi₁ hb (hs.trans hback.symm)
    exact ⟨hi', hbetter hgood⟩

theorem bind {x : LoadM α} {f : α → LoadM β} {better : β → Prop} (hx : Silent I x good)
    (hf : ∀ a, Silent I (f a) fun b => good a → better b) : Silent I (x >>= f) better :=
  hx.bind_of_runs fun _ a _ _ => hf a

theorem get_bind {f : Session → LoadM α} (hf : ∀ s, Silent I (f s) good) :
    Silent I (get >>= f) good where
  grown := fun hr => (hf _).grown (runs_get_bind.mp hr)
  ok := fun hi hr hs => (hf _).ok hi (runs_get_bind.mp hr) hs

/-- A step that records an issue is never silent. -/
theorem of_records {x : LoadM α} (h : ∀ {s r s'}, Runs x s r s' → ∃ severity kind document path
    message, s' = s.record severity kind document path message) : Silent I x good where
  grown := by
    intro s r s' hr
    obtain ⟨_, _, _, _, _, rfl⟩ := h hr
    exact List.prefix_append _ _
  ok := by
    intro s a s' _ hr hs
    obtain ⟨_, _, _, _, _, rfl⟩ := h hr
    exact absurd hs (Session.record_report_ne _ _ _ _ _ _)

theorem issue {severity : Severity} {kind : IssueKind} {location : Location} {message : String}
    {good : Unit → Prop} : Silent I (issue severity kind location message) good :=
  of_records fun hr => ⟨_, _, _, _, _, (runs_issue.mp hr).2⟩

theorem malformed {kind : IssueKind} {location : Location} {message : String}
    {good : Unit → Prop} : Silent I (malformed kind location message) good :=
  of_records fun hr => ⟨_, _, _, _, _, (runs_malformed.mp hr).2⟩

/-- A new node holds what it was made of. -/
theorem add {location : Location} {draft : Draft} {body : Body Schema} {good : Schema → Prop}
    (hadd : ∀ s, I s → I { s with store := (s.store.add location draft body).2 })
    (hgood : ∀ id, good (.node id location draft body)) :
    Silent I (onStore fun store => store.add location draft body) good where
  grown := by
    intro s r s' hr
    obtain ⟨-, rfl⟩ := runs_onStore.mp hr
    exact List.prefix_refl _
  ok := by
    intro s a s' hi hr _
    obtain ⟨ha, rfl⟩ := runs_onStore.mp hr
    cases ha
    exact ⟨hadd s hi, hgood _⟩

/-- A sequence that begins with a step which is never silent. -/
theorem bind_never {x : LoadM α} {f : α → LoadM β} {any better : β → Prop}
    (hx : Silent I x fun _ => False) (hf : ∀ a, Silent I (f a) any) :
    Silent I (x >>= f) better :=
  hx.bind fun a => (hf a).mono fun _ _ h => h.elim

theorem malformed_bind {kind : IssueKind} {location : Location} {message : String}
    {f : Unit → LoadM α} {any : α → Prop} (hf : Silent I (f ()) any) :
    Silent I (LoadM.malformed kind location message >>= f) good :=
  bind_never malformed fun _ => hf

/-- Something is reported about each of some things. -/
theorem forM_malformed {γ : Type} {kind : IssueKind} {location : Location}
    {message : γ → String} (list : List γ) :
    Silent I (list.forM fun c => LoadM.malformed kind location (message c)) fun _ => list = [] := by
  induction list with
  | nil => exact .pure rfl
  | cons c rest ih => exact .malformed_bind ih

end Silent
end LoadM

/-! ## Values that a reading accepts -/

theorem Json.eq_string {value : Json} {text : String} (h : value.string? = some text) :
    value = .string text := by
  cases value with
  | string => exact congrArg Json.string (Option.some.inj h)
  | null | bool | number | array | object => cases h

/-- The shape of a value says how it is made. -/
theorem Shape.made (value : Json) :
    match Shape.of value with
    | .array => ∃ elements, value = .array elements
    | .object => ∃ members, value = .object members
    | .string => ∃ text, value = .string text
    | .boolean => ∃ b, value = .bool b
    | .integer | .number => ∃ n, value = .number n
    | .null => value = .null
    | .any => False := by
  cases value with
  | number n =>
    have hshape : Shape.of (.number n) = .integer ∨ Shape.of (.number n) = .number := by
      cases n with
      | integer => exact Or.inl rfl
      | float x => by_cases hx : x.isWhole <;> simp [Shape.of, Shape.ofNumber, hx]
    rcases hshape with hshape | hshape <;> rw [hshape] <;> exact ⟨n, rfl⟩
  | null => rfl
  | bool | string | array | object => exact ⟨_, rfl⟩

/-- The shapes of the values that are read in some way. -/
def Reading.shapes : Reading → List Shape
  | .schema => [.object, .boolean]
  | .schemaList => [.array, .object]
  | .schemaMap | .dependencies => [.object]
  | .items => [.array, .object, .boolean]
  | .string | .pattern | .uri => [.string]
  | .positiveNumber | .limitValue => [.integer, .number]
  | .nonNegativeInteger => [.integer]
  | .boolean | .limitFlag => [.boolean]
  | .stringSet | .jsonList => [.array]
  | .types => [.string, .array]
  | .json => Shape.all

theorem Shape.name_of_ofName? {text : String} {shape : Shape} (h : Shape.ofName? text = some shape) :
    shape.name = text := by
  have hname := List.find?_some (p := fun shape : Shape => shape.name = text) h
  exact of_decide_eq_true hname

/-- The name of a type says the same as a list that holds it alone. -/
theorem Json.normalizeValue_typeName {draft : Draft} {key text : String} (hkey : key ≠ "$schema")
    (h : Shape.ofName? text ≠ none) :
    Json.normalizeValue draft key (some .types) (.array [.string text]) =
      Json.normalizeValue draft key (some .types) (.string text) := by
  obtain ⟨shape, hshape⟩ := Option.ne_none_iff_exists'.mp h
  rw [Json.normalizeValue, Json.normalizeValue_string hkey]
  simp [Json.namedTypes, Json.string?, hshape, Json.normalizeSchemas, Members.ofList,
    Members.insert, Json.normalTypes, Shape.name_of_ofName? hshape]

/-- Neither an empty list of types nor a count of more than 64 bits. -/
def Json.isPlain (reading : Option Reading) : Json → Bool
  | .array elements => reading ≠ some .types || !elements.isEmpty
  | .number n => reading ≠ some .nonNegativeInteger || n.whole < Nat.pow 2 64
  | _ => true

namespace Catalog

theorem mem_shapes : ∀ entry ∈ entries, ∀ shape ∈ Shape.all, entry.expects.accepts shape →
    shape ∈ entry.reading.shapes := by
  decide +kernel

theorem expects_of_boolean : ∀ entry ∈ entries, entry.reading = .schema →
    entry.expects.accepts .boolean → entry.expects = .boolean := by
  decide +kernel

end Catalog

namespace Digest

open LoadM Catalog

variable {I : Session → Prop} {load : Loader} {draft : Draft} {asked : Location → Json → Prop}

/-- A schema was found that copies the value. -/
def Finds (draft : Draft) (value : Json) (found : Option Schema) : Prop :=
  ∃ s, found = some s ∧ s.Copies draft value

/-- A keyword was made that writes the value. -/
def Makes (draft : Draft) (entry : CatalogEntry) (value : Json)
    (found : Option (Keyword Schema)) : Prop :=
  ∃ k, found = some k ∧ k.Writes draft entry.kind entry.key
    (Json.normalizeValue draft entry.key (some entry.reading) value)

theorem silent_checkPattern {location : Location} {pattern : String} :
    Silent I (checkPattern location pattern) fun _ => True := by
  unfold checkPattern
  split
  · exact .pure trivial
  · exact .issue

/-- The strings of an array that holds nothing else. -/
theorem silent_names {location : Location} {index : Nat} {elements : List Json} :
    Silent I (names location index elements) fun texts => elements = texts.map Json.string := by
  induction elements generalizing index with
  | nil => exact .pure rfl
  | cons value rest ih =>
    unfold names
    cases value with
    | string name => exact ih.bind fun texts => .pure fun htexts => by rw [htexts]; rfl
    | null | bool | number | array | object => exact .malformed_bind ih

/-- A flag stands beside a number. -/
theorem silent_limitFlag {site : Site} : Silent I (limitFlag site) fun _ =>
    ((Entries.get? (boundKey site.entry.kind) site.object).bind Json.number?).isSome := by
  unfold limitFlag
  dsimp only
  split
  · rename_i hnumber
    exact .pure hnumber
  · exact .malformed

/-! ## Schemas -/

/-- What a dependency is written as. -/
def renderDependency (draft : Draft) : Dependency Schema → Json
  | .schema s => s.render draft true
  | .properties names => .strings names

theorem renderValue_dependencies (entries : List (String × Dependency Schema)) :
    Schema.renderValue draft ((Keyword.dependencies entries).map (Schema.rendered draft)) =
      .object (Entries.mapValues (renderDependency draft) entries) := by
  refine congrArg Json.object ?_
  rw [Entries.mapValues, List.map_map, Entries.mapValues]
  refine List.map_congr_left fun entry _ => ?_
  obtain ⟨name, d⟩ := entry
  cases d <;> rfl

/-- What the names and schemas of a list of types are when all of them can be read. -/
structure TypesOf (draft : Draft) (elements : List Json) (found : List Shape × List Schema) :
    Prop where
  shapes : found.1 = Json.namedTypes elements
  schemas : found.2.map (Schema.render draft true) = Json.normalizeSchemas draft elements
  third : draft = .draft3 ∨ .any ∉ found.1 ∧ found.2 = []
  nonempty : elements ≠ [] → found.2 = [] → found.1 ≠ []

section

variable (hload : ∀ location value, asked location value →
  Silent I (load location value) (Finds draft value))

include hload

theorem silent_schemas {location : Location} {index : Nat} {elements : List Json}
    (ha : ∀ place ∈ elementPlaces location index elements, asked place.1 place.2) :
    Silent I (schemas load location index elements) fun found => ∃ list, found = some list ∧
      list.map (Schema.render draft true) = elements.map (Json.normalize draft) := by
  induction elements generalizing index with
  | nil => exact .pure ⟨[], rfl, rfl⟩
  | cons value rest ih =>
    rw [elementPlaces_cons] at ha
    refine (hload _ _ (ha _ List.mem_cons_self)).bind fun found => ?_
    cases found with
    | none =>
      refine .pure ?_
      rintro ⟨s, hs, -⟩
      cases hs
    | some s =>
      refine (ih fun place hp => ha place (List.mem_cons_of_mem _ hp)).bind fun found => .pure ?_
      rintro ⟨list, rfl, hlist⟩ ⟨_, hs, hcopies⟩
      cases hs
      exact ⟨s :: list, rfl, by rw [List.map_cons, List.map_cons, hcopies.render, hlist]⟩

theorem silent_schemaEntries {site : Site} {members : List (String × Json)}
    (ha : ∀ place ∈ memberPlaces site.location (members.filter (! ·.1.isEmpty)),
      asked place.1 place.2) :
    Silent I (schemaEntries load site members) fun entries =>
      Entries.mapValues (Schema.render draft true) entries =
        Json.normalizeEntries draft members := by
  induction members with
  | nil => exact .pure rfl
  | cons member rest ih =>
    obtain ⟨name, value⟩ := member
    unfold schemaEntries
    by_cases hn : name.isEmpty
    · simp only [hn, if_true]
      exact .malformed_bind (ih (by simpa [hn] using ha))
    · have hhere : asked (site.location.child name) value :=
        ha (site.location.child name, value) (by simp [memberPlaces, hn])
      have hrest := ih fun place hp => ha place (by
        simp only [memberPlaces, List.filter_cons, hn] at hp ⊢
        exact List.mem_cons_of_mem _ hp)
      have hnamed : ∀ {f : Option Schema → LoadM (List (String × Schema))},
          f none = schemaEntries load site rest →
          (∀ schema, f (some schema) = do
            return (name, schema) :: (← schemaEntries load site rest)) →
          Silent I (load (site.location.child name) value >>= f) fun entries =>
            Entries.mapValues (Schema.render draft true) entries =
              Json.normalizeEntries draft ((name, value) :: rest) := by
        intro f hnone hsome
        refine (hload _ _ hhere).bind fun found => ?_
        cases found with
        | none =>
          rw [hnone]
          refine hrest.mono fun entries _ => ?_
          rintro ⟨s, hs, -⟩
          cases hs
        | some s =>
          rw [hsome]
          refine hrest.bind fun entries => .pure ?_
          rintro hentries ⟨_, hs, hcopies⟩
          cases hs
          rw [Json.normalizeEntries, ← hentries, ← hcopies.render]
          rfl
      simp only [hn, Bool.false_eq_true, if_false]
      split
      · exact silent_checkPattern.bind fun _ => (hnamed rfl fun _ => rfl).mono fun _ h _ => h
      · exact hnamed rfl fun _ => rfl

theorem silent_dependency {location : Location} {name : String} {value : Json}
    (ha : isSchemaDependency value → asked location value) :
    Silent I (dependency load location name value) fun found => ∃ d, found = some d ∧
      renderDependency draft d = Json.normalizeDependency draft value := by
  have hschema : isSchemaDependency value →
      Silent I (do return (← load location value).map Dependency.schema) fun found =>
        ∃ d, found = some d ∧ renderDependency draft d = value.normalize draft := by
    intro hv
    refine (hload location value (ha hv)).bind fun found => .pure ?_
    rintro ⟨s, rfl, hcopies⟩
    exact ⟨_, rfl, hcopies.render⟩
  unfold dependency
  cases value with
  | array elements =>
    refine silent_names.bind fun texts => .pure fun htexts => ⟨_, rfl, ?_⟩
    simp [renderDependency, Json.normalizeDependency, Json.normalNames, htexts,
      List.filterMap_map, Function.comp_def, Json.string?]
  | string property => exact .pure ⟨_, rfl, rfl⟩
  | object members => exact hschema rfl
  | bool b => exact hschema rfl
  | null | number =>
    have hend : Silent I (pure none : LoadM (Option (Dependency Schema))) fun _ => True :=
      .pure trivial
    exact .malformed_bind hend

theorem silent_dependencyEntries {location : Location} {members : List (String × Json)}
    (ha : ∀ place ∈ memberPlaces location
      (members.filter fun entry => isSchemaDependency entry.2), asked place.1 place.2) :
    Silent I (dependencyEntries load location members) fun entries =>
      Entries.mapValues (renderDependency draft) entries =
        Json.normalizeDependencies draft members := by
  induction members with
  | nil => exact .pure rfl
  | cons member rest ih =>
    obtain ⟨name, value⟩ := member
    unfold dependencyEntries
    have hhere : isSchemaDependency value → asked (location.child name) value :=
      fun hv => ha (location.child name, value) (by simp [memberPlaces, hv])
    have hrest := ih fun place hp => ha place (by
      simp only [memberPlaces, List.filter_cons] at hp ⊢
      split
      · exact List.mem_cons_of_mem _ hp
      · exact hp)
    refine (silent_dependency hload hhere).bind fun found => ?_
    cases found with
    | none =>
      refine hrest.mono fun entries _ => ?_
      rintro ⟨d, hd, -⟩
      cases hd
    | some d =>
      refine hrest.bind fun entries => .pure ?_
      rintro hentries ⟨_, hd, hvalue⟩
      cases hd
      rw [Json.normalizeDependencies, ← hentries, ← hvalue]
      rfl

theorem silent_typeEntries {places : List (Location × Json)}
    (ha : ∀ place ∈ places, draft = .draft3 → Shape.of place.2 = .object →
      asked place.1 place.2) :
    Silent I (typeEntries load (draft = .draft3) places)
      (TypesOf draft (places.map Prod.snd)) := by
  induction places with
  | nil => exact .pure ⟨rfl, rfl, Or.inr ⟨List.not_mem_nil, rfl⟩, fun h => absurd rfl h⟩
  | cons place rest ih =>
    obtain ⟨location, value⟩ := place
    have hrest := ih fun place hp => ha place (List.mem_cons_of_mem _ hp)
    unfold typeEntries
    split
    · rename_i hv
      simp only [Bool.and_eq_true, decide_eq_true_eq] at hv
      obtain ⟨hthird, hobject⟩ := hv
      refine (hload _ _ (ha (location, value) List.mem_cons_self hthird hobject)).bind
        fun schema => hrest.bind fun found => .pure ?_
      rintro ⟨hshapes, hschemas, -, -⟩ ⟨s, rfl, hcopies⟩
      have hmade := Shape.made value
      rw [hobject] at hmade
      obtain ⟨members, rfl⟩ := hmade
      refine ⟨hshapes, ?_, Or.inl hthird, fun _ h => by cases h⟩
      simp [Json.normalizeSchemas, hschemas, hcopies.render, Json.normalize]
    · rename_i hv
      split
      · rename_i shape hshape
        obtain ⟨hnamed, hallowed⟩ := Option.filter_eq_some_iff.mp hshape
        obtain ⟨text, htext, hname⟩ := Option.bind_eq_some_iff.mp hnamed
        have hvalue := Json.eq_string htext
        refine hrest.bind fun found => .pure ?_
        rintro ⟨hshapes, hschemas, hthird, -⟩
        refine ⟨?_, ?_, ?_, fun _ _ => List.cons_ne_nil _ _⟩
        · simp [Json.namedTypes, hvalue, Json.string?, hname, hshapes]
        · simpa [hvalue, Json.normalizeSchemas] using hschemas
        · simp only [Bool.or_eq_true, decide_eq_true_eq] at hallowed
          rcases hthird with hthird | ⟨hany, hnone⟩
          · exact Or.inl hthird
          · refine hallowed.symm.imp_right fun hne => ⟨?_, hnone⟩
            exact fun hm => (List.mem_cons.mp hm).elim (fun h => hne h.symm) hany
      · exact .malformed_bind hrest

section

variable {site : Site} (he : site.entry ∈ entries) (hd : site.entry.appliesTo draft)
  (haccepts : site.entry.expects.accepts (Shape.of site.value))
  (ha : ∀ place ∈ nestedIn (.only draft) site.entry.reading site.location site.value,
    asked place.1 place.2)

include he hd haccepts ha

theorem silent_schemaList (hr : site.entry.reading = .schemaList) :
    Silent I (schemaList load site) (Makes draft site.entry site.value) := by
  have hmade := Shape.made site.value
  have hshape := mem_shapes _ he _ (Shape.mem_all _) haccepts
  rw [hr] at ha hshape
  unfold schemaList
  rcases List.mem_cons.mp hshape with hs | hs
  · rw [hs] at hmade
    obtain ⟨elements, hv⟩ := hmade
    rw [hv] at ha ⊢
    refine (silent_schemas hload ha).bind fun found => .pure ?_
    rintro ⟨list, rfl, hlist⟩
    exact ⟨_, rfl, Keyword.writes_schemaList he hd hr hlist⟩
  · rw [List.mem_singleton.mp hs] at hmade
    obtain ⟨members, hv⟩ := hmade
    rw [hv] at ha ⊢
    refine (hload _ _ (ha _ List.mem_cons_self)).bind fun found => .pure ?_
    rintro ⟨s, rfl, hcopies⟩
    exact ⟨_, rfl, Keyword.writes_singleSchema he hd hr hcopies⟩

theorem silent_items (hr : site.entry.reading = .items) :
    Silent I (items load site) (Makes draft site.entry site.value) := by
  have hshape := mem_shapes _ he _ (Shape.mem_all _) haccepts
  rw [hr] at ha hshape
  have hsingle : isSchemaDependency site.value → asked site.location site.value →
      Silent I (do return (← load site.location site.value).map Keyword.items)
        (Makes draft site.entry site.value) := by
    intro hv ha
    refine (hload _ _ ha).bind fun found => .pure ?_
    rintro ⟨s, rfl, hcopies⟩
    exact ⟨_, rfl, Keyword.writes_items he hd hr hv hcopies⟩
  unfold items
  have hmade := Shape.made site.value
  rcases List.mem_cons.mp hshape with hs | hs
  · rw [hs] at hmade
    obtain ⟨elements, hv⟩ := hmade
    rw [hv] at ha ⊢
    refine (silent_schemas hload ha).bind fun found => .pure ?_
    rintro ⟨list, rfl, hlist⟩
    exact ⟨_, rfl, Keyword.writes_tuple he hd hr hlist⟩
  · rcases List.mem_cons.mp hs with hs | hs
    · rw [hs] at hmade
      obtain ⟨members, hv⟩ := hmade
      rw [hv] at ha hsingle ⊢
      exact hsingle rfl (ha _ List.mem_cons_self)
    · rw [List.mem_singleton.mp hs] at hmade
      obtain ⟨b, hv⟩ := hmade
      rw [hv] at ha hsingle ⊢
      exact hsingle rfl (ha _ List.mem_cons_self)

theorem silent_types (hr : site.entry.reading = .types) (hne : site.value ≠ .array []) :
    Silent I (types load (.only draft) site) (Makes draft site.entry site.value) := by
  have hthird : (DraftSet.only draft).contains .draft3 = decide (draft = .draft3) := by
    cases draft <;> rfl
  have hshape := mem_shapes _ he _ (Shape.mem_all _) haccepts
  rw [hr] at ha hshape
  have hwrites : ∀ {elements : List Json} {found : List Shape × List Schema}, elements ≠ [] →
      TypesOf draft elements found →
      (if found.2.isEmpty then Keyword.types (Members.ofList found.1)
        else .union (Members.ofList found.1) found.2).Writes draft site.entry.kind site.entry.key
        (Json.normalizeValue draft site.entry.key (some site.entry.reading) (.array elements)) := by
    rintro elements ⟨shapes, schemas⟩ hne ⟨hshapes, hschemas, hallowed, hnonempty⟩
    subst hshapes
    exact Keyword.writes_types he hd hr hschemas hallowed (hnonempty hne)
  unfold types
  have hmade := Shape.made site.value
  rcases List.mem_cons.mp hshape with hs | hs
  · rw [hs] at hmade
    obtain ⟨text, hv⟩ := hmade
    rw [hthird, hv]
    refine (silent_typeEntries hload ?_).bind fun found => .pure fun htypes => ⟨_, rfl, ?_⟩
    · intro place hp _ hobject
      rw [List.mem_singleton.mp hp] at hobject
      cases hobject
    · have hkey := Keyword.key_ne_schema he (by rw [hr]; rfl)
      rw [hr, ← Json.normalizeValue_typeName hkey ?_, ← hr]
      · exact hwrites (List.cons_ne_nil _ _) htypes
      · have hnone : found.2 = [] := List.map_eq_nil_iff.mp htypes.schemas
        have hsome := htypes.nonempty (List.cons_ne_nil _ _) hnone
        rw [htypes.shapes] at hsome
        intro hname
        simp [Json.namedTypes, Json.string?, hname] at hsome
  · rw [List.mem_singleton.mp hs] at hmade
    obtain ⟨elements, hv⟩ := hmade
    rw [hv] at ha hne ⊢
    have hvalues : (elementPlaces site.location 0 elements).map Prod.snd = elements := by
      simp [elementPlaces, Function.comp_def]
    have hentries : Silent I (typeEntries load (draft = .draft3)
        (elementPlaces site.location 0 elements))
        (TypesOf draft ((elementPlaces site.location 0 elements).map Prod.snd)) := by
      refine silent_typeEntries hload fun place hp hdraft hobject => ha place ?_
      rw [nestedIn, hthird, if_pos (decide_eq_true hdraft)]
      exact List.mem_filter.mpr ⟨hp, decide_eq_true hobject⟩
    rw [hvalues] at hentries
    rw [hthird]
    refine hentries.bind fun found => .pure fun htypes => ⟨_, rfl, ?_⟩
    exact hwrites (fun h => hne (congrArg Json.array h)) htypes

/-! ## Keywords -/

omit hload haccepts ha in
theorem silent_uriText {text : String} (hv : site.value = .string text)
    (hr : site.entry.reading = .uri) :
    Silent I (uriText site text) fun k => Makes draft site.entry site.value (some k) := by
  have hend : Silent I (pure (Keyword.uri text)) fun k =>
      Makes draft site.entry site.value (some k) := by
    refine .pure ⟨_, rfl, ?_⟩
    rw [hv]
    exact Keyword.writes_uri he hd hr
  unfold uriText
  dsimp only
  split
  · exact hend
  · exact .malformed_bind hend

theorem silent_schema {builder : Builder} (hr : site.entry.reading = .schema)
    (hadd : ∀ s location draft body, I s →
      I { s with store := (s.store.add location draft body).2 }) :
    Silent I (keyword load (.only draft) builder site) (Makes draft site.entry site.value) := by
  have hmade := Shape.made site.value
  have hshape := mem_shapes _ he _ (Shape.mem_all _) haccepts
  rw [hr] at ha
  unfold keyword
  rcases List.mem_cons.mp (hr ▸ hshape) with hs | hs
  · rw [hs] at hmade
    obtain ⟨members, hv⟩ := hmade
    rw [hv] at ha ⊢
    simp only [hr]
    refine (hload _ _ (ha _ List.mem_cons_self)).bind fun found => .pure ?_
    rintro ⟨s, rfl, hcopies⟩
    exact ⟨_, rfl, Keyword.writes_schema he hd hr hcopies⟩
  · have hs := List.mem_singleton.mp hs
    have hexpects : site.entry.expects = .boolean := expects_of_boolean _ he hr (hs ▸ haccepts)
    rw [hs] at hmade
    obtain ⟨b, hv⟩ := hmade
    rw [hv]
    simp only [hr, hexpects, if_true]
    have hnode : Silent I (onStore fun store => store.add site.location builder.draft (.boolean b))
        fun s => s.body = .boolean b := .add (fun s => hadd s _ _ _) fun _ => rfl
    refine hnode.bind fun s => .pure fun hbody => ?_
    exact ⟨_, rfl, Keyword.writes_booleanSchema he hd hr hexpects hbody⟩

/-- A value that is no part of a bound makes a keyword that writes it. -/
theorem silent_keyword {builder : Builder} (hbounds : site.entry.kind ∉ bounds)
    (hplain : site.value.isPlain (some site.entry.reading))
    (hadd : ∀ s location draft body, I s →
      I { s with store := (s.store.add location draft body).2 }) :
    Silent I (keyword load (.only draft) builder site) (Makes draft site.entry site.value) := by
  have hmade := Shape.made site.value
  have hshape := mem_shapes _ he _ (Shape.mem_all _) haccepts
  have hmakes : ∀ k : Keyword Schema, k.Writes draft site.entry.kind site.entry.key
      (Json.normalizeValue draft site.entry.key (some site.entry.reading) site.value) →
      Silent I (pure (some k)) (Makes draft site.entry site.value) :=
    fun k hk => .pure ⟨k, rfl, hk⟩
  have hnothing : Silent I (pure none : LoadM (Option (Keyword Schema))) fun _ => True :=
    .pure trivial
  rw [bounded.mem _ he] at hbounds
  obtain ⟨hvalue, hflag⟩ := not_or.mp hbounds
  cases hr : site.entry.reading with
  | schema => exact silent_schema hload he hd haccepts ha hr hadd
  | schemaList =>
    simp only [keyword, hr]
    exact silent_schemaList hload he hd haccepts ha hr
  | schemaMap =>
    rw [hr] at hshape
    rw [List.mem_singleton.mp hshape] at hmade
    obtain ⟨members, hv⟩ := hmade
    rw [hr, hv] at ha
    simp only [keyword, hr, hv]
    refine (silent_schemaEntries hload ha).bind fun entries => .pure fun hentries => ?_
    exact ⟨_, rfl, Keyword.writes_schemaMap he hd hr hentries⟩
  | items =>
    simp only [keyword, hr]
    exact silent_items hload he hd haccepts ha hr
  | dependencies =>
    rw [hr] at hshape
    rw [List.mem_singleton.mp hshape] at hmade
    obtain ⟨members, hv⟩ := hmade
    rw [hr, hv] at ha
    simp only [keyword, hr, hv]
    refine (silent_dependencyEntries hload ha).bind fun entries => .pure fun hentries => ?_
    refine ⟨_, rfl, Keyword.writes_dependencies he hd hr ?_⟩
    rw [renderValue_dependencies, hentries]
  | string =>
    rw [hr] at hshape
    rw [List.mem_singleton.mp hshape] at hmade
    obtain ⟨text, hv⟩ := hmade
    simp only [keyword, hr, hv] at hmakes ⊢
    exact hmakes _ (hr ▸ Keyword.writes_string he hd (by rw [hr]; rfl))
  | pattern =>
    rw [hr] at hshape
    rw [List.mem_singleton.mp hshape] at hmade
    obtain ⟨text, hv⟩ := hmade
    simp only [keyword, hr, hv] at hmakes ⊢
    exact silent_checkPattern.bind fun _ => (hmakes _
      (hr ▸ Keyword.writes_string he hd (by rw [hr]; rfl))).mono fun _ h _ => h
  | uri =>
    rw [hr] at hshape
    rw [List.mem_singleton.mp hshape] at hmade
    obtain ⟨text, hv⟩ := hmade
    simp only [keyword, hr, hv]
    exact (silent_uriText he hd hv hr).bind fun k => .pure fun h => hv ▸ h
  | positiveNumber =>
    obtain ⟨n, hv⟩ : ∃ n, site.value = .number n := by
      rw [hr] at hshape
      rcases List.mem_cons.mp hshape with hs | hs
      · rwa [hs] at hmade
      · rwa [List.mem_singleton.mp hs] at hmade
    simp only [keyword, hr, hv, positiveNumber] at hmakes ⊢
    split
    · exact hmakes _ (hr ▸ Keyword.writes_number he hd hr)
    · exact .malformed_bind hnothing
  | nonNegativeInteger =>
    rw [hr] at hshape
    rw [List.mem_singleton.mp hshape] at hmade
    obtain ⟨n, hv⟩ := hmade
    simp only [keyword, hr, hv, count] at hmakes ⊢
    split
    · rename_i k hk
      refine hmakes _ (hr ▸ Keyword.writes_count he hd hr hk ?_)
      simpa [hv, hr, Json.isPlain] using hplain
    · exact .malformed_bind hnothing
  | boolean =>
    rw [hr] at hshape
    rw [List.mem_singleton.mp hshape] at hmade
    obtain ⟨b, hv⟩ := hmade
    simp only [keyword, hr, hv] at hmakes ⊢
    exact hmakes _ (hr ▸ Keyword.writes_boolean he hd hr)
  | stringSet =>
    rw [hr] at hshape
    rw [List.mem_singleton.mp hshape] at hmade
    obtain ⟨elements, hv⟩ := hmade
    simp only [keyword, hr, hv]
    refine silent_names.bind fun texts => .pure ?_
    rintro rfl
    exact ⟨_, rfl, Keyword.writes_names he hd hr⟩
  | types =>
    simp only [keyword, hr]
    refine silent_types hload he hd haccepts ha hr fun hv => ?_
    simp [hv, hr, Json.isPlain] at hplain
  | limitValue => exact absurd hr hvalue
  | limitFlag => exact absurd hr hflag
  | json =>
    simp only [keyword, hr] at hmakes ⊢
    exact hmakes _ (hr ▸ Keyword.writes_json he hd hr)
  | jsonList =>
    rw [hr] at hshape
    rw [List.mem_singleton.mp hshape] at hmade
    obtain ⟨elements, hv⟩ := hmade
    simp only [keyword, hr, hv] at hmakes ⊢
    exact hmakes _ (hr ▸ Keyword.writes_jsonList he hd hr)

end

/-! ## Objects -/

variable (hadd : ∀ s location draft body, I s →
  I { s with store := (s.store.add location draft body).2 })

include hadd

theorem silent_tryCandidates {object : List (String × Json)} {key : String} {location : Location}
    {value : Json} {builder : Builder} {entry : CatalogEntry}
    (he : entryFor? draft key value = some entry)
    (hplain : value.isPlain (some entry.reading))
    (ha : ∀ place ∈ nestedIn (.only draft) entry.reading location value,
      asked place.1 place.2) :
    Silent I (tryCandidates load (.only draft) object location value builder [entry])
      (Takes draft object key value builder) := by
  obtain ⟨hm, rfl, hd, haccepts⟩ := entryFor?_some he
  have hmade := Shape.made value
  have hshape := mem_shapes _ hm _ (Shape.mem_all _) haccepts
  unfold tryCandidates
  by_cases hb : entry.kind ∈ bounds
  · rcases (bounded.mem _ hm).mp hb with hr | hr
    · obtain ⟨n, rfl⟩ : ∃ n, value = .number n := by
        rw [hr] at hshape
        rcases List.mem_cons.mp hshape with hs | hs
        · rwa [hs] at hmade
        · rwa [List.mem_singleton.mp hs] at hmade
      simp only [keyword, hr, pure_bind]
      exact .pure (.bound he hr)
    · obtain ⟨b, rfl⟩ : ∃ b, value = .bool b := by
        rw [hr] at hshape
        rwa [List.mem_singleton.mp hshape] at hmade
      simp only [keyword, hr, bind_assoc, pure_bind]
      exact silent_limitFlag.bind fun _ => .pure fun hnumber => .flag he hr hnumber
  · refine (silent_keyword hload hm hd haccepts ha hb hplain hadd).bind fun found => ?_
    cases found with
    | none =>
      refine .pure ?_
      rintro ⟨k, hk, -⟩
      cases hk
    | some k =>
      refine .pure ?_
      rintro ⟨_, hk, hw⟩
      cases hk
      exact .keyword he hb hw

theorem silent_member {object : List (String × Json)} {key : String} {value : Json}
    {builder : Builder}
    (ha : ∀ place ∈ nested (.only draft) builder.location [(key, value)], asked place.1 place.2)
    (hplain : value.isPlain (reading? draft key value)) :
    Silent I (member load (.only draft) object key value builder)
      (Takes draft object key value builder) := by
  unfold member
  dsimp only
  split
  · rename_i hnone
    have hkind : kindIn? draft key = none := applicable_eq_nil.mp (List.isEmpty_iff.mp hnone)
    refine .get_bind fun s => ?_
    split
    · have hend : Silent I (pure builder) fun _ => True := .pure trivial
      exact .bind_never .issue fun _ => hend
    · exact .pure (.kept hkind)
  · rename_i hsome
    have hne : Catalog.applicable key (.only draft) ≠ [] := by simpa using hsome
    rw [matching_eq]
    cases he : entryFor? draft key value with
    | none =>
      refine (Silent.forM_malformed _).bind fun _ => .pure fun hnil => ?_
      exact absurd hnil hne
    | some entry =>
      rw [reading?, he] at hplain
      refine silent_tryCandidates hload hadd he hplain fun place hp => ?_
      refine ha place (mem_nested List.mem_cons_self ?_ hp)
      rw [matching_eq, he]
      exact List.mem_cons_self

/-- All members of an object are taken in when nothing is reported. -/
theorem silent_members {object list : List (String × Json)} {builder : Builder}
    (ha : ∀ place ∈ nested (.only draft) builder.location list, asked place.1 place.2)
    (hplain : ∀ key value, (key, value) ∈ list → value.isPlain (reading? draft key value)) :
    Silent I (members load (.only draft) object list builder)
      (TakesAll draft object list builder) := by
  induction list generalizing builder with
  | nil => exact .pure (.nil builder)
  | cons entry rest ih =>
    obtain ⟨key, value⟩ := entry
    unfold members
    have hhere : Silent I (member load (.only draft) object key value builder)
        (Takes draft object key value builder) := by
      refine silent_member hload hadd (fun place hp => ha place ?_)
        (hplain key value List.mem_cons_self)
      exact List.mem_flatMap.mpr ⟨(key, value), List.mem_cons_self, by simpa [nested] using hp⟩
    refine hhere.bind_of_runs fun s after s' hr => ?_
    have hlocation := (member_keeps hr).location
    refine Silent.mono (ih (fun place hp => ha place ?_) fun key value hm =>
      hplain key value (List.mem_cons_of_mem _ hm)) fun _ hrest hfirst => .cons hfirst hrest
    rw [hlocation] at hp
    obtain ⟨member, hm, hp⟩ := List.mem_flatMap.mp hp
    exact List.mem_flatMap.mpr ⟨member, List.mem_cons_of_mem _ hm, hp⟩

end

end Digest
end SchemaAtlas
