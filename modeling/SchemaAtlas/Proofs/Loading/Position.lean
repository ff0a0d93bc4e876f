import SchemaAtlas.Proofs.Loading.Frame
import Mathlib.Logic.Relation

/-!
# The positions that a load comes to

A position is a value of a document with its location. From an object a load goes on to the
nested places of its keywords, and from a reference to the first of some documents that has
what the URI names. Which documents these are is settled when the load begins, so
`Library.target?` is a function of the reference alone. The main statements tie the steps
of a running load to these two kinds of moves.
-/

namespace SchemaAtlas

/-- Where a location stands, whatever its scope. -/
def Location.place (l : Location) : Uri × Pointer := (l.document, l.path)

theorem Location.place_withId {l l' : Location} {id : String} (h : l.withId id = .ok l') :
    l'.place = l.place := by
  obtain ⟨hdocument, hpath, _⟩ := withId_path h
  rw [place, place, hdocument, hpath]

/-- An identifier changes the scope of a value, not its place. -/
theorem Lookup.place_rescope (keys : List String) (location : Location) (value : Json) :
    (rescope keys location value).place = location.place := by
  unfold rescope
  split
  · split
    · rename_i hw
      exact Location.place_withId hw
    · rfl
  · rfl

/-- A value with its location, in the document that it is read in. -/
structure Position where
  context : OpenDocument
  location : Location
  value : Json

/-- The position that a URI names in a document, if a schema can be read there. -/
def OpenDocument.find? (document : OpenDocument) (uri : Uri) : Option Position :=
  match document.locate uri with
  | some (location, value) =>
    if document.accepts value then some ⟨document, location, value⟩ else none
  | none => none

namespace Position

/-- The members of an object that is no reference. -/
def members? (p : Position) : Option (List (String × Json)) :=
  match p.value with
  | .object members => if Entries.contains "$ref" members then none else some members
  | _ => none

/-- The reference text of an object, if it has one. -/
def written? (p : Position) : Option String := (p.value.member? "$ref").bind Json.string?

/-- The URI that a reference names. -/
def refers? (p : Position) : Option Uri :=
  p.written?.bind fun written => (p.location.resolve written).toOption

theorem value_of_members? {p : Position} {members : List (String × Json)}
    (h : p.members? = some members) : p.value = .object members := by
  unfold members? at h
  split at h
  · rename_i hv
    split at h
    · cases h
    · cases h
      exact hv
  · cases h

theorem members?_of_object (p : Position) {object : List (String × Json)}
    (hv : p.value = .object object) (href : Entries.get? "$ref" object = none) :
    p.members? = some object := by
  simp [members?, hv, Entries.contains, href]

theorem refers?_of_object (p : Position) {object : List (String × Json)} {written : String}
    {uri : Uri} (hv : p.value = .object object)
    (href : Entries.get? "$ref" object = some (.string written))
    (hu : p.location.resolve written = .ok uri) : p.refers? = some uri := by
  simp [refers?, written?, hv, Json.member?, href, Json.string?, hu, Except.toOption]

/-- The location inside an object, in the scope of its identifier. -/
def inner (p : Position) : Location :=
  Lookup.rescope p.context.active.idKeys p.location p.value

end Position

/-- The URIs under which an object that is no reference is known. -/
def Position.answers (p : Position) (uri : Uri) : Prop :=
  uri = p.location.pointerUri ∨ uri = p.location.uri ∨
    (Lookup.declaredId? p.context.active.idKeys p.value ≠ none ∧ uri = p.inner.uri)

/-- What a load looks references up in: the document that it began with, and those at URIs. -/
structure Library where
  first : OpenDocument
  remote? : Uri → Option OpenDocument

namespace Library

/-- The documents in which a reference is looked for first. -/
def nearby (lib : Library) (context : OpenDocument) : List OpenDocument :=
  if context.uri = lib.first.uri then [context] else [context, lib.first]

/-- The position that a URI names for a reference in a document. -/
def target? (lib : Library) (context : OpenDocument) (uri : Uri) : Option Position :=
  (Loading.candidates (lib.nearby context) lib.remote? uri).findSome? (·.find? uri)

/-- One move of a load from position to position. -/
inductive Leads (lib : Library) : Position → Position → Prop
  | nested {p : Position} {members : List (String × Json)} {place : Location × Json} :
      p.members? = some members →
      place ∈ Digest.nested p.context.active p.inner members →
      Leads lib p ⟨p.context, place.1, place.2⟩
  | follows {p q : Position} {uri : Uri} : p.refers? = some uri →
      lib.target? p.context uri = some q → Leads lib p q

/-- The positions that a load from `start` can come to. -/
abbrev Meets (lib : Library) (start : Position) : Position → Prop :=
  Relation.ReflTransGen lib.Leads start

end Library

namespace Session

/-- The session is inside of a document, with a library behind it. -/
structure Inside (lib : Library) (context : OpenDocument) (s : Session) : Prop where
  current? : s.current? = some context
  first : s.stack.getLast? = some lib.first
  remote? : s.remote? = lib.remote?

variable {lib : Library} {context : OpenDocument} {s s' s₁ s₂ : Session}

theorem Inside.nearby (h : s.Inside lib context) : s.nearby = lib.nearby context := by
  have hc : s.stack.head? = some context := h.current?
  rw [Session.nearby, hc, h.first]
  rfl

theorem Inside.frame (h : s.Inside lib context) (hf : Frame s s') : s'.Inside lib context where
  current? := hf.current?.trans h.current?
  first := by
    rw [hf.stack]
    exact h.first
  remote? := hf.remote?.trans h.remote?

theorem Inside.push (h : s.Inside lib context) (document : OpenDocument) :
    (s.push document).Inside lib document where
  current? := rfl
  first := by
    have hf := h.first
    cases hs : s.stack with
    | nil =>
      rw [hs] at hf
      cases hf
    | cons top rest =>
      rw [hs] at hf
      rw [Session.push, hs, List.getLast?_cons_cons]
      exact hf
  remote? := h.remote?

theorem Inside.enter (h : s.Inside lib context) (uris : List Uri) :
    (s.enter uris).Inside lib context :=
  ⟨h.current?, h.first, h.remote?⟩

theorem Inside.beginResolving (h : s.Inside lib context) (uri : Uri) :
    (s.beginResolving uri).Inside lib context :=
  ⟨h.current?, h.first, h.remote?⟩

/-- Nothing was done but to report issues and to open documents. -/
def Idle (s s' : Session) : Prop :=
  s' = { s with report := s'.report, documents := s'.documents, opened := s'.opened }

theorem Idle.refl (s : Session) : Idle s s := rfl

theorem Idle.trans (h : Idle s s₁) (h' : Idle s₁ s₂) : Idle s s₂ := by
  rw [Idle] at h h' ⊢
  rw [h'] at ⊢
  rw [h]

/-- A session with the same tables. -/
structure Alike (s s' : Session) : Prop where
  store : s'.store = s.store
  inProgress : s'.inProgress = s.inProgress
  built : s'.built = s.built
  cache : s'.cache = s.cache

theorem Idle.alike (h : Idle s s') : Alike s s' := by
  rw [Idle] at h
  rw [h]
  exact ⟨rfl, rfl, rfl, rfl⟩

theorem idle_record (s : Session) (severity : Severity) (kind : IssueKind) (document : Uri)
    (path : Pointer) (message : String) :
    Idle s (s.record severity kind document path message) := rfl

theorem openDocument_idle (s : Session) (uri : Uri) (value : Json) :
    Idle s (s.openDocument uri value).2 := by
  unfold openDocument
  split
  · rfl
  · dsimp only
    split <;> rfl

theorem openDocument_report (s : Session) (uri : Uri) (value : Json) :
    ∀ issue ∈ (s.openDocument uri value).2.report.issues,
      issue ∈ s.report.issues ∨ issue.kind = .unknownMetaSchema := by
  unfold openDocument
  split
  · exact fun issue hi => Or.inl hi
  · dsimp only
    split
    · intro issue hi
      rcases List.mem_append.mp hi with hi | hi
      · exact Or.inl hi
      · cases List.mem_singleton.mp hi
        exact Or.inr rfl
    · exact fun issue hi => Or.inl hi

theorem Opens.idle {uri : Uri} {document : OpenDocument} (h : Opens uri s document s') :
    Idle s s' := by
  cases h with
  | again => exact .refl s
  | loaded => exact openDocument_idle s uri _
  | @fetched value documents =>
    have hload : Idle s { s with documents } := rfl
    exact hload.trans (openDocument_idle _ uri value)

end Session

namespace Loading

open LoadM

variable {load : NodeLoader} {lib : Library} {context : OpenDocument} {uri : Uri} {hops : Nat}
variable {s s' : Session}

/-- A document that was looked through in vain has nothing that can be read at the URI. -/
theorem Framed.searches_vain (hl : Framed load) {documents : List OpenDocument}
    (h : Searches load uri hops s documents s') :
    Session.Idle s s' ∧ ∀ document ∈ documents, document.find? uri = none := by
  induction h with
  | start => exact ⟨.refl _, by simp⟩
  | @absent s₁ documents document _ hlocate ih =>
    obtain ⟨hi, hall⟩ := ih
    refine ⟨hi, ?_⟩
    intro other hother
    rcases List.mem_append.mp hother with h | h
    · exact hall other h
    · rw [List.mem_singleton.mp h, OpenDocument.find?, hlocate]
  | @refused s₁ s₂ documents document location value _ hlocate hr ih =>
    obtain ⟨hi, hall⟩ := ih
    obtain ⟨ha, severity, message, rfl⟩ := hl.refusal rfl hr
    refine ⟨hi.trans rfl, ?_⟩
    intro other hother
    rcases List.mem_append.mp hother with h | h
    · exact hall other h
    · rw [List.mem_singleton.mp h, OpenDocument.find?, hlocate]
      simp [ha]
  | opened _ ho ih => exact ⟨ih.1.trans ho.idle, ih.2⟩

/-- The first place of a URI that can be read is what the library has for it. -/
theorem Framed.target?_of_accepts (hl : Framed load) (hin : s.Inside lib context)
    {searched before after : List OpenDocument} {document : OpenDocument} {s₀ s₁ : Session}
    {location : Location} {value : Json} (hs₀ : Searches load uri hops s searched s₀)
    (hc : candidates s.nearby s₀.remote? uri = before ++ document :: after)
    (hs : Searches load uri hops s before s₁)
    (hlocate : document.locate uri = some (location, value))
    (haccepts : document.accepts value = true) :
    lib.target? context uri = some ⟨document, location, value⟩ := by
  have hremote : s₀.remote? = lib.remote? := (hl.searches hs₀).1.remote?.trans hin.remote?
  have hbefore : before.findSome? (·.find? uri) = none :=
    List.findSome?_eq_none_iff.mpr (hl.searches_vain hs).2
  rw [Library.target?, ← hin.nearby, ← hremote, hc, List.findSome?_append, hbefore,
    Option.none_or, List.findSome?_cons, OpenDocument.find?, hlocate]
  simp [haccepts]

/-- What was found for a URI is what the library has for it. -/
theorem Framed.target?_eq (hl : Framed load) (hin : s.Inside lib context)
    {searched before after : List OpenDocument} {document : OpenDocument} {s₀ s₁ s₂ : Session}
    {location : Location} {value : Json} {r : Except Stop (Option Schema)}
    (hs₀ : Searches load uri hops s searched s₀)
    (hc : candidates s.nearby s₀.remote? uri = before ++ document :: after)
    (hs : Searches load uri hops s before s₁)
    (hlocate : document.locate uri = some (location, value))
    (hr : Runs (load location value (hops + 1)) (s₁.push document) r s₂)
    (hnone : r ≠ .ok none) (hend : r ≠ .error .exhausted) :
    lib.target? context uri = some ⟨document, location, value⟩ :=
  hl.target?_of_accepts hin hs₀ hc hs hlocate (hl.accepts rfl hr hnone hend)

theorem Identified.inner_eq {p : Position} {inner : Location}
    {object : List (String × Json)} {declared : List Uri}
    (h : Identified p.context.active.idKeys p.location object s inner declared s')
    (hv : p.value = .object object) : inner = p.inner := by
  rw [Position.inner, hv]
  cases h with
  | anonymous hid => simp [Lookup.rescope, hid]
  | declared hid hw => simp [Lookup.rescope, hid, hw]
  | repeated hid hw => simp [Lookup.rescope, hid, hw]
  | broken hid hw => simp [Lookup.rescope, hid, hw]

theorem Identified.answers {p : Position} {inner : Location}
    {object : List (String × Json)} {declared : List Uri}
    (h : Identified p.context.active.idKeys p.location object s inner declared s')
    (hv : p.value = .object object) (hu : uri ∈ p.location.pointerUri :: p.location.uri :: declared) :
    p.answers uri := by
  rcases List.mem_cons.mp hu with rfl | hu
  · exact Or.inl rfl
  · rcases List.mem_cons.mp hu with rfl | hu
    · exact Or.inr (Or.inl rfl)
    · cases h with
      | declared hid hw =>
        rw [List.mem_singleton.mp hu]
        refine Or.inr (Or.inr ⟨by simp [hv, hid], ?_⟩)
        simp [Position.inner, Lookup.rescope, hv, hid, hw]
      | anonymous => cases hu
      | repeated => cases hu
      | broken => cases hu

theorem Identified.idle {keys : List String} {location inner : Location}
    {object : List (String × Json)} {declared : List Uri}
    (h : Identified keys location object s inner declared s') : Session.Idle s s' := by
  cases h <;> rfl

/-- The new scope of an object is one of its own place. -/
theorem Identified.place {keys : List String} {location inner : Location}
    {object : List (String × Json)} {declared : List Uri}
    (h : Identified keys location object s inner declared s') : inner.place = location.place := by
  cases h with
  | anonymous => rfl
  | declared _ hw => exact Location.place_withId hw
  | repeated _ hw => exact Location.place_withId hw
  | broken => rfl

theorem Identified.inside {keys : List String} {location inner : Location}
    {object : List (String × Json)} {declared : List Uri}
    (h : Identified keys location object s inner declared s') (hin : s.Inside lib context)
    (uris : List Uri) : (s'.enter uris).Inside lib context := by
  exact (hin.frame h.frame.1).enter uris

end Loading
end SchemaAtlas
