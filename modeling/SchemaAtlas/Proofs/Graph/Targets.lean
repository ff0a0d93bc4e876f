import SchemaAtlas.Proofs.Graph.Resolved
import SchemaAtlas.Proofs.Lookup.Places

/-!
# Where references lead

In a document without identifiers whose references all stay in it, a URI names the path
that its fragment writes. Following a URI goes to the value at that path and on from there
while it is a reference; `target_of_reference` says that a loaded reference has the node of
the last position as its target, whichever way the load came by that node.
-/

namespace SchemaAtlas

/-! ## Following URIs in a document -/

namespace Json

/-- The positions that following a URI passes, with `root` as the URI of the document. -/
inductive Arrives (document : Json) (root : Uri) : Uri → List String → Prop
  | here {uri : Uri} {path : List String} : uri.place? = some path →
      Arrives document root uri path
  | next {uri uri' : Uri} {path path' : List String} {value : Json} {written : String} :
      uri.place? = some path → document.at? path = some value →
      value.member? "$ref" = some (.string written) →
      (root.join written).map Uri.normalized = .ok uri' → Arrives document root uri' path' →
      Arrives document root uri path'

/-- Following a URI ends at a value that is no reference. -/
def LeadsTo (document : Json) (root uri : Uri) (path : List String) : Prop :=
  document.Arrives root uri path ∧
    ∃ value, document.at? path = some value ∧ value.member? "$ref" = none

theorem LeadsTo.unique {document : Json} {root uri : Uri} {path path' : List String}
    (h : document.LeadsTo root uri path) (h' : document.LeadsTo root uri path') :
    path = path' := by
  obtain ⟨harrives, value, hat, hplain⟩ := h
  obtain ⟨harrives', value', hat', hplain'⟩ := h'
  induction harrives with
  | here hplace =>
    cases harrives' with
    | here hplace' => exact Option.some.inj (hplace.symm.trans hplace')
    | next hplace' hvalue href _ _ =>
      cases Option.some.inj (hplace.symm.trans hplace')
      cases Option.some.inj (hat.symm.trans hvalue)
      rw [hplain] at href
      cases href
  | next hplace hvalue href huri _ ih =>
    cases harrives' with
    | here hplace' =>
      cases Option.some.inj (hplace.symm.trans hplace')
      cases Option.some.inj (hat'.symm.trans hvalue)
      rw [hplain'] at href
      cases href
    | next hplace' hvalue' href' huri' harrives' =>
      cases Option.some.inj (hplace.symm.trans hplace')
      cases Option.some.inj (hvalue.symm.trans hvalue')
      cases Option.some.inj (href.symm.trans href')
      cases Except.ok.inj (huri.symm.trans huri')
      exact ih hat harrives'

end Json

/-! ## References that stay in their document -/

namespace Uri

theorem clean_cons {c : Char} (hedge : ¬ c.toNat ≤ 32) (htab : isTabOrNewline c = false)
    (cs : List Char) : ∃ rest, clean (c :: cs) = c :: rest := by
  have hend : ∃ rest, ((c :: cs).reverse.dropWhile fun c => decide (c.toNat ≤ 32)).reverse =
      c :: rest := by
    rw [List.reverse_cons, List.dropWhile_append]
    split
    · exact ⟨[], by simp [hedge]⟩
    · exact ⟨_, by rw [List.reverse_append]; rfl⟩
  obtain ⟨rest, hrest⟩ := hend
  refine ⟨rest.filter (! isTabOrNewline ·), ?_⟩
  unfold clean
  dsimp only
  rw [List.dropWhile_cons_of_neg (by simpa using hedge), hrest, List.filter_cons_of_pos]
  simp [htab]

/-- A reference that is a fragment changes the fragment only. -/
theorem join_fragment (base : Uri) {reference : String} (h : reference.front = '#') :
    ∃ fragment, base.join reference = .ok { base with fragment := some fragment } := by
  obtain ⟨cs, hcs⟩ := toList_of_front h (by decide)
  obtain ⟨rest, hrest⟩ := clean_cons (c := '#') (by decide) (by decide) cs
  have hscheme : splitScheme? ('#' :: rest) = none := rfl
  have hparts : Parts.of ('#' :: rest) = ⟨[], none, some rest⟩ := rfl
  unfold join readWith
  rw [hcs, hrest]
  simp only [hscheme, hparts]
  exact ⟨_, rfl⟩

theorem withoutFragment_of_fragment {base uri : Uri} {fragment : String}
    (hbase : base.withoutFragment = base)
    (h : uri = { base with fragment := some fragment }) :
    uri.normalized.withoutFragment = base := by
  have huri : uri.withoutFragment = base := by
    rw [h]
    exact hbase
  unfold normalized
  split
  · rw [withoutFragment_idem, huri]
  · exact huri

end Uri

namespace Load

/-- The positions that a load can come to. -/
def Meets (l : Load) (p : Position) : Prop :=
  ∃ start, l.start? = some start ∧ l.library.Meets start p

/-- The document has no identifiers. -/
structure IsPlain (l : Load) : Prop where
  root : l.documentUri.withoutFragment = l.documentUri
  stored : l.document.all Json.isStored = true
  anonymous : Lookup.Anonymous l.context.active.idKeys l.document

/-- The document has no identifiers, and the references that are met stay in it. -/
structure IsLocal (l : Load) : Prop extends l.IsPlain where
  fragment : ∀ p written, l.Meets p → p.written? = some written → written.front = '#'

/-- A position of the document, whose location is the path to its value. -/
structure Places (l : Load) (p : Position) (path : List String) : Prop where
  context : p.context = l.context
  location : p.location = .inDocument l.documentUri path
  value : l.document.at? path = some p.value

end Load

/-- The account that a node is known under the URIs that name its position. -/
def Account.pointing (l : Load) : Account where
  reads p := l.Meets p ∧ ∃ path, l.Places p path
  names uri t := t.location.document = l.documentUri ∧
    uri.place? = some t.location.path.segments ∧
    ∃ value, l.document.at? t.location.path.segments = some value ∧
      (t.reference? = none ∧ value.member? "$ref" = none ∨
        ∃ r written, t.reference? = some r ∧ value.member? "$ref" = some (.string written) ∧
          (l.documentUri.join written).map Uri.normalized = .ok r.uri)
  ends uri t := t.location.document = l.documentUri ∧
    l.document.LeadsTo l.documentUri uri t.location.path.segments
  awaits uri waiting := ∀ path, waiting.place? = some path →
    l.document.Arrives l.documentUri uri path

namespace Load

variable {l : Load} {p q : Position} {path : List String} {uri : Uri}

theorem IsPlain.normalized (h : l.IsPlain) : l.documentUri.normalized = l.documentUri :=
  Uri.normalized_of_fragment_ne (by rw [← h.root]; simp)

theorem IsPlain.anonymous_at (h : l.IsPlain) (hp : l.Places p path) :
    Lookup.Anonymous p.context.active.idKeys p.value := by
  rw [hp.context]
  exact Lookup.all_at? h.anonymous hp.value

theorem IsPlain.inner_eq (h : l.IsPlain) (hp : l.Places p path) :
    p.inner = .inDocument l.documentUri path := by
  rw [Position.inner, Lookup.rescope_of_anonymous (h.anonymous_at hp), hp.location]

/-- What a position refers to, read off the document. -/
theorem Places.reference (hp : l.Places p path) (hu : p.refers? = some uri) :
    ∃ written, p.written? = some written ∧
      p.value.member? "$ref" = some (.string written) ∧
      (l.documentUri.join written).map Uri.normalized = .ok uri := by
  obtain ⟨written, hw, hresolve⟩ := Option.bind_eq_some_iff.mp hu
  obtain ⟨value, hm, hstring⟩ := Option.bind_eq_some_iff.mp hw
  refine ⟨written, hw, ?_, ?_⟩
  · cases value with
    | string text =>
      cases hstring
      exact hm
    | null | bool | number | array | object => cases hstring
  · rw [hp.location] at hresolve
    change ((l.documentUri.join written).map Uri.normalized).toOption = some uri at hresolve
    cases hj : (l.documentUri.join written).map Uri.normalized with
    | error fault =>
      rw [hj] at hresolve
      cases hresolve
    | ok found =>
      rw [hj] at hresolve
      cases hresolve
      rfl

/-- The URI of a reference to a fragment is one of the document. -/
theorem IsPlain.refers_at (h : l.IsPlain) (hp : l.Places p path)
    (hfront : ∀ written, p.written? = some written → written.front = '#')
    (hu : p.refers? = some uri) :
    uri.normalized = uri ∧ uri.withoutFragment = l.documentUri := by
  obtain ⟨written, hw, _, hjoin⟩ := hp.reference hu
  obtain ⟨fragment, hfragment⟩ := Uri.join_fragment l.documentUri (hfront written hw)
  rw [hfragment] at hjoin
  rw [← Except.ok.inj hjoin]
  exact ⟨Uri.normalized_idem _, Uri.withoutFragment_of_fragment h.root rfl⟩

/-- What is looked up is at the path that the URI names. -/
theorem IsPlain.locate_at (h : l.IsPlain) (hu : uri.normalized = uri) {location : Location}
    {value : Json} (hl : l.context.locate uri = some (location, value)) :
    ∃ target, uri.place? = some target ∧ l.Places ⟨l.context, location, value⟩ target := by
  obtain ⟨target, hplace, hat, hlocation⟩ := Lookup.locate_of_anonymous h.anonymous hl
  rw [hu] at hplace
  change location = .inDocument l.documentUri.normalized target at hlocation
  rw [h.normalized] at hlocation
  exact ⟨target, hplace, rfl, hlocation, hat⟩

/-- The document is the first candidate, and as it has the URI, it is the only one. -/
theorem target?_eq (hu : uri.withoutFragment = l.documentUri) :
    l.library.target? l.context uri = l.context.find? uri := by
  have hroot : l.context.uri = uri.withoutFragment := hu.symm
  simp only [Library.target?, Library.nearby, Load.library, if_true, Loading.candidates,
    List.any_cons, hroot, decide_true, Bool.true_or, List.findSome?_cons, List.findSome?_nil]
  cases l.context.find? uri <;> rfl

/-- A reference to a fragment leads to the value at the path that its URI names. -/
theorem IsPlain.target?_at (h : l.IsPlain) (hp : l.Places p path)
    (hfront : ∀ written, p.written? = some written → written.front = '#')
    (hu : p.refers? = some uri) (hq : l.library.target? p.context uri = some q) :
    ∃ target, uri.place? = some target ∧ l.Places q target := by
  obtain ⟨hnormalized, hroot⟩ := h.refers_at hp hfront hu
  rw [hp.context, target?_eq hroot] at hq
  unfold OpenDocument.find? at hq
  cases hl : l.context.locate uri with
  | none =>
    rw [hl] at hq
    cases hq
  | some found =>
    obtain ⟨location, value⟩ := found
    rw [hl] at hq
    simp only at hq
    split at hq
    · cases hq
      exact h.locate_at hnormalized hl
    · cases hq

theorem IsPlain.leads (h : l.IsPlain) (hp : l.Places p path)
    (hfront : ∀ written, p.written? = some written → written.front = '#')
    (hq : l.library.Leads p q) : ∃ path', l.Places q path' := by
  cases hq with
  | @nested members place hm hplace =>
    have hvalue : p.value = .object members := by
      unfold Position.members? at hm
      split at hm
      · rename_i found hv
        split at hm
        · cases hm
        · cases hm
          exact hv
      · cases hm
    have hat := hp.value
    rw [hvalue] at hat
    rw [h.inner_eq hp] at hplace
    obtain ⟨more, hlocation, hmore⟩ := Digest.nested_at (Lookup.all_at? h.stored hat) hplace
    refine ⟨path ++ more, hp.context, hlocation, ?_⟩
    rw [Json.at?_append, hat]
    exact hmore
  | follows hu hq =>
    obtain ⟨target, _, hplaces⟩ := h.target?_at hp hfront hu hq
    exact ⟨target, hplaces⟩

theorem IsPlain.start (h : l.IsPlain) {start : Position} (hs : l.start? = some start) :
    ∃ path, l.Places start path := by
  obtain ⟨⟨location, value⟩, hl, rfl⟩ := Option.map_eq_some_iff.mp hs
  obtain ⟨path, _, hat, hlocation⟩ := Lookup.locate_of_anonymous h.anonymous hl
  change location = .inDocument l.documentUri.normalized path at hlocation
  rw [h.normalized] at hlocation
  exact ⟨path, rfl, hlocation, hat⟩

/-- A value that refers to nothing, or to a fragment. -/
def refersToFragment (value : Json) : Bool :=
  ((value.member? "$ref").bind Json.string?).all (·.front = '#')

/-- A load comes to positions of the document only if their references stay in it. -/
theorem IsPlain.places (h : l.IsPlain)
    (hfront : ∀ p path, l.Meets p → l.Places p path → ∀ written, p.written? = some written →
      written.front = '#')
    (hp : l.Meets p) : ∃ path, l.Places p path := by
  obtain ⟨start, hstart, hmeets⟩ := hp
  induction hmeets with
  | refl => exact h.start hstart
  | @tail p q hmeets hlead ih =>
    obtain ⟨path, hp⟩ := ih
    exact h.leads hp (hfront p path ⟨start, hstart, hmeets⟩ hp) hlead

theorem IsLocal.places (h : l.IsLocal) (hp : l.Meets p) : ∃ path, l.Places p path :=
  h.toIsPlain.places (fun p _ hmeets _ written => h.fragment p written hmeets) hp

/-- Whether references stay in the document can be seen from the document. -/
theorem IsPlain.isLocal (h : l.IsPlain) (hall : l.document.all refersToFragment = true) :
    l.IsLocal where
  toIsPlain := h
  fragment := by
    have hfront : ∀ p path, l.Places p path → ∀ written, p.written? = some written →
        written.front = '#' := by
      intro p path hp written hw
      have hself := Json.all_self (Lookup.all_at? hall hp.value)
      rw [refersToFragment] at hself
      change p.written?.all (·.front = '#') = true at hself
      rw [hw] at hself
      simpa using hself
    intro p written hp
    obtain ⟨path, hplaces⟩ := h.places (fun p path _ => hfront p path) hp
    exact hfront p path hplaces written

theorem IsPlain.uri_eq (h : l.IsPlain) (hp : l.Places p path) :
    p.location.uri = p.location.pointerUri := by
  have hfragment : l.documentUri.fragment = none := by
    rw [← h.root]
    rfl
  rw [hp.location, Location.uri]
  simp only [Location.inDocument, hfragment]
  rfl

/-- All URIs under which a position is known name its path. -/
theorem IsPlain.place?_of_answers (h : l.IsPlain) (hp : l.Places p path)
    (hu : p.answers uri) : uri.place? = some path := by
  have hplace : p.location.pointerUri.place? = some path := by
    rw [hp.location]
    exact Uri.place?_withPath _ _
  rcases hu with rfl | rfl | ⟨hdeclared, _⟩
  · exact hplace
  · rw [h.uri_eq hp]
    exact hplace
  · rw [Lookup.declaredId?_of_anonymous (h.anonymous_at hp)] at hdeclared
    exact absurd rfl hdeclared

end Load

namespace Account

variable {l : Load}

theorem pointing_lawful (h : l.IsLocal) : (pointing l).Lawful l.library where
  leads := by
    intro p q hp hq
    obtain ⟨hmeets, path, hplaces⟩ := hp
    have hfront := fun written => h.fragment p written hmeets
    obtain ⟨start, hstart, hmeets⟩ := hmeets
    exact ⟨⟨start, hstart, hmeets.tail hq⟩, h.leads hplaces hfront hq⟩
  object := by
    intro p members id draft keywords extra uri hp hm hu
    obtain ⟨_, path, hplaces⟩ := hp
    have hplain : p.value.member? "$ref" = none := by
      cases hv : p.value with
      | object found =>
        simp only [Position.members?, hv] at hm
        split at hm
        · cases hm
        · rename_i hcontains
          simpa [Json.member?, Entries.contains] using hcontains
      | null | bool | number | string | array => rfl
    rw [h.inner_eq hplaces]
    exact ⟨rfl, h.place?_of_answers hplaces hu, p.value, hplaces.value, Or.inl ⟨rfl, hplain⟩⟩
  boolean := by
    intro p id draft b hp hv
    obtain ⟨_, path, hplaces⟩ := hp
    rw [hplaces.location]
    refine ⟨rfl, Uri.place?_withPath _ _, p.value, hplaces.value, Or.inl ⟨rfl, ?_⟩⟩
    rw [hv]
    rfl
  reference := by
    intro p id draft r hp hu
    obtain ⟨_, path, hplaces⟩ := hp
    obtain ⟨written, _, href, hjoin⟩ := hplaces.reference hu
    rw [hplaces.location]
    exact ⟨rfl, Uri.place?_withPath _ _, p.value, hplaces.value,
      Or.inr ⟨r, written, rfl, href, hjoin⟩⟩
  follows := by
    intro p q uri t hp hu hq ht
    obtain ⟨hmeets, path, hplaces⟩ := hp
    obtain ⟨target, hplace, htarget⟩ :=
      h.target?_at hplaces (fun written => h.fragment p written hmeets) hu hq
    obtain ⟨hdocument, hnamed, hvalue⟩ := ht
    refine ⟨hdocument, ?_, hvalue⟩
    rw [htarget.location] at hnamed
    rw [hplace, ← hnamed]
    exact (Uri.place?_withPath _ _).symm
  ends_here := by
    intro uri t hn hr
    obtain ⟨hdocument, hplace, value, hat, ⟨_, hplain⟩ | ⟨r, written, href, _⟩⟩ := hn
    · exact ⟨hdocument, .here hplace, value, hat, hplain⟩
    · simp [Schema.isReference, href] at hr
  ends_beyond := by
    intro uri t r t' hn hr he
    obtain ⟨_, hplace, value, hat, ⟨hnone, _⟩ | ⟨r', written, hr', href, huri⟩⟩ := hn
    · rw [hnone] at hr
      cases hr
    · cases Option.some.inj (hr.symm.trans hr')
      obtain ⟨hdocument, harrives, hend⟩ := he
      exact ⟨hdocument, .next hplace hat href huri harrives, hend⟩
  awaits_refl uri path hplace := .here hplace
  awaits_beyond := by
    intro uri t r waiting hn hr hw path hplace
    obtain ⟨_, hnamed, value, hat, ⟨hnone, _⟩ | ⟨r', written, hr', href, huri⟩⟩ := hn
    · rw [hnone] at hr
      cases hr
    · cases Option.some.inj (hr.symm.trans hr')
      exact .next hnamed hat href huri (hw path hplace)
  awaited := by
    intro uri waiting t hw hn hr
    obtain ⟨hdocument, hplace, value, hat, ⟨_, hplain⟩ | ⟨r, written, href, _⟩⟩ := hn
    · exact ⟨hdocument, hw _ hplace, value, hat, hplain⟩
    · simp [Schema.isReference, href] at hr

end Account

/-! ## Loaded references -/

namespace Request

/-- Whether a request loads a document without identifiers whose references are fragments. -/
def loadsPlain (request : Request) (policy : Policy) (w : Workspace) : Bool :=
  match request.load? policy w with
  | some l => l.document.all Json.isStored &&
      decide (Lookup.Anonymous l.context.active.idKeys l.document) &&
      l.document.all Load.refersToFragment
  | none => false

theorem isPlain_of_loadsPlain {request : Request} {policy : Policy} {w : Workspace}
    (h : request.loadsPlain policy w = true) :
    ∃ l, request.load? policy w = some l ∧ l.IsPlain ∧
      l.document.all Load.refersToFragment = true := by
  unfold loadsPlain at h
  cases hl : request.load? policy w with
  | none =>
    rw [hl] at h
    cases h
  | some l =>
    rw [hl] at h
    simp only [Bool.and_eq_true, decide_eq_true_eq] at h
    obtain ⟨⟨hstored, hanonymous⟩, hfragment⟩ := h
    exact ⟨l, rfl, ⟨load?_documentUri hl, hstored, hanonymous⟩, hfragment⟩

end Request

/-- The schemas that a successful load of such a document gives are sound. -/
theorem Load.sound {l : Load} (h : l.IsLocal) (hcache : l.workspace.cache = .empty)
    {s : Schema} {report : Report} (hr : l.run.1 = .ok (s, report)) :
    (Account.pointing l).Sound l.run.2.store [] s := by
  obtain ⟨start, session, hl, hruns, _, _, heq⟩ := Load.run_ok hr
  have hstart : l.start? = some ⟨l.context, start.1, start.2⟩ := by
    rw [Load.start?, hl]
    rfl
  obtain ⟨hempty, _, hknown⟩ := Account.known_of_load (l := l) (Account.pointing_lawful h)
    (by
      intro uri t ht
      rw [hcache] at ht
      cases ht)
    ⟨⟨_, hstart, .refl⟩, h.start hstart⟩ hruns
  have hsound := (hknown s rfl).sound
  rw [hempty] at hsound
  rw [heq]
  exact hsound

/-- A loaded reference has the node of the position that its URI leads to as its target. -/
theorem target_of_reference {w w' : Workspace} {policy : Policy} {request : Request} {l : Load}
    {s : Schema} (hl : request.load? policy w = some l) (hcache : w.cache = .empty)
    (hstored : l.document.all Json.isStored = true)
    (hanonymous : Lookup.Anonymous l.context.active.idKeys l.document)
    (hfragment : ∀ p written, l.Meets p → p.written? = some written → written.front = '#')
    (h : request.run policy w = (.ok s, w')) {t : Schema} (ht : w'.store.Reaches s t)
    {r : Reference} (hr : t.reference? = some r) :
    ∃ target, Store.follow r.target w'.store = (some target, w'.store) ∧
      Store.target r w'.store = (some target, w'.store) ∧ target.isReference = false ∧
      target.location.document = l.documentUri ∧
      l.document.LeadsTo l.documentUri r.uri target.location.path.segments ∧
      ∀ path, l.document.LeadsTo l.documentUri r.uri path →
        path = target.location.path.segments := by
  have hlocal : l.IsLocal := ⟨⟨Request.load?_documentUri hl, hstored, hanonymous⟩, hfragment⟩
  have hempty : l.workspace.cache = .empty := (Request.load?_workspace hl).2.1.trans hcache
  obtain ⟨report, hrun, rfl⟩ := Request.run_ok_of_load? hl h
  cases Load.sound hlocal hempty hrun t ht r hr with
  | @finished id target htarget hnode href hends =>
    have hf : Store.follow r.target l.run.2.store = (some target, l.run.2.store) := by
      rw [htarget]
      exact Prod.ext hnode rfl
    exact ⟨target, hf, Store.target_of_follow hf href, href, hends.1, hends.2,
      fun path hpath => hpath.unique hends.2⟩
  | promised _ _ hmem => cases hmem

/-- A schema with references to a reference, to a schema read before, and to itself. -/
def Request.linked : Request :=
  .named ⟨"http", some "e.com", .segments ["a.json"], none, none⟩
    (.object [
      ("definitions", .object [
        ("a/b", .object [("$ref", .string "#/definitions/c")]),
        ("c", .object [("items", .object [("$ref", .string "#")])])]),
      ("properties", .object [
        ("x", .object [("$ref", .string "#/definitions/a~1b")])])])

theorem target_of_linked_reference : ∃ l s w',
    Request.linked.load? .standard .empty = some l ∧
      Request.linked.run .standard .empty = (.ok s, w') ∧
      (∃ entry ∈ s.children, entry.2.2.isReference = true) ∧
      ∀ t, w'.store.Reaches s t → ∀ r, t.reference? = some r → ∃ target,
        Store.target r w'.store = (some target, w'.store) ∧
          l.document.LeadsTo l.documentUri r.uri target.location.path.segments := by
  have hcheck : (match (Request.linked.run .standard .empty).1 with
      | .ok s => s.children.any fun entry => entry.2.2.isReference
      | .error _ => false) = true := by
    decide +kernel
  have hloads : Request.linked.loadsPlain .standard .empty = true := by
    decide +kernel
  obtain ⟨l, hl, hplain, hfragments⟩ := Request.isPlain_of_loadsPlain hloads
  cases hr : Request.linked.run .standard .empty with
  | mk answer w' =>
    rw [hr] at hcheck
    cases answer with
    | error failure => cases hcheck
    | ok s =>
      refine ⟨l, s, w', hl, rfl, List.any_eq_true.mp hcheck, ?_⟩
      intro t ht r href
      obtain ⟨target, _, htarget, _, _, hleads, _⟩ := target_of_reference hl rfl hplain.stored
        hplain.anonymous (hplain.isLocal hfragments).fragment hr ht href
      exact ⟨target, htarget, hleads⟩

end SchemaAtlas
