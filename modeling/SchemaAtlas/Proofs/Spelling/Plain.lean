import SchemaAtlas.Proofs.Graph.Drawn
import SchemaAtlas.Proofs.Spelling.Outcome

/-!
# Plain documents in every spelling

In a document without identifiers whose references stay in it, nodes are drawn from the
values at their places. So two nodes that stand at one place of documents that respell each
other have nested nodes at the same places and lead to targets at the same places, and loads
of such documents that succeed come to the same outline: `Load.Respells.outline_eq`.
-/

namespace SchemaAtlas

/-! ## Where references lead -/

/-- The canonical form names the same place. -/
theorem Uri.place?_canonical (uri : Uri) : uri.canonical.place? = uri.place? := by
  unfold canonical
  cases hp : Lookup.path? uri with
  | none => rfl
  | some path => rw [Uri.place?_withPath, Lookup.place?_of_path? hp]

/-- A reference stays a reference to a fragment. -/
theorem Respelled.front {written other : String} (h : Respelled written other) :
    written.front = other.front := by
  cases h with
  | @path before cs other _ _ _ _ =>
    rw [String.front_eq, String.front_eq, String.front?_eq, String.front?_eq,
      String.toList_ofList, String.toList_ofList]
    cases before <;> rfl

namespace Json

variable {v w : Json} {root uri uri' : Uri} {path : List String}

theorem at?_rel (h : Resembles v w) (path : List String) :
    Option.Rel Resembles (v.at? path) (w.at? path) := by
  induction path generalizing v w with
  | nil => exact .some h
  | cons segment rest ih =>
    rw [at?_cons, at?_cons]
    have hstep := Lookup.step?_rel segment h
    revert hstep
    generalize Lookup.step? segment v = next
    generalize Lookup.step? segment w = next'
    rintro (hnext | _)
    · exact ih hnext
    · exact .none

theorem Resembles.member? (h : Resembles v w) (key : String) :
    Found key (v.member? key) (w.member? key) := by
  cases h with
  | strings => exact .none
  | respells h =>
    cases h with
    | object h => exact h.found key
    | null | bool | number | string | array => exact .none

/-- A reference stays one, to a URI with the same canonical form. -/
theorem Found.joined {found : Option Json} {written : String}
    (h : Found "$ref" (some (.string written)) found)
    (hu : (root.join written).map Uri.normalized = .ok uri) :
    ∃ other uri', found = some (.string other) ∧
      (root.join other).map Uri.normalized = .ok uri' ∧ uri.canonical = uri'.canonical := by
  cases h with
  | respells h =>
    cases h
    exact ⟨written, uri, rfl, hu, rfl⟩
  | @reference _ other _ h =>
    have hresolve : ((root.join written).map Uri.normalized).map Uri.canonical =
        ((root.join other).map Uri.normalized).map Uri.canonical :=
      h.resolve (.inDocument root [])
    rw [hu] at hresolve
    cases hother : (root.join other).map Uri.normalized with
    | error fault =>
      rw [hother] at hresolve
      cases hresolve
    | ok uri' =>
      rw [hother] at hresolve
      exact ⟨other, uri', rfl, hother, Except.ok.inj hresolve⟩

/-- Following a URI passes the same positions in every spelling. -/
theorem Arrives.respelled (h : v.Arrives root uri path) (hvw : v.Respells w)
    (hu : uri.canonical = uri'.canonical) : w.Arrives root uri' path := by
  have hplace : ∀ {uri uri' : Uri}, uri.canonical = uri'.canonical → uri.place? = uri'.place? := by
    intro uri uri' h
    rw [← Uri.place?_canonical uri, h, Uri.place?_canonical]
  induction h generalizing uri' with
  | here hp => exact .here ((hplace hu).symm.trans hp)
  | @next uri next path path' value written hp hat href hnext _ ih =>
    have hrel := at?_rel (.respells hvw) path
    rw [hat] at hrel
    cases hat' : w.at? path with
    | none =>
      rw [hat'] at hrel
      cases hrel
    | some value' =>
      rw [hat'] at hrel
      cases hrel with
      | some hvalue =>
        have hfound := hvalue.member? "$ref"
        rw [href] at hfound
        obtain ⟨other, next', href', hnext', hcanonical⟩ := hfound.joined hnext
        exact .next ((hplace hu).symm.trans hp) hat' href' hnext' (ih hcanonical)

theorem LeadsTo.respelled (h : v.LeadsTo root uri path) (hvw : v.Respells w)
    (hu : uri.canonical = uri'.canonical) : w.LeadsTo root uri' path := by
  obtain ⟨harrives, value, hat, hplain⟩ := h
  refine ⟨harrives.respelled hvw hu, ?_⟩
  have hrel := at?_rel (.respells hvw) path
  rw [hat] at hrel
  cases hat' : w.at? path with
  | none =>
    rw [hat'] at hrel
    cases hrel
  | some value' =>
    rw [hat'] at hrel
    cases hrel with
    | some hvalue =>
      have hfound := hvalue.member? "$ref"
      rw [hplain] at hfound
      cases href : value'.member? "$ref" with
      | none => exact ⟨value', rfl, href⟩
      | some _ =>
        rw [href] at hfound
        cases hfound

/-! ## Plain documents -/

/-- A test that does not look at how references are spelled. -/
def Blind (p : Json → Bool) : Prop := ∀ {v w}, Resembles v w → p v = p w

variable {p : Json → Bool}

mutual

theorem Respells.all (hp : Blind p) : {v w : Json} → v.Respells w → v.all p = w.all p
  | _, _, .null => rfl
  | _, _, .bool _ => rfl
  | _, _, .number _ => rfl
  | _, _, .string _ => rfl
  | _, _, .array h => congrArg₂ (· && ·) (hp (.respells (.array h))) (h.all hp)
  | _, _, .object h => congrArg₂ (· && ·) (hp (.respells (.object h))) (h.all hp)

theorem RespellsElements.all (hp : Blind p) : {xs ys : List Json} → RespellsElements xs ys →
    allElements p xs = allElements p ys
  | _, _, .nil => rfl
  | _, _, .cons h hs => congrArg₂ (· && ·) (h.all hp) (hs.all hp)

theorem RespellsMembers.all (hp : Blind p) : {ms ns : List (String × Json)} → RespellsMembers ms ns →
    allMembers p ms = allMembers p ns
  | _, _, .nil => rfl
  | _, _, .cons _ h hs => congrArg₂ (· && ·) (h.all hp) (hs.all hp)
  | _, _, .reference _ hs => congrArg₂ (· && ·) (hp (.strings _ _)) (hs.all hp)

end

theorem RespellsMembers.keys : {ms ns : List (String × Json)} → RespellsMembers ms ns →
    Entries.keys ms = Entries.keys ns
  | _, _, .nil => rfl
  | _, _, .cons key _ hs => congrArg (key :: ·) hs.keys
  | _, _, .reference _ hs => congrArg ("$ref" :: ·) hs.keys

theorem RespellsElements.length : {xs ys : List Json} → RespellsElements xs ys →
    xs.length = ys.length
  | _, _, .nil => rfl
  | _, _, .cons _ hs => congrArg (· + 1) hs.length

theorem blind_isStored : Blind isStored := by
  rintro v w (h | _)
  · cases h with
    | object h => rw [isStored, isStored, h.keys]
    | array h => rw [isStored, isStored, h.length]
    | null | bool | number | string => rfl
  · rfl

theorem blind_declares {keys : List String} (hkeys : "$ref" ∉ keys) :
    Blind fun value => !value.declares keys := by
  intro v w h
  refine congrArg not ?_
  unfold declares
  rw [Bool.eq_iff_iff, List.any_eq_true, List.any_eq_true]
  refine exists_congr fun key => and_congr_right fun hm => ?_
  rw [(h.member? key).bind (fun heq => hkeys (heq ▸ hm)) Respells.string?]

theorem blind_refersToFragment : Blind Load.refersToFragment := by
  intro v w h
  have hfound := h.member? "$ref"
  unfold Load.refersToFragment
  revert hfound
  generalize v.member? "$ref" = found
  generalize w.member? "$ref" = found'
  rintro (_ | hv | ⟨-, hr⟩)
  · rfl
  · rw [Option.bind_some, Option.bind_some, hv.string?]
  · simp only [Option.bind_some, string?, Option.all_some, hr.front]

end Json

open Loading LoadM

/-! ## Nested places -/

theorem OpenDocument.Respells.accepts_eq {d e : OpenDocument} (h : d.Respells e) {v w : Json}
    (hvw : v.Resembles w) : d.accepts v = e.accepts w := by
  cases hvw with
  | strings => rfl
  | respells hvw =>
    cases hvw with
    | bool => rw [accepts, accepts, h.active]
    | null | number | string | array | object => rfl

/-- Sessions inside of two documents, compared by the places of nodes. -/
def Comparison.places (d e : OpenDocument) : Comparison (Uri × Pointer) where
  sessions s t := s.policy = t.policy ∧ s.current? = some d ∧ t.current? = some e
  view t := t.location.place
  alone := True
  policy h := h.1
  record h _ _ _ _ _ _ _ _ _ := h
  boolean h _ _ _ := ⟨rfl, h⟩

/-- Loaders that keep places give nodes of the same places for what resembles each other. -/
theorem Loading.Placing.alike {load other : NodeLoader} (hl : Placing load)
    (ho : Placing other) {d e : OpenDocument} (hde : d.Respells e) :
    Digest.LoadsAlike (.places d e) (nestedLoad load) (nestedLoad other) := by
  refine fun location v w hvw => ⟨fun {s t r r' s' t'} hst hx hy => ?_⟩
  obtain ⟨hpolicy, hs, ht⟩ := hst
  cases r with
  | error => exact .first trivial
  | ok found =>
    cases r' with
    | error => exact .second trivial
    | ok found' =>
      have hfx := hl.frame hx
      have hfy := ho.frame hy
      refine .ok ?_ ⟨?_, hfx.current?.trans hs, hfy.current?.trans ht⟩
      · have haccepts := hde.accepts_eq hvw
        cases found with
        | none =>
          cases found' with
          | none => exact .none
          | some b =>
            rw [(hl.refusal hs hx).1, ho.accepts ht hy (by simp) (by simp)] at haccepts
            cases haccepts
        | some a =>
          cases found' with
          | none =>
            rw [hl.accepts hs hx (by simp) (by simp), (ho.refusal ht hy).1] at haccepts
            cases haccepts
          | some b => exact .some ((hl.place hx).trans (ho.place hy).symm)
      · rw [hfx.policy, hfy.policy, hpolicy]

/-! ## Drawn nodes -/

/-- Nodes at one place, with nested nodes and references to the same places. -/
structure Schema.Matches (t t' : Schema) : Prop where
  place : t.location.place = t'.location.place
  reference : Option.Rel (fun r r' => r.uri.canonical = r'.uri.canonical) t.reference?
    t'.reference?
  below : ∀ kind segment, Option.Rel (Same (·.location.place)) (t.below? kind segment)
    (t'.below? kind segment)

namespace Load

variable {l m : Load} {t t' : Schema}

theorem path_of_place {uri uri' : Uri} {path path' : List String}
    (h : (Location.inDocument uri path).place = (Location.inDocument uri' path').place) :
    path = path' :=
  congrArg (fun place => place.2.segments) h

theorem reference?_of_read {load : NodeLoader} {context : OpenDocument} {location : Location}
    {members : List (String × Json)} {s s' : Session} {b : Builder}
    (hr : Runs (keywordsRun load context location members) s (.ok b) s') (ht : t.body = b.body) :
    t.reference? = none := by
  rw [Schema.reference?, ht, keywordsRun_body hr]

/-- Nodes that are read from objects that respell each other have the same places below. -/
theorem below?_rel (h : l.Respells m) {load other : NodeLoader} (hl : Placing load)
    (ho : Placing other) {members members' : List (String × Json)}
    (hms : Json.RespellsMembers members members') (href : Entries.get? "$ref" members = none)
    {location : Location} {s s₁ s' s₁' : Session} {b b' : Builder} (hs : s.policy = l.policy)
    (hc : s.current? = some l.context) (hs' : s'.policy = m.policy)
    (hc' : s'.current? = some m.context)
    (hr : Runs (keywordsRun load l.context location members) s (.ok b) s₁)
    (hr' : Runs (keywordsRun other m.context location members') s' (.ok b') s₁')
    (ht : t.body = b.body) (ht' : t'.body = b'.body) (kind : KeywordKind)
    (segment : Option String) : Option.Rel (Same (·.location.place)) (t.below? kind segment)
      (t'.below? kind segment) := by
  have hsessions : (Comparison.places l.context m.context).sessions s s' :=
    ⟨hs.trans (h.policy.trans hs'.symm), hc, hc'⟩
  have hread : Alike (.places l.context m.context)
      (Comparison.places l.context m.context).builder
      (keywordsRun load l.context location members)
      (keywordsRun other m.context location members') :=
    alike_keywordsRun (hl.alike ho h.context) h.context hms href
  cases hread.agree hsessions hr hr' with
  | ok hbuilt _ =>
    have hkeyword : Option.Rel (Same (Keyword.sketch (·.location.place)))
        (t.keyword? kind) (t'.keyword? kind) := by
      rw [Schema.keyword?, Schema.keyword?, Schema.keywords, Schema.keywords, ht, ht',
        keywordsRun_body hr, keywordsRun_body hr']
      exact hbuilt.keywords.get? kind
    apply rel_of_map_eq
    rw [Schema.map_below?, Schema.map_below?, map_eq_of_rel hkeyword]

/-- What is drawn at one place of documents that respell each other matches. -/
theorem Draws.matches (h : l.Respells m) (ht : l.Draws t) (ht' : m.Draws t')
    (hplace : t.location.place = t'.location.place) : t.Matches t' := by
  have hat? : ∀ {path v w}, l.document.at? path = some v → m.document.at? path = some w →
      v.Resembles w := by
    intro path v w hv hw
    have hrel := Json.at?_rel (.respells h.document) path
    rw [hv, hw] at hrel
    cases hrel with
    | some hvw => exact hvw
  cases ht with
  | boolean hat =>
    cases ht' with
    | boolean => exact ⟨hplace, .none, fun _ _ => .none⟩
    | reference hat' href =>
      cases path_of_place hplace
      have hfound := (hat? hat hat').member? "$ref"
      rw [href] at hfound
      cases hfound
    | object hat' =>
      cases path_of_place hplace
      cases hat? hat hat' with
      | respells hvw => cases hvw
  | reference hat href hjoin =>
    cases ht' with
    | boolean hat' =>
      cases path_of_place hplace
      have hfound := (hat? hat hat').member? "$ref"
      rw [href] at hfound
      cases hfound
    | reference hat' href' hjoin' =>
      cases path_of_place hplace
      have hfound := (hat? hat hat').member? "$ref"
      rw [href, href'] at hfound
      obtain ⟨other, uri', heq, hjoined, hcanonical⟩ := hfound.joined hjoin
      cases heq
      rw [h.documentUri, hjoin'] at hjoined
      cases hjoined
      exact ⟨hplace, .some hcanonical, fun _ _ => .none⟩
    | object hat' href' =>
      cases path_of_place hplace
      have hfound := (hat? hat hat').member? "$ref"
      rw [href, Json.member?, href'] at hfound
      cases hfound
  | object hat href hl hs hc hr =>
    cases ht' with
    | boolean hat' =>
      cases path_of_place hplace
      cases hat? hat hat' with
      | respells hvw => cases hvw
    | reference hat' href' =>
      cases path_of_place hplace
      have hfound := (hat? hat hat').member? "$ref"
      rw [href', Json.member?, href] at hfound
      cases hfound
    | object hat' href' hl' hs' hc' hr' =>
      cases path_of_place hplace
      cases hat? hat hat' with
      | respells hvw =>
        cases hvw with
        | object hms =>
          rw [← h.documentUri] at hr'
          refine ⟨hplace, ?_, below?_rel h hl hl' hms href hs hc hs' hc' hr hr' rfl rfl⟩
          rw [reference?_of_read hr rfl, reference?_of_read hr' rfl]
          exact .none

/-! ## Outlines -/

/-- A loaded reference has a node of the position that its URI leads to as its target, which
is in reach too. -/
theorem IsLocal.target_at (h : l.IsLocal) (hcache : l.workspace.cache = .empty)
    {s t : Schema} {report : Report} (hr : l.run.1 = .ok (s, report))
    (ht : l.run.2.store.Reaches s t) {r : Reference} (href : t.reference? = some r) :
    ∃ target, l.run.2.store.Reaches s target ∧
      Store.target r l.run.2.store = (some target, l.run.2.store) ∧
      target.location.document = l.documentUri ∧
      l.document.LeadsTo l.documentUri r.uri target.location.path.segments := by
  cases Load.sound h hcache hr t ht r href with
  | @finished id target htarget hnode hplain hends =>
    have hf : Store.follow r.target l.run.2.store = (some target, l.run.2.store) := by
      rw [htarget]
      exact Prod.ext hnode rfl
    exact ⟨target, ht.tail (.target href (by rw [hf])), Store.target_of_follow hf hplain, hends.1,
      hends.2⟩
  | promised _ _ hmem => cases hmem

end Load

/-- What is below a node is nested in it. -/
theorem Schema.mem_children_of_below? {t u : Schema} {kind : KeywordKind}
    {segment : Option String} (h : t.below? kind segment = some u) :
    (kind, segment, u) ∈ t.children := by
  obtain ⟨list, hlist, hfind⟩ := Option.bind_eq_some_iff.mp h
  obtain ⟨k, hk, rfl⟩ := Option.map_eq_some_iff.mp hlist
  obtain ⟨⟨segment', _⟩, hentry, rfl⟩ := Option.map_eq_some_iff.mp hfind
  have hsegment : segment' = segment := by simpa using List.find?_some hentry
  subst hsegment
  exact List.mem_flatMap.mpr ⟨(kind, k), Entries.mem_of_get? hk,
    List.mem_map_of_mem (List.mem_of_find?_eq_some hentry)⟩

theorem Schema.Matches.isReference {t t' : Schema} (h : t.Matches t') :
    t.isReference = t'.isReference := by
  have href := h.reference
  unfold Schema.isReference
  revert href
  generalize t.reference? = r
  generalize t'.reference? = r'
  rintro (_ | _) <;> rfl

namespace Store

variable (st : Store) (t : Schema) (rest : List Turn)

theorem outline_below (kind : KeywordKind) (segment : Option String) :
    st.outline t (.below kind segment :: rest) =
      (t.below? kind segment).bind fun u => st.outline u rest := by
  rw [outline, reach, Option.map_bind]
  rfl

theorem outline_target : st.outline t (.target :: rest) =
    t.reference?.bind fun r => (target r st).1.bind fun u => st.outline u rest := by
  rw [outline, reach, Option.map_bind]
  refine congrArg _ (funext fun r => ?_)
  rw [Function.comp_apply, Option.map_bind]
  rfl

end Store

namespace Load

variable {l m : Load} {s s' : Schema} {report report' : Report}

/-- Loads of plain documents that respell each other come to the same outline if they
succeed. -/
theorem Respells.outline_eq (h : l.Respells m) (hl : l.IsLocal) (hm : m.IsLocal)
    (hcache : l.workspace.cache = .empty) (hr : l.run.1 = .ok (s, report))
    (hr' : m.run.1 = .ok (s', report')) :
    l.run.2.store.outline s = m.run.2.store.outline s' := by
  have hcache' : m.workspace.cache = .empty := h.workspace.cache.symm.trans hcache
  obtain ⟨⟨start, hstart, hplace⟩, hdraws⟩ := draws_of_makes hl hr
  obtain ⟨⟨start', hstart', hplace'⟩, hdraws'⟩ := draws_of_makes hm hr'
  have hmakes := (shared_iff_readsOnce hl hcache hr).2.1
  have hmakes' := (shared_iff_readsOnce hm hcache' hr').2.1
  have hmatches : ∀ {t t'}, l.run.2.store.Reaches s t → m.run.2.store.Reaches s' t' →
      t.location.place = t'.location.place → t.Matches t' := fun ht ht' heq =>
    (hdraws _ (hmakes _ ht)).matches h (hdraws' _ (hmakes' _ ht')) heq
  have hroutes : ∀ route {t t'}, l.run.2.store.Reaches s t → m.run.2.store.Reaches s' t' →
      t.location.place = t'.location.place →
      l.run.2.store.outline t route = m.run.2.store.outline t' route := by
    intro route
    induction route with
    | nil =>
      intro t t' ht ht' heq
      exact congrArg some (Prod.ext heq (hmatches ht ht' heq).isReference)
    | cons turn rest ih =>
      intro t t' ht ht' heq
      have hmatch := hmatches ht ht' heq
      cases turn with
      | below kind segment =>
        rw [Store.outline_below, Store.outline_below]
        refine bind_eq_of_rel (hmatch.below kind segment) fun u u' hu hu' hplaces => ?_
        exact ih (ht.tail (.child (Schema.mem_children_of_below? hu)))
          (ht'.tail (.child (Schema.mem_children_of_below? hu'))) hplaces
      | target =>
        rw [Store.outline_target, Store.outline_target]
        refine bind_eq_of_rel hmatch.reference fun r r' hu hu' huri => ?_
        obtain ⟨u, hreach, htarget, hdocument, hleads⟩ := hl.target_at hcache hr ht hu
        obtain ⟨u', hreach', htarget', hdocument', hleads'⟩ :=
          hm.target_at hcache' hr' ht' hu'
        rw [htarget, htarget']
        refine ih hreach hreach' ?_
        rw [h.documentUri] at hleads
        have hpath := (hleads.respelled h.document huri).unique hleads'
        exact Prod.ext (hdocument.trans (h.documentUri.trans hdocument'.symm))
          (congrArg Pointer.mk hpath)
  have hlocate := h.context.locate_rel l.uri
  rw [hstart, h.uri, hstart'] at hlocate
  cases hlocate with
  | some hfound =>
    have hroot : s.location.place = s'.location.place :=
      hplace.trans ((congrArg Location.place hfound.1).trans hplace'.symm)
    exact funext fun route => hroutes route .refl .refl hroot

end Load
end SchemaAtlas
