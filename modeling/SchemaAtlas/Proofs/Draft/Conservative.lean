import SchemaAtlas.Proofs.Draft.Echo
import SchemaAtlas.Proofs.Loading.Links
import SchemaAtlas.Proofs.Loading.Strictness
import SchemaAtlas.Proofs.Render.Identity

/-!
# All drafts are conservative over each

A document without references that a strict load in one draft reads without a report is read
without a report in all drafts, as a schema with the same content. The two loads read the same
nodes in the same order, so their sessions have the same nodes in progress and the same content
of the finished ones.
-/

namespace SchemaAtlas

theorem Entries.Related.putNew_all {κ α : Type} [DecidableEq κ] {R : α → α → Prop}
    {a b : List (κ × α)} {v w : α} (h : Related R a b) (hv : R v w) (keys : List κ) :
    Related R (keys.foldl (fun table key => Entries.putNew key v table) a)
      (keys.foldl (fun table key => Entries.putNew key w table) b) := by
  induction keys generalizing a b with
  | nil => exact h
  | cons key rest ih => exact ih (h.putNew key hv)

/-- A document that is read in one draft, and the same one read in all of them. -/
structure OpenDocument.Widens (narrow wide : OpenDocument) : Prop where
  only : narrow.active = .only narrow.draft
  all : wide.active = .all
  unreferenced : ∀ value, Json.Schemas narrow.draft narrow.document value →
    value.member? "$ref" = none

namespace Session

/-- A strict session in one draft, and one in all drafts that has come as far. -/
structure Widens (narrow wide : OpenDocument) (s t : Session) : Prop where
  current : s.current? = some narrow ∧ t.current? = some wide
  strict : s.policy.strict = true
  report : s.report = t.report
  inProgress : s.inProgress = t.inProgress
  size : s.store.nodes.size = t.store.nodes.size
  built : Entries.Related (Same Schema.content) s.built t.built

namespace Widens

variable {narrow wide : OpenDocument} {s t : Session} (h : s.Widens narrow wide t)

include h

theorem knows (uri : Uri) : s.knows uri = t.knows uri := by
  rw [Session.knows, Session.knows, h.inProgress, h.built.contains]

theorem add (location : Location) (draft draft' : Draft) (b c : Body Schema) :
    Widens narrow wide { s with store := (s.store.add location draft b).2 }
      { t with store := (t.store.add location draft' c).2 } where
  __ := h
  size := by simp [Store.add, Store.reserve, Store.complete, h.size]

theorem enter (uris : List Uri) : (s.enter uris).Widens narrow wide (t.enter uris) where
  __ := h
  inProgress := by simp only [Session.enter, Session.register, h.inProgress, h.size]
  size := by simp [Session.enter, Session.register, Store.reserve, h.size]

theorem leave {N M : Schema} (hid : N.id = M.id) (hN : Same Schema.content N M) (uris : List Uri) :
    (s.leave N uris).Widens narrow wide (t.leave M uris) where
  __ := h
  inProgress := by
    simp only [Session.leave, Session.release, Session.finish, h.inProgress, hid]
  size := by simp [Session.leave, Session.release, Session.finish, Store.complete, h.size]
  built := h.built.putNew_all hN uris

end Widens
end Session

namespace Loading

open LoadM Session Digest

variable {narrow wide : OpenDocument} {s s' t t' : Session} {load other : NodeLoader}
variable {location : Location}

/-- An identifier that is applied without a word is applied in the same way. -/
theorem Identified.widens (hst : s.Widens narrow wide t) {keys keys' : List String}
    {object : List (String × Json)} {inner inner' : Location} {declared declared' : List Uri}
    (hkeys : Lookup.declaredId? keys' (.object object) = Lookup.declaredId? keys (.object object))
    (h : Identified keys location object s inner declared s')
    (h' : Identified keys' location object t inner' declared' t') (hs : s'.report = s.report) :
    s' = s ∧ t' = t ∧ inner' = inner ∧ declared' = declared := by
  cases h with
  | anonymous hid =>
    cases h' with
    | anonymous => exact ⟨rfl, rfl, rfl, rfl⟩
    | declared hid' | repeated hid' | broken hid' =>
      cases (hid'.symm.trans hkeys).trans hid
  | declared hid hw hnew =>
    cases h' with
    | anonymous hid' => cases (hid'.symm.trans hkeys).trans hid
    | declared hid' hw' =>
      cases (hid'.symm.trans hkeys).trans hid
      cases hw'.symm.trans hw
      exact ⟨rfl, rfl, rfl, rfl⟩
    | repeated hid' hw' hknown =>
      cases (hid'.symm.trans hkeys).trans hid
      cases hw'.symm.trans hw
      rw [← hst.knows, hnew] at hknown
      cases hknown
    | broken hid' hw' =>
      cases (hid'.symm.trans hkeys).trans hid
      cases hw'.symm.trans hw
  | repeated | broken => exact absurd hs (record_report_ne _ _ _ _ _ _)

/-- A loader in one draft, and one in all drafts that echoes it. -/
def Wider (narrow wide : OpenDocument) (load other : NodeLoader) : Prop :=
  ∀ {location value hops}, Json.Schemas narrow.draft narrow.document value →
    Echoes (Session.Widens narrow wide) (Option.Rel (Same Schema.content))
      (load location value hops) (other location value hops)

/-- The members of a silently read object have readers. -/
theorem fits_of_keywordsRun (hl : Framed load) {inner : Location}
    {object : List (String × Json)} {builder : Builder}
    (hr : Runs (keywordsRun load narrow inner object) s (.ok builder) s')
    (hstrict : s.policy.strict = true) (hs : s'.report = s.report) : Fits narrow.active object :=
  fits_of_members (fun h => (hl.frame h).grown) hstrict hr hs

theorem echoes_keywordsRun (hl : Framed load) (hload : Wider narrow wide load other)
    (hc : narrow.Widens wide) {inner : Location} {object : List (String × Json)}
    (hv : Json.Schemas narrow.draft narrow.document (.object object))
    (hfits : Fits (.only narrow.draft) object) :
    Echoes (Session.Widens narrow wide)
      (Builder.Matches Schema.content inner narrow.draft wide.draft)
      (keywordsRun load narrow inner object) (keywordsRun other wide inner object) := by
  have hR : Pairing Schema.content
      (fun _ P x y => Echoes (Session.Widens narrow wide) P x y)
      (fun location value => load location value 0) (fun location value => other location value 0)
      narrow.draft wide.draft
      fun location value => (location, value) ∈ nested (.only narrow.draft) inner object :=
    pairing_echoes (fun _ _ hp => hload (hv.nested hp)) fun _ _ h location body =>
      h.add location narrow.draft wide.draft body body
  rw [keywordsRun, keywordsRun, hc.only, hc.all]
  exact echoes_members hR (fun h => (hl.frame h).grown) hfits (fun _ hp => hp)
    (List.Subset.refl object) .new

theorem Wider.object (hl : Framed load) (hload : Wider narrow wide load other)
    (hc : narrow.Widens wide) {object : List (String × Json)} {schema : Schema}
    {r : Except Stop Schema} (hv : Json.Schemas narrow.draft narrow.document (.object object))
    (hst : s.Widens narrow wide t)
    (h : ObjectRun load narrow location object s (.ok schema) s') (hs : s'.report = s.report)
    (h' : ObjectRun other wide location object t r t') :
    ∃ schema', r = .ok schema' ∧ s'.Widens narrow wide t' ∧ Same Schema.content schema schema' := by
  cases h with
  | @finished inner declared builder s₁ s₂ hid hm =>
    have hframe := (hl.keywords hm).1
    have hback := Report.eq_of_prefix hid.frame.1.report hframe.report hs
    have hquiet : s₂.report = s₁.report := hs.trans hback.symm
    have hstrict : s₁.policy.strict = true :=
      (congrArg Policy.strict hid.frame.1.policy).trans hst.strict
    have hfits : Fits (.only narrow.draft) object := by
      rw [← hc.only]
      exact fits_of_keywordsRun hl hm hstrict hquiet
    have hkeys := hfits.declaredId?_eq
    rw [← hc.only, ← hc.all] at hkeys
    have hecho := @echoes_keywordsRun _ _ _ _ hl hload hc inner _ hv hfits
    cases h' with
    | @finished inner' declared' builder' t₁ t₂ hid' hm' =>
      obtain ⟨rfl, rfl, rfl, rfl⟩ := Identified.widens hst hkeys hid hid' hback
      obtain ⟨_, hbuilder, hst₂, hmatch⟩ := hecho.echo (hst.enter _) hm hquiet hm'
      cases hbuilder
      have hcontent : Same Schema.content
          (.node s₁.store.nodes.size inner' narrow.draft builder.body)
          (.node t₁.store.nodes.size inner' wide.draft builder'.body) := by
        rw [Same, Schema.content_node, Schema.content_node]
        exact congrArg (Schema.node 0 default default) hmatch.body
      refine ⟨_, rfl, hst₂.leave ?_ hcontent _, hcontent⟩
      exact hst.size
    | ends hid' hm' =>
      obtain ⟨rfl, rfl, rfl, rfl⟩ := Identified.widens hst hkeys hid hid' hback
      obtain ⟨_, hbuilder, -⟩ := hecho.echo (hst.enter _) hm hquiet hm'
      cases hbuilder

theorem wider_loadWith (hl : Framed load) (hload : Wider narrow wide load other)
    (hc : narrow.Widens wide) : Wider narrow wide (loadWith load) (loadWith other) := by
  intro location value hops hv
  refine ⟨fun hr => ((framed_loadWith hl).frame hr).report, ?_⟩
  intro s found s' t r t' hst hx hs hy
  have hbuilt := hst.built.get? location.pointerUri
  cases nodeRun_of_runs hx with
  | outside hnone => cases hst.current.1.symm.trans hnone
  | @known _ object schema _ hobject hb =>
    subst hobject
    rw [hb] at hbuilt
    rcases plain_of_nodeRun hst.current.2 (hc.unreferenced _ hv) (nodeRun_of_runs hy) with
      ⟨schema', hb', rfl, rfl⟩ | ⟨hb', -⟩
    · rw [hb'] at hbuilt
      exact ⟨_, rfl, hst, hbuilt⟩
    · rw [hb'] at hbuilt
      cases hbuilt
  | reference _ hobject _ href =>
    subst hobject
    cases href.symm.trans (hc.unreferenced _ hv)
  | @object _ object schema _ hcurrent hobject hb href hrun =>
    cases hst.current.1.symm.trans hcurrent
    subst hobject
    rw [hb] at hbuilt
    rcases plain_of_nodeRun hst.current.2 (hc.unreferenced _ hv) (nodeRun_of_runs hy) with
      ⟨schema', hb', -⟩ | ⟨-, r₁, hrun', rfl⟩
    · rw [hb'] at hbuilt
      cases hbuilt
    · obtain ⟨schema', rfl, hst', hcontent⟩ := Wider.object hl hload hc hv hst hrun hs hrun'
      exact ⟨_, rfl, hst', .some hcontent⟩
  | @boolean _ b hcurrent hbool =>
    cases hst.current.1.symm.trans hcurrent
    subst hbool
    cases nodeRun_of_runs hy with
    | boolean hcurrent' hbool' =>
      cases hst.current.2.symm.trans hcurrent'
      cases hbool'
      refine ⟨_, rfl, hst.add location narrow.draft wide.draft _ _, .some ?_⟩
      rw [Same, Schema.content_node, Schema.content_node]
      rfl
    | outside hnone => cases hst.current.2.symm.trans hnone
    | known _ hobject | badReference _ hobject | reference _ hobject | referenceEnds _ hobject
    | object _ hobject | objectEnds _ hobject => cases hobject
    | refused hcurrent' hrefused =>
      cases hst.current.2.symm.trans hcurrent'
      rw [OpenDocument.accepts, hc.all] at hrefused
      cases hrefused
  | refused => exact absurd hs (record_report_ne _ _ _ _ _ _)

theorem wider_loadNode (hc : narrow.Widens wide) (steps : Nat) :
    Wider narrow wide (loadNode steps) (loadNode steps) := by
  induction steps with
  | zero =>
    intro location value hops _
    refine ⟨fun hr => ?_, fun _ hx => ?_⟩
    · obtain ⟨-, rfl⟩ := runs_throw.mp hr
      exact List.prefix_refl _
    · cases (runs_throw.mp hx).1
  | succ steps ih => exact wider_loadWith (framed_loadNode steps) ih hc

/-- A silently read value declares the same identifier in all drafts. -/
theorem declaredId?_of_silent {steps : Nat} {value : Json} {hops : Nat} {found : Option Schema}
    (honly : narrow.active = .only narrow.draft) (hcurrent : s.current? = some narrow)
    (hbuilt : s.built = []) (hstrict : s.policy.strict = true)
    (href : value.member? "$ref" = none)
    (hr : Runs (loadNode steps location value hops) s (.ok found) s')
    (hs : s'.report = s.report) :
    Lookup.declaredId? DraftSet.all.idKeys value =
      Lookup.declaredId? (DraftSet.only narrow.draft).idKeys value := by
  cases value with
  | object object =>
    cases steps with
    | zero => cases (runs_throw.mp hr).1
    | succ steps =>
      have hl := framed_loadNode steps
      rcases plain_of_nodeRun hcurrent href (nodeRun_of_runs hr) with
        ⟨schema, hb, -⟩ | ⟨-, r, hrun, hfound⟩
      · rw [hbuilt] at hb
        cases hb
      · cases hrun with
        | ends => cases hfound
        | finished hid hm =>
          have hback := Report.eq_of_prefix hid.frame.1.report (hl.keywords hm).1.report hs
          have hfits := fits_of_keywordsRun hl hm
            ((congrArg Policy.strict hid.frame.1.policy).trans hstrict) (hs.trans hback.symm)
          rw [honly] at hfits
          exact hfits.declaredId?_eq
  | null | bool | number | string | array => rfl

end Loading

/-! ## Loads -/

theorem Request.loadAt?_congr {policy policy' : Policy} {w : Workspace} {uri : Uri}
    {document : Json} (h : Workspace.alias? policy' uri.withoutFragment.normalized document =
      Workspace.alias? policy uri.withoutFragment.normalized document) :
    loadAt? policy' w uri document =
      (loadAt? policy w uri document).map fun l => { l with policy := policy' } := by
  unfold loadAt?
  dsimp only
  rw [h]
  split <;> rfl

namespace Load

variable {draft : Draft} {l : Load}

/-- The load in all drafts. -/
def widened (l : Load) : Load := { l with policy := .standard }

/-- Nothing is reported about a `$schema` that is not there. -/
theorem session_report_eq (hmeta : l.document.member? "$schema" = none) :
    l.session.report = .empty := by
  simp [session, Session.openDocument, Session.new, hmeta, Policy.draftsOf, Session.push]

theorem widens_context (hpolicy : l.policy = (Policy.ofDraft draft).strictly true)
    (hmeta : l.document.member? "$schema" = none)
    (href : ∀ value, Json.Schemas draft l.document value → value.member? "$ref" = none) :
    l.context.draft = draft ∧ l.context.Widens l.widened.context := by
  have hnarrow : l.context = ⟨l.documentUri, l.document, draft, .only draft⟩ := by
    simp only [context, Policy.openAs, hpolicy, hmeta]
    rfl
  have hwide : l.widened.context.active = .all := by
    simp only [context, widened, Policy.openAs, hmeta]
    rfl
  rw [hnarrow]
  exact ⟨rfl, rfl, hwide, href⟩

theorem widens_session (hstrict : l.policy.strict = true)
    (hmeta : l.document.member? "$schema" = none) :
    l.session.Widens l.context l.widened.context l.widened.session := by
  have hmeta' : l.widened.document.member? "$schema" = none := hmeta
  rw [l.session_eq, l.widened.session_eq]
  exact ⟨⟨rfl, rfl⟩, hstrict, (session_report_eq hmeta).trans (session_report_eq hmeta').symm, rfl,
    rfl, .nil⟩

/-- A silent load of a whole document in one draft, made in all drafts. -/
theorem widened_run (hpolicy : l.policy = (Policy.ofDraft draft).strictly true)
    (huri : l.documentUri.withoutFragment = l.documentUri) (hself : l.uri = l.documentUri)
    (hmeta : l.document.member? "$schema" = none)
    (href : ∀ value, Json.Schemas draft l.document value → value.member? "$ref" = none)
    {schema : Schema} (h : l.run.1 = .ok (schema, .empty)) :
    Lookup.declaredId? DraftSet.all.idKeys l.document =
        Lookup.declaredId? (DraftSet.only draft).idKeys l.document ∧
      ∃ schema', l.widened.run.1 = .ok (schema', .empty) ∧ schema == schema' := by
  obtain ⟨hdraft, hc⟩ := widens_context hpolicy hmeta href
  obtain ⟨start, s, hlocate, hread, hreport, -⟩ := run_ok h
  have hstart : l.context.locate l.uri = some (.ofDocument l.documentUri, l.document) := by
    rw [hself]
    exact OpenDocument.locate_self huri
  cases hstart.symm.trans hlocate
  have hsilent : s.report = l.session.report := hreport.trans (session_report_eq hmeta).symm
  have hstrict : l.policy.strict = true := by rw [hpolicy]; rfl
  have hst := widens_session hstrict hmeta
  have hroot : Json.Schemas l.context.draft l.context.document l.document := .root
  have hid := Loading.declaredId?_of_silent hc.only hst.current.1
    (congrArg Session.built l.session_eq) hst.strict (hc.unreferenced _ hroot) hread hsilent
  rw [hdraft] at hid
  refine ⟨hid, ?_⟩
  have hstart' : l.widened.context.locate l.widened.uri =
      some (.ofDocument l.documentUri, l.document) := by
    change l.widened.context.locate l.uri = _
    rw [hself]
    exact OpenDocument.locate_self huri
  cases hread' : (ExceptT.run (l.widened.reading (.ofDocument l.documentUri, l.document))).run
      l.widened.session with
  | mk r t =>
    obtain ⟨found, rfl, hst', hfound⟩ :=
      (Loading.wider_loadNode hc l.workspace.stepLimit hroot).echo hst hread hsilent hread'
    cases hfound with
    | @some _ schema' hcontent =>
      refine ⟨schema', ?_, schema.equals_of_content schema' hcontent⟩
      have hempty : t.report = .empty := hst'.report.symm.trans hreport
      unfold run
      simp only [hstart', hread', Workspace.conclude, hempty]
      rfl

end Load

namespace Workspace

/-- A document without references and without a `$schema` that a strict load in one draft reads
without a report is read without a report in all drafts, as an equal schema. -/
theorem readReporting_standard {draft : Draft} {w w' : Workspace} {uri : Uri} {document : Json}
    {schema : Schema} (hfresh : w.cache.contains uri.withoutFragment.normalized = false)
    (hmeta : document.member? "$schema" = none)
    (href : ∀ value, Json.Schemas draft document value → value.member? "$ref" = none)
    (hr : Runs (readReporting ((Policy.ofDraft draft).strictly true) uri document) w
      (.ok (schema, .empty)) w') :
    ∃ schema' w'', Runs (readReporting .standard uri document) w (.ok (schema', .empty)) w'' ∧
      schema == schema' := by
  cases hl : Request.loadAt? ((Policy.ofDraft draft).strictly true) w uri document with
  | none =>
    simp only [Request.loadAt?, hfresh, Bool.false_eq_true, if_false] at hl
    cases hl
  | some l =>
    have hrun := ((Request.runs_readReporting_of_load hl).unique hr).1
    obtain ⟨hpolicy, hself, rfl⟩ := Request.loadAt?_some hl
    have huri : l.documentUri.withoutFragment = l.documentUri :=
      @Request.load?_documentUri _ _ (.named uri l.document) _ hl
    obtain ⟨hid, schema', hrun', hequal⟩ :=
      Load.widened_run hpolicy huri hself hmeta href hrun
    have halias : alias? .standard uri.withoutFragment.normalized l.document =
        alias? ((Policy.ofDraft draft).strictly true) uri.withoutFragment.normalized
          l.document := by
      have hall : Policy.standard.drafts = .all := rfl
      have honly : ((Policy.ofDraft draft).strictly true).drafts = .only draft := rfl
      unfold alias?
      simp only [hmeta, Option.bind_none, Policy.draftsOf, hall, honly, hid]
    have hl' : Request.loadAt? .standard w uri l.document = some l.widened := by
      rw [Request.loadAt?_congr halias, hl]
      rfl
    have hr' := Request.runs_readReporting_of_load hl'
    rw [hrun'] at hr'
    exact ⟨schema', _, hr', hequal⟩

theorem readReporting_standard_profile : ∃ schema w' schema' w'',
    Runs (readReporting ((Policy.ofDraft .draft4).strictly true)
      ⟨"urn", none, .opaqueText "profile", none, none⟩ profile) .empty
      (.ok (schema, .empty)) w' ∧
    Runs (readReporting .standard ⟨"urn", none, .opaqueText "profile", none, none⟩ profile) .empty
      (.ok (schema', .empty)) w'' ∧ schema == schema' := by
  have hcheck : ((ExceptT.run (readReporting ((Policy.ofDraft .draft4).strictly true)
      ⟨"urn", none, .opaqueText "profile", none, none⟩ profile)).run .empty).1.toOption.any
      (fun answer => answer.2.issues.isEmpty) = true := by
    decide +kernel
  cases hr : (ExceptT.run (readReporting ((Policy.ofDraft .draft4).strictly true)
      ⟨"urn", none, .opaqueText "profile", none, none⟩ profile)).run .empty with
  | mk answer w' =>
    rw [hr] at hcheck
    cases answer with
    | error failure => cases hcheck
    | ok answer =>
      obtain ⟨schema, report⟩ := answer
      have hreport : report = .empty := congrArg Report.mk (List.isEmpty_iff.mp hcheck)
      subst hreport
      obtain ⟨schema', w'', hr', hequal⟩ := readReporting_standard rfl rfl
        (fun _ h => (plain_profile _ h).reference) hr
      exact ⟨schema, w', schema', w'', hr, hr', hequal⟩

end Workspace
end SchemaAtlas
