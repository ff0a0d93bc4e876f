import SchemaAtlas.Proofs.Loading.Commit
import SchemaAtlas.Proofs.Loading.Composed
import SchemaAtlas.Proofs.Loading.Strictness

/-!
# Reports and outcomes

What is recorded on the way to a node tells how the way ended: a step that a fatal issue
stops has recorded it last, and every other step has recorded none (`Told`). All steps of a
load are like this, so its report agrees with its result.
-/

namespace SchemaAtlas

/-- The issue leaves the load running, and is an error only if the load is strict. -/
structure Issue.Mild (strict : Bool) (issue : Issue) : Prop where
  running : issue.kind.isFatal = false
  lenient : strict = false → issue.severity ≠ .error

/-- The issues recorded by a step that ended in some way. -/
inductive Told {α : Type} (strict : Bool) : Except Stop α → List Issue → Prop
  | running {r : Except Stop α} {issues : List Issue} : r ≠ .error .fatal →
    (∀ issue ∈ issues, issue.Mild strict) → Told strict r issues
  | stopped {front : List Issue} {last : Issue} : (∀ issue ∈ front, issue.Mild strict) →
    last.kind.isFatal = true → last.severity = .error → Told strict (.error .fatal) (front ++ [last])

namespace Told

variable {α β : Type} {strict : Bool} {r : Except Stop α} {issues : List Issue}

theorem mild (h : Told strict r issues) (hr : r ≠ .error .fatal) :
    ∀ issue ∈ issues, issue.Mild strict := by
  cases h with
  | running _ hmild => exact hmild
  | stopped => exact absurd rfl hr

/-- What stops a step is its last issue. -/
theorem last (h : Told strict (.error .fatal : Except Stop α) issues) :
    ∃ front last, issues = front ++ [last] ∧ (∀ issue ∈ front, issue.Mild strict) ∧
      last.kind.isFatal = true ∧ last.severity = .error := by
  cases h with
  | running hr _ => exact absurd rfl hr
  | stopped hmild hkind hseverity => exact ⟨_, _, rfl, hmild, hkind, hseverity⟩

theorem after {before : List Issue} (hbefore : ∀ issue ∈ before, issue.Mild strict)
    (h : Told strict r issues) : Told strict r (before ++ issues) := by
  cases h with
  | running hr hmild =>
    exact .running hr fun issue hi => (List.mem_append.mp hi).elim (hbefore issue) (hmild issue)
  | stopped hmild hkind hseverity =>
    rw [← List.append_assoc]
    exact .stopped (fun issue hi => (List.mem_append.mp hi).elim (hbefore issue) (hmild issue))
      hkind hseverity

/-- Which result a step would have had does not matter once it is stopped. -/
theorem error {e : Stop} (h : Told strict (.error e : Except Stop α) issues) :
    Told strict (.error e : Except Stop β) issues := by
  cases e with
  | exhausted => exact .running (by simp) (h.mild (by simp))
  | fatal =>
    obtain ⟨front, last, rfl, hmild, hkind, hseverity⟩ := h.last
    exact .stopped hmild hkind hseverity

theorem one {issue : Issue} (h : issue.Mild strict) (hr : r ≠ .error .fatal) :
    Told strict r [issue] := by
  refine .running hr fun other ho => ?_
  cases List.mem_singleton.mp ho
  exact h

theorem fatal {issue : Issue} (hkind : issue.kind.isFatal = true)
    (hseverity : issue.severity = .error) :
    Told strict (.error .fatal : Except Stop α) [issue] :=
  have hfront : ∀ earlier ∈ ([] : List Issue), earlier.Mild strict := by simp
  .stopped hfront hkind hseverity

end Told

/-- The document may be one of an unknown meta-schema. -/
theorem Session.openDocument_mild (s : Session) (uri : Uri) (document : Json) :
    (s.openDocument uri document).2.policy = s.policy ∧
      ∃ more, (s.openDocument uri document).2.report.issues = s.report.issues ++ more ∧
        ∀ issue ∈ more, issue.Mild s.policy.strict := by
  unfold openDocument
  split
  · exact ⟨rfl, [], (List.append_nil _).symm, fun _ hi => absurd hi List.not_mem_nil⟩
  · dsimp only
    split
    · refine ⟨rfl, _, Report.record_issues .., fun issue hi => ?_⟩
      cases List.mem_singleton.mp hi
      exact ⟨rfl, fun _ => by simp⟩
    · exact ⟨rfl, [], (List.append_nil _).symm, fun _ hi => absurd hi List.not_mem_nil⟩

open LoadM

/-- A step that adds to the report what tells how it ended, under the policy of the session. -/
structure Candid {α : Type} (x : LoadM α) : Prop where
  policy {s s' : Session} {r : Except Stop α} : Runs x s r s' → s'.policy = s.policy
  told {s s' : Session} {r : Except Stop α} : Runs x s r s' →
    ∃ more, s'.report.issues = s.report.issues ++ more ∧ Told s.policy.strict r more

namespace Candid

variable {α β : Type} {x : LoadM α}

/-- A step that ends in one way and leaves the report alone. -/
theorem still {g : Session → Session} (hg : Session.Still g)
    (h : ∀ {s r s'}, Runs x s r s' → s' = g s ∧ r ≠ .error .fatal) : Candid x where
  policy hr := by
    rw [(h hr).1]
    exact hg.policy _
  told {s _ _} hr := by
    obtain ⟨rfl, hne⟩ := h hr
    exact ⟨[], by rw [hg.report s, List.append_nil],
      .running hne fun _ hi => absurd hi List.not_mem_nil⟩

/-- A step that records one issue. -/
theorem recorded
    (h : ∀ {s r s'}, Runs x s r s' → ∃ severity kind document path message,
      s' = s.record severity kind document path message ∧
        Told s.policy.strict r [⟨path, document.text, kind, severity, message⟩]) : Candid x where
  policy hr := by
    obtain ⟨_, _, _, _, _, rfl, _⟩ := h hr
    rfl
  told hr := by
    obtain ⟨_, _, _, _, _, rfl, htold⟩ := h hr
    exact ⟨_, Report.record_issues .., htold⟩

theorem bind {f : α → LoadM β} (hx : Candid x) (hf : ∀ a, Candid (f a)) : Candid (x >>= f) where
  policy hr := by
    rcases runs_bind.mp hr with ⟨a, s₁, hr₁, hr₂⟩ | ⟨e, hr₁, rfl⟩
    · exact ((hf a).policy hr₂).trans (hx.policy hr₁)
    · exact hx.policy hr₁
  told hr := by
    rcases runs_bind.mp hr with ⟨a, s₁, hr₁, hr₂⟩ | ⟨e, hr₁, rfl⟩
    · obtain ⟨more₁, hs₁, htold₁⟩ := hx.told hr₁
      obtain ⟨more₂, hs₂, htold₂⟩ := (hf a).told hr₂
      rw [hx.policy hr₁] at htold₂
      exact ⟨more₁ ++ more₂, by rw [hs₂, hs₁, List.append_assoc],
        htold₂.after (htold₁.mild (by simp))⟩
    · obtain ⟨more, hs, htold⟩ := hx.told hr₁
      exact ⟨more, hs, htold.error⟩

theorem between {before after : Session → Session} (hbefore : Session.Still before)
    (hafter : Session.Still after) (hx : Candid x) : Candid (LoadM.between before after x) where
  policy hr := by
    obtain ⟨s₁, hr₁, rfl⟩ := runs_between.mp hr
    exact (hafter.policy s₁).trans ((hx.policy hr₁).trans (hbefore.policy _))
  told hr := by
    obtain ⟨s₁, hr₁, rfl⟩ := runs_between.mp hr
    obtain ⟨more, hs, htold⟩ := hx.told hr₁
    rw [hbefore.report] at hs
    rw [hbefore.policy] at htold
    exact ⟨more, by rw [hafter.report, hs], htold⟩

theorem openDocument (uri : Uri) (document : Json) :
    Candid (modifyGet (Session.openDocument uri document)) where
  policy hr := by
    obtain ⟨-, rfl⟩ := runs_modifyGet.mp hr
    exact (Session.openDocument_mild _ uri document).1
  told hr := by
    obtain ⟨rfl, rfl⟩ := runs_modifyGet.mp hr
    obtain ⟨-, more, hs, hmild⟩ := Session.openDocument_mild _ uri document
    exact ⟨more, hs, .running (by simp) hmild⟩

end Candid

theorem candid_compositional : Compositional Candid where
  pure a := .still ⟨fun _ => rfl, fun _ => rfl⟩ fun hr => by
    obtain ⟨rfl, rfl⟩ := runs_pure.mp hr
    exact ⟨rfl, by simp⟩
  exhausted := .still ⟨fun _ => rfl, fun _ => rfl⟩ fun hr => by
    obtain ⟨rfl, rfl⟩ := runs_throw.mp hr
    exact ⟨rfl, by simp⟩
  bind := Candid.bind
  along h :=
    { policy := fun {s _ _} hr => by
        obtain ⟨y, hy, hxy⟩ := h s
        exact hy.policy (hxy hr)
      told := fun {s _ _} hr => by
        obtain ⟨y, hy, hxy⟩ := h s
        exact hy.told (hxy hr) }
  fatal location message hkind := .recorded fun hr => by
    obtain ⟨rfl, rfl⟩ := runs_fatal.mp hr
    exact ⟨_, _, _, _, _, rfl, .fatal hkind rfl⟩
  malformed location message hkind := .recorded fun hr => by
    obtain ⟨rfl, rfl⟩ := runs_malformed.mp hr
    exact ⟨_, _, _, _, _, rfl, .one ⟨hkind, fun hstrict => by simp [hstrict]⟩ (by simp)⟩
  warning location message hkind := .recorded fun hr => by
    obtain ⟨rfl, rfl⟩ := runs_issue.mp hr
    exact ⟨_, _, _, _, _, rfl, .one ⟨hkind, fun _ => by simp⟩ (by simp)⟩
  unknown location message a b := by
    have hrun : ∀ {s s' : Session} {r}, Runs (do
        if (← get).policy.strict then
          issue .error .keywordNotFound location message
          return a
        else return b) s r s' → r ≠ .error .fatal ∧
          (s.policy.strict = true ∧ s' = s.record .error .keywordNotFound location.document
            location.path message ∨ s' = s) := by
      intro s s' r hr
      have hr := runs_get_bind.mp hr
      split at hr
      · rename_i hstrict
        obtain ⟨_, _, hissue, hr⟩ | ⟨_, hissue, -⟩ := runs_bind.mp hr
        · obtain ⟨-, rfl⟩ := runs_issue.mp hissue
          obtain ⟨rfl, rfl⟩ := runs_pure.mp hr
          exact ⟨by simp, Or.inl ⟨hstrict, rfl⟩⟩
        · cases (runs_issue.mp hissue).1
      · obtain ⟨rfl, rfl⟩ := runs_pure.mp hr
        exact ⟨by simp, Or.inr rfl⟩
    constructor
    · intro s s' r hr
      obtain ⟨-, ⟨-, rfl⟩ | rfl⟩ := hrun hr <;> rfl
    · intro s s' r hr
      obtain ⟨hne, ⟨hstrict, rfl⟩ | rfl⟩ := hrun hr
      · exact ⟨_, Report.record_issues .., .one ⟨rfl, fun hlenient => by simp [hstrict] at hlenient⟩ hne⟩
      · exact ⟨[], (List.append_nil _).symm, .running hne fun _ hi => absurd hi List.not_mem_nil⟩
  modify hg := .still hg fun hr => by
    obtain ⟨rfl, rfl⟩ := runs_modify.mp hr
    exact ⟨rfl, by simp⟩
  openDocument := Candid.openDocument
  onStore step := .still (g := fun s => { s with store := (step s.store).2 })
    ⟨fun _ => rfl, fun _ => rfl⟩ fun hr => by
      obtain ⟨rfl, rfl⟩ := runs_onStore.mp hr
      exact ⟨rfl, by simp⟩
  between := Candid.between

/-! ## Loads -/

/-- The error of a load that ends well with nothing. -/
def Issue.notSchema (uri : Uri) : Issue :=
  { path := .root, document := (Location.ofDocument uri).document.text, kind := .typeMismatch,
    severity := .error, message := "document is not a schema" }

/-- The report that comes with a result agrees with it. A fatal issue is an error and the last
issue of all, none of the others being fatal. A lenient load that fails with a report has
ended at a fatal issue, or found that there is no schema at the URI asked for; this is its
only error. -/
def Truthful (strict : Bool) (uri? : Option Uri) : Except Failure (Schema × Report) → Prop
  | .ok (_, report) =>
    report.hasErrors = false ∧ ∀ issue ∈ report.issues, issue.kind.isFatal = false
  | .error (.loading report) =>
    report.hasErrors = true ∧
    (∀ front issue back, report.issues = front ++ issue :: back → issue.kind.isFatal = true →
      issue.severity = .error ∧ back = [] ∧ ∀ other ∈ front, other.kind.isFatal = false) ∧
    (strict = false → ∃ front last, report.issues = front ++ [last] ∧
      (∀ issue ∈ front, issue.severity ≠ .error) ∧
      (last.kind.isFatal = true ∧ last.severity = .error ∨
        ∃ uri, uri? = some uri ∧ last = .notSchema uri))
  | .error _ => True

namespace Report

variable {strict : Bool} {report : Report} {front : List Issue} {last : Issue}

theorem hasErrors_of_last (hissues : report.issues = front ++ [last])
    (hseverity : last.severity = .error) : report.hasErrors = true := by
  rw [hasErrors, hissues]
  simp [hseverity]

/-- After issues that leave the load running, only the last issue can be fatal. -/
theorem fatal_last (hissues : report.issues = front ++ [last])
    (hmild : ∀ issue ∈ front, issue.Mild strict) (hseverity : last.severity = .error)
    (front' : List Issue) (issue : Issue) (back : List Issue)
    (heq : report.issues = front' ++ issue :: back) (hkind : issue.kind.isFatal = true) :
    issue.severity = .error ∧ back = [] ∧ ∀ other ∈ front', other.kind.isFatal = false := by
  rw [hissues] at heq
  rcases List.eq_nil_or_concat back with rfl | ⟨middle, final, rfl⟩
  · obtain ⟨rfl, hlast⟩ := List.append_inj' heq rfl
    cases hlast
    exact ⟨hseverity, rfl, fun other ho => (hmild other ho).running⟩
  · have hmem : issue ∈ front := by
      have heq : front ++ [last] = (front' ++ issue :: middle) ++ [final] := by simpa using heq
      rw [(List.append_inj' heq rfl).1]
      simp
    rw [(hmild issue hmem).running] at hkind
    cases hkind

/-- A report of issues that leave the load running has no fatal issue. -/
theorem not_fatal (hmild : ∀ issue ∈ report.issues, issue.Mild strict)
    (front : List Issue) (issue : Issue) (back : List Issue)
    (heq : report.issues = front ++ issue :: back) : ¬ issue.kind.isFatal = true := by
  rw [(hmild issue (by simp [heq])).running]
  exact Bool.false_ne_true

end Report

/-- A report that tells how the reading ended agrees with the conclusion from it. -/
theorem Told.truthful {strict : Bool} {outcome : Except Stop (Option Schema)} {s : Session}
    (h : Told strict outcome s.report.issues) (uri : Uri) :
    Truthful strict (some uri) (Workspace.conclude uri outcome s).1 := by
  unfold Workspace.conclude
  rcases outcome with (_ | _) | _ | schema
  · -- stopped by a fatal issue
    obtain ⟨front, last, hissues, hmild, hkind, hseverity⟩ := h.last
    refine ⟨Report.hasErrors_of_last hissues hseverity,
      Report.fatal_last hissues hmild hseverity, fun hlenient => ?_⟩
    exact ⟨_, _, hissues, fun issue hi => (hmild issue hi).lenient hlenient,
      Or.inl ⟨hkind, hseverity⟩⟩
  · trivial
  · -- ended well, but with nothing
    have hmild := h.mild (by simp)
    have hissues : (s.report.record (.notSchema uri)).issues =
        s.report.issues ++ [.notSchema uri] := Report.record_issues ..
    refine ⟨Report.hasErrors_of_last hissues rfl, Report.fatal_last hissues hmild rfl,
      fun hlenient => ?_⟩
    exact ⟨_, _, hissues, fun issue hi => (hmild issue hi).lenient hlenient,
      Or.inr ⟨uri, rfl, rfl⟩⟩
  · have hmild := h.mild (by simp)
    dsimp only
    split
    · rename_i herrors
      refine ⟨herrors, fun front issue back heq hkind =>
        absurd hkind (Report.not_fatal hmild front issue back heq), fun hlenient => ?_⟩
      -- a lenient load with an error has not ended well
      obtain ⟨issue, hi, hseverity⟩ := List.any_eq_true.mp herrors
      exact absurd (of_decide_eq_true hseverity) ((hmild issue hi).lenient hlenient)
    · rename_i herrors
      exact ⟨by simpa using herrors, fun issue hi => (hmild issue hi).running⟩

namespace Load

/-- What is reported before the reading begins. -/
theorem session_mild (l : Load) : l.session.policy = l.policy ∧
    ∀ issue ∈ l.session.report.issues, issue.Mild l.policy.strict := by
  obtain ⟨hpolicy, more, hissues, hmild⟩ := Session.openDocument_mild
    (Session.new l.policy l.workspace.cache l.workspace.documents l.workspace.store)
    l.documentUri l.document
  have hmore : l.session.report.issues = more := hissues
  exact ⟨hpolicy, fun issue hi => hmild issue (hmore ▸ hi)⟩

theorem told {l : Load} {start : Location × Json} {outcome : Except Stop (Option Schema)}
    {s : Session} (h : Runs (l.reading start) l.session outcome s) :
    Told l.policy.strict outcome s.report.issues := by
  obtain ⟨hpolicy, hmild⟩ := l.session_mild
  have hcandid : Candid (l.reading start) := candid_compositional.loadNode ..
  obtain ⟨more, hmore, htold⟩ := hcandid.told h
  rw [hmore]
  rw [hpolicy] at htold
  exact htold.after hmild

/-- The report of a load agrees with its result. -/
theorem truthful (l : Load) : Truthful l.policy.strict (some l.uri) l.run.1 := by
  unfold Load.run
  cases hl : l.context.locate l.uri with
  | none => trivial
  | some start => exact Told.truthful (told rfl) l.uri

end Load

/-! ## Requests -/

namespace Request

/-- Without a load there is no report of a failure. -/
theorem not_loading_of_load?_none {request : Request} {policy : Policy} {w : Workspace}
    (h : request.load? policy w = none) (report : Report) :
    (request.run policy w).1 ≠ .error (.loading report) := by
  have hnamed : ∀ {uri : Uri} {document : Json}, loadAt? policy w uri document = none →
      ((ExceptT.run (Workspace.readAt policy uri document)).run w).1 ≠
        .error (.loading report) := by
    intro uri document hnone
    obtain ⟨schema, -, hr⟩ := runs_readReporting_of_none hnone
    have hrun : (ExceptT.run (Workspace.readAt policy uri document)).run w = (.ok schema, w) :=
      hr.returning Prod.fst
    rw [hrun]
    simp
  cases request with
  | ofDocument document => exact hnamed h
  | ofText text =>
    change ((ExceptT.run (Workspace.readText policy text)).run w).1 ≠ _
    unfold Workspace.readText
    cases hd : Json.read text with
    | none =>
      rw [show (ExceptT.run (throw .json : WorkspaceM Schema)).run w = (.error .json, w) from rfl]
      simp
    | some document =>
      simp only [load?, hd, Option.bind_some] at h
      exact hnamed h
  | named uri document => exact hnamed h
  | ofUri uri =>
    have hrun : (ofUri uri).run policy w = _ := runs_loadUri_of_none h
    rw [hrun]
    cases w.cache.get? uri.normalized <;> simp

/-- Every request is answered with the result of its reply, and every reply agrees with its
report; the reply to a document that has a URI is what is reported about it. -/
theorem truthful_replies (policy : Policy) (w : Workspace) :
    (∀ request : Request,
      request.run policy w =
        ((request.reply policy w).1.map Prod.fst, (request.reply policy w).2) ∧
      Truthful policy.strict request.uri? (request.reply policy w).1) ∧
    ∀ uri document, Runs (Workspace.readReporting policy uri document) w
      ((Request.named uri document).reply policy w).1
      ((Request.named uri document).reply policy w).2 := by
  refine ⟨fun request => ⟨run_eq_reply request policy w, ?_⟩, runs_readReporting⟩
  unfold reply
  cases hl : request.load? policy w with
  | some l =>
    have htruthful := l.truthful
    rw [(load?_workspace hl).1] at htruthful
    rw [((Workspace.asks_request policy request).loads hl).1]
    exact htruthful
  | none =>
    have hnot := not_loading_of_load?_none hl
    rcases hr : (request.run policy w).1 with failure | schema
    · cases failure with
      | loading report => exact absurd hr (hnot report)
      | invalidUri | documentNotFound | unresolvedReference | json | exhausted => trivial
    · exact ⟨rfl, fun _ hi => absurd hi List.not_mem_nil⟩

end Request
end SchemaAtlas
