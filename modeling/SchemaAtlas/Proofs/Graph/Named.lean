import SchemaAtlas.Proofs.Graph.Drafts
import SchemaAtlas.Proofs.Graph.Provenance

/-!
# Policies of one draft

A policy of one draft understands the keywords of that draft where a document does not say what
it is written in. A document that names a known draft is read in the draft that it names, also
when another document refers to it. So every node is one of a single draft, which is that of the
policy unless its document names another (`Request.isOf_of_run`).
-/

namespace SchemaAtlas

/-- The draft whose meta-schema a document names. -/
def Json.draft? (document : Json) : Option Draft :=
  ((document.member? "$schema").bind Json.string?).bind Draft.ofMetaSchema?

/-- The node is one of a draft: it is read as such, and all its keywords exist there. -/
structure Schema.IsOf (t : Schema) (draft : Draft) : Prop where
  read : t.draft = draft
  known : ∀ entry ∈ t.keywords, (Catalog.draftsOf entry.1).contains draft = true

theorem Schema.IsOf.unique {t : Schema} {draft other : Draft} (h : t.IsOf draft)
    (h' : t.IsOf other) : draft = other :=
  h.read.symm.trans h'.read

namespace Policy

/-- A policy of one draft opens every document in a single draft. -/
theorem openAs_ofDraft (draft : Draft) (uri : Uri) (document : Json) :
    ((ofDraft draft).openAs uri document).draft = document.draft?.getD draft ∧
      ((ofDraft draft).openAs uri document).active = .only (document.draft?.getD draft) := by
  unfold openAs Json.draft?
  cases (document.member? "$schema").bind Json.string? with
  | none => exact ⟨rfl, rfl⟩
  | some text =>
    cases hd : Draft.ofMetaSchema? text with
    | none => simp [draftsOf, hd, ofDraft]
    | some named => simp [draftsOf, hd]

end Policy

theorem KeywordKind.isIn_only {kind : KeywordKind} {draft : Draft} :
    kind.isIn (.only draft) = true ↔ (Catalog.draftsOf kind).contains draft = true := by
  rw [isIn, DraftSet.intersects, List.any_eq_true, DraftSet.contains, List.contains_iff_mem]
  constructor
  · rintro ⟨other, hm, hother⟩
    rw [DraftSet.only, DraftSet.contains_filter, decide_eq_true_eq] at hother
    exact hother ▸ hm
  · intro hm
    exact ⟨draft, hm, by rw [DraftSet.only, DraftSet.contains_filter, decide_eq_true_eq]⟩

namespace Load

open Loading Session

variable {l : Load} {schema t : Schema} {report : Report}

/-- The nodes that a load makes are dated when it ends. -/
theorem dates_of_run (huri : l.documentUri.withoutFragment = l.documentUri)
    (hloaded : l.workspace.documents.loaded? l.documentUri = some l.document)
    (h : l.run.1 = .ok (schema, report)) (ht : l.workspace.Finishes l.run.2 t) :
    ∃ document, l.run.2.documents.loaded? t.location.document = some document ∧
      t.draft = (l.policy.openAs t.location.document document).draft ∧
      ∀ entry ∈ t.keywords,
        entry.1.isIn (l.policy.openAs t.location.document document).active = true := by
  obtain ⟨start, s, hlocate, hread, -, -, heq⟩ := run_ok h
  have hdocument : start.1.document = l.context.uri := by
    have hroot := OpenDocument.document_of_locate hlocate
    rwa [Uri.normalized_of_fragment_ne (by rw [Load.context, Policy.openAs, ← huri]; simp)]
      at hroot
  obtain ⟨hdated, -⟩ := dating_loadNode l.first l.workspace.stepLimit
    (dated_session huri hloaded) rfl hdocument hread
  have hpolicy : s.policy = l.policy := by
    rw [((framed_loadNode l.workspace.stepLimit).frame hread).policy, l.session_eq]
    rfl
  have hstored := ht.stored
  rw [heq] at hstored ⊢
  obtain ⟨context, hheld, hlocation, hdraft, hkinds⟩ := hdated.nodes ht.fresh hstored
  have hopened : l.policy.openAs context.uri context.document = context := hpolicy ▸ hheld.opened
  refine ⟨context.document, ?_, ?_, ?_⟩ <;> rw [hlocation]
  · exact hheld.loaded
  · rw [hopened]
    exact hdraft
  · rw [hopened]
    exact hkinds

end Load

namespace Request

variable {request : Request} {w w' : Workspace} {s t : Schema}

/-- All nodes that are reached after a fresh load were made by the load. -/
theorem finishes_of_run {policy : Policy} (hcache : ∀ uri, w.cache.get? uri = none)
    (hrun : request.run policy w = (.ok s, w')) (ht : w'.store.Reaches s t) :
    ∃ l report, request.load? policy w = some l ∧ l.run = (.ok (s, report), w') ∧
      l.workspace.Finishes w' t := by
  cases hl : request.load? policy w with
  | none =>
    obtain ⟨r, hanswer, heq⟩ := answer_of_load?_none hl
    rw [hrun] at heq
    cases heq
    cases hanswer with
    | cached hc =>
      rw [hcache] at hc
      cases hc
  | some l =>
    obtain ⟨report, hok, rfl⟩ := run_ok_of_load? hl hrun
    obtain ⟨-, hsame, -⟩ := load?_workspace hl
    have hnone : ∀ uri c, l.workspace.cache.get? uri ≠ some c := by
      intro uri c hc
      rw [hsame, hcache] at hc
      cases hc
    rcases l.reaches_cases (fun uri c hc => (hnone uri c hc).elim) hok ht with
      hmade | ⟨uri, c, hc, -⟩
    · exact ⟨l, report, rfl, Prod.ext hok rfl, hmade⟩
    · exact (hnone uri c hc).elim

/-- With a policy of one draft every node that a fresh load reaches is one of a single draft: the
one that its document names, or else that of the policy. So all nodes are of the draft of the
policy if and only if none of their documents names another one. -/
theorem isOf_of_run {draft : Draft} (hcache : ∀ uri, w.cache.get? uri = none)
    (hrun : request.run (.ofDraft draft) w = (.ok s, w')) :
    (∀ t, w'.store.Reaches s t → ∃ document,
      w'.documents.loaded? t.location.document = some document ∧
        t.IsOf (document.draft?.getD draft)) ∧
    ((∀ t, w'.store.Reaches s t → t.IsOf draft) ↔ ∀ t document, w'.store.Reaches s t →
      w'.documents.loaded? t.location.document = some document →
        ∀ named, document.draft? = some named → named = draft) := by
  have hnodes : ∀ t, w'.store.Reaches s t → ∃ document,
      w'.documents.loaded? t.location.document = some document ∧
        t.IsOf (document.draft?.getD draft) := by
    intro t ht
    obtain ⟨l, report, hl, hok, hmade⟩ := finishes_of_run hcache hrun ht
    obtain ⟨hpolicy, -, -⟩ := load?_workspace hl
    obtain ⟨document, hloaded, hdraft, hkinds⟩ := Load.dates_of_run (load?_documentUri hl)
      (load?_loaded hl) (congrArg Prod.fst hok) (by rw [hok]; exact hmade)
    obtain ⟨hread, hactive⟩ := Policy.openAs_ofDraft draft t.location.document document
    rw [hok] at hloaded
    rw [hpolicy, hread] at hdraft
    rw [hpolicy, hactive] at hkinds
    exact ⟨document, hloaded, hdraft, fun entry he => KeywordKind.isIn_only.mp (hkinds entry he)⟩
  refine ⟨hnodes, fun hall t document ht hloaded named hnamed => ?_, fun hall t ht => ?_⟩
  · obtain ⟨document', hloaded', hof⟩ := hnodes t ht
    cases hloaded.symm.trans hloaded'
    rw [hnamed] at hof
    exact hof.unique (hall t ht)
  · obtain ⟨document, hloaded, hof⟩ := hnodes t ht
    cases hd : document.draft? with
    | none =>
      rw [hd] at hof
      exact hof
    | some named =>
      rw [hd] at hof
      exact hall t document ht hloaded named hd ▸ hof

/-- A schema that names a draft by a text and has a constant beside a reference. -/
def naming (text : String) : Request :=
  .named ⟨"http", some "e.com", .segments ["a.json"], none, none⟩
    (.object [("$schema", .string text), ("const", .null),
      ("items", .object [("$ref", .string "b.json")])])

/-- The other document, which is one of the fourth draft. -/
def namingDocuments : Documents :=
  .ofList [(⟨"http", some "e.com", .segments ["b.json"], none, none⟩,
    .object [("$schema", .string "json-schema.org/draft-04/schema"), ("title", .string "B")])]

/-- A name that is not known leaves the draft of the policy. -/
theorem isOf_of_unknown : ∃ s w', (∀ uri, (Workspace.mk namingDocuments .empty .empty).cache.get?
      uri = none) ∧
    (naming "e.com/schema").run (.ofDraft .draft4) ⟨namingDocuments, .empty, .empty⟩ =
      (.ok s, w') ∧
    (∃ t, w'.store.Reaches s t ∧ t.location.document ≠ s.location.document) ∧
    ∀ t, w'.store.Reaches s t → t.IsOf .draft4 := by
  have hcheck : ((naming "e.com/schema").run (.ofDraft .draft4)
      ⟨namingDocuments, .empty, .empty⟩).1.toOption.any (fun s =>
        let w := ((naming "e.com/schema").run (.ofDraft .draft4)
          ⟨namingDocuments, .empty, .empty⟩).2
        (w.documents.loaded.all fun entry => entry.2.draft?.all (· = .draft4)) &&
          (w.store.next s).any fun r => (w.store.next r).any fun t =>
            t.location.document ≠ s.location.document) = true := by
    decide +kernel
  cases hr : (naming "e.com/schema").run (.ofDraft .draft4) ⟨namingDocuments, .empty, .empty⟩ with
  | mk answer w' =>
    rw [hr] at hcheck
    cases answer with
    | error failure => cases hcheck
    | ok s =>
      simp only [Except.toOption, Option.any_some, Bool.and_eq_true, decide_eq_true_eq,
        List.any_eq_true, List.all_eq_true] at hcheck
      obtain ⟨hloaded, r, hnext, t, hnext', ht⟩ := hcheck
      have hreaches : w'.store.Reaches s t :=
        .tail (.single (Store.mem_next.mp hnext)) (Store.mem_next.mp hnext')
      refine ⟨s, w', fun _ => rfl, rfl, ⟨t, hreaches, ht⟩,
        (isOf_of_run (fun _ => rfl) hr).2.mpr fun t document _ hdocument named hnamed => ?_⟩
      have hentry := hloaded _ (Entries.mem_of_get? hdocument)
      rw [hnamed] at hentry
      exact of_decide_eq_true hentry

/-- A document that names the seventh draft is read in that draft, constant and all, under the
policy of the fourth draft. -/
theorem not_isOf_of_named : ∃ s w',
    (naming "json-schema.org/draft-07/schema").run (.ofDraft .draft4)
      ⟨namingDocuments, .empty, .empty⟩ = (.ok s, w') ∧
    s.draft = .draft7 ∧ .const ∈ Entries.keys s.keywords ∧
    (Catalog.draftsOf .const).contains .draft4 = false ∧ ¬s.IsOf .draft4 := by
  have hcheck : ((naming "json-schema.org/draft-07/schema").run (.ofDraft .draft4)
      ⟨namingDocuments, .empty, .empty⟩).1.toOption.any (fun s =>
        s.draft = .draft7 && (Entries.keys s.keywords).contains .const) = true := by
    decide +kernel
  obtain ⟨s, w', hrun, htest⟩ := exists_of_any_run hcheck
  simp only [Bool.and_eq_true, decide_eq_true_eq, List.contains_iff_mem] at htest
  refine ⟨s, w', hrun, htest.1, htest.2, by decide, fun hof => ?_⟩
  cases htest.1.symm.trans hof.read

end Request
end SchemaAtlas
