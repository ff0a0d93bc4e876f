import SchemaAtlas.Proofs.Loading.Anew
import SchemaAtlas.Proofs.Loading.Links
import SchemaAtlas.Proofs.Loading.Pairing
import SchemaAtlas.Proofs.Loading.Throughout
import SchemaAtlas.Proofs.Loading.Twins
import SchemaAtlas.Proofs.Schema.Content

/-!
# A load gives what reading anew gives

A load without references that answers every call with a node of its own place reads a place in
the same way whenever it comes to it: what it finds among the finished nodes is what reading the
place anew would give, in content and in whether an error is recorded. The invariant
`Session.Recollects` says so of the finished nodes. It is kept because the reading of an object
with it and the reading of the object anew repeat each other, step by step (`LoadM.Redoes`), and
because a place has one position only.
-/

namespace SchemaAtlas

namespace Session

/-- An error was recorded. -/
def Failed (s : Session) : Prop := s.report.hasErrors = true

/-- The session reads a document under a policy. -/
structure Under (policy : Policy) (context : OpenDocument) (s : Session) : Prop where
  policy : s.policy = policy
  current? : s.current? = some context

variable {policy : Policy} {context : OpenDocument} {s s' : Session}

theorem Frame.failed (h : Frame s s') (hs : s.Failed) : s'.Failed := h.grown.hasErrors hs

theorem Under.frame (h : s.Under policy context) (hf : Frame s s') : s'.Under policy context :=
  ⟨hf.policy.trans h.policy, hf.current?.trans h.current?⟩

theorem Under.recall (h : s.Under policy context) (built : List (Uri × Schema)) :
    (s.recall built).Under policy context :=
  ⟨h.policy, h.current?⟩

/-- The same was reported from `s` to `s'` as from `t` to `t'`, as far as errors go. -/
def FailsAlike (s s' t t' : Session) : Prop :=
  ∃ error : Prop, (s'.Failed ↔ s.Failed ∨ error) ∧ (t'.Failed ↔ t.Failed ∨ error)

theorem FailsAlike.of_iff {t t' : Session} (hs : s'.Failed ↔ s.Failed) (ht : t'.Failed ↔ t.Failed) :
    FailsAlike s s' t t' :=
  ⟨False, by rw [hs, or_false], by rw [ht, or_false]⟩

theorem FailsAlike.symm {t t' : Session} (h : FailsAlike s s' t t') : FailsAlike t t' s s' := by
  obtain ⟨error, hs, ht⟩ := h
  exact ⟨error, ht, hs⟩

theorem FailsAlike.trans {s₁ t t₁ t' : Session} (h : FailsAlike s s₁ t t₁)
    (h' : FailsAlike s₁ s' t₁ t') : FailsAlike s s' t t' := by
  obtain ⟨error, hs, ht⟩ := h
  obtain ⟨error', hs', ht'⟩ := h'
  refine ⟨error ∨ error', ?_, ?_⟩
  · rw [hs', hs, or_assoc]
  · rw [ht', ht, or_assoc]

/-- To find what was reported before is to report it. -/
theorem FailsAlike.of_known {t t' : Session} (hf : Frame t t')
    (h : t'.Failed → t.Failed ∨ s.Failed) :
    FailsAlike s s t t' := by
  refine ⟨t'.Failed ∧ s.Failed, ⟨Or.inl, fun hs => hs.elim id And.right⟩, fun ht => ?_,
    fun ht => ?_⟩
  · exact (h ht).imp_right fun hs => ⟨ht, hs⟩
  · exact ht.elim hf.failed And.left

theorem FailsAlike.failed {t t' : Session} (h : FailsAlike s s' t t') (ht : t'.Failed) :
    t.Failed ∨ s'.Failed := by
  obtain ⟨error, hs', ht'⟩ := h
  exact (ht'.mp ht).imp_right fun he => hs'.mpr (Or.inr he)

theorem failed_record (s : Session) (severity : Severity) (kind : IssueKind) (document : Uri)
    (path : Pointer) (message : String) :
    (s.record severity kind document path message).Failed ↔ s.Failed ∨ severity = .error := by
  unfold Failed Session.record
  rw [Report.hasErrors_record]
  simp

theorem failsAlike_record (s t : Session) (severity : Severity) (kind kind' : IssueKind)
    (document document' : Uri) (path path' : Pointer) (message message' : String) :
    FailsAlike s (s.record severity kind document path message) t
      (t.record severity kind' document' path' message') :=
  ⟨severity = .error, failed_record .., failed_record ..⟩

end Session

/-- What the reading of a position gives, with an error only if there is `failed`. A keyword may
make a boolean schema itself; any other node is what reading anew gives. -/
inductive Position.Gives (policy : Policy) (failed : Prop) (p : Position) (n : Schema) : Prop
  | object {object : List (String × Json)} : p.value = .object object → n.boolean? = none →
      (∀ ⦃steps hops t t' found⦄, t.Under policy p.context →
        Runs (Loading.loadAnew steps p.location p.value hops) t (.ok found) t' →
        Option.Rel (Same Schema.content) (some n) found ∧ (t'.Failed → t.Failed ∨ failed)) →
      Gives policy failed p n
  | boolean {b : Bool} : p.value = .bool b → n.body = .boolean b → Gives policy failed p n

/-- The node was read at a position that keywords lead to. -/
def Schema.ReadIn (root : Position) (policy : Policy) (failed : Prop) (n : Schema) : Prop :=
  ∃ p, root.Contains p ∧ p.Places n ∧ p.Gives policy failed n

/-- The finished nodes were read in the document, as reading anew would read them. -/
structure Session.Recollects (root : Position) (policy : Policy) (s : Session) : Prop where
  under : s.Under policy root.context
  bears : s.Bears (Schema.ReadIn root policy s.Failed)

variable {root p : Position} {policy : Policy}

theorem Schema.ReadIn.mono {failed failed' : Prop} {n : Schema} (h : n.ReadIn root policy failed)
    (hf : failed → failed') : n.ReadIn root policy failed' := by
  obtain ⟨p, hp, hplaces, hgives⟩ := h
  refine ⟨p, hp, hplaces, ?_⟩
  cases hgives with
  | object hv hbody hanew =>
    refine .object hv hbody fun steps hops t t' found ht hr => ?_
    obtain ⟨hcontent, hfailed⟩ := hanew ht hr
    exact ⟨hcontent, fun hafter => (hfailed hafter).imp_right hf⟩
  | boolean hv hb => exact .boolean hv hb

namespace Session.Recollects

variable {s s' : Session}

/-- What finishes no node changes nothing. -/
theorem later (h : s.Recollects root policy) (hf : Frame s s') (hb : s'.built = s.built) :
    s'.Recollects root policy where
  under := h.under.frame hf
  bears := by
    intro entry he n hn
    rw [hb] at he
    exact (h.bears entry he n hn).mono hf.failed

end Session.Recollects

/-- Nodes were read in the document from a session to another. -/
structure Session.Reads (root : Position) (policy : Policy) (nodes : List Schema)
    (s s' : Session) : Prop where
  recollects : s'.Recollects root policy
  failed : s.Failed → s'.Failed
  read : ∀ n ∈ nodes, n.Throughout (Schema.ReadIn root policy s'.Failed)

namespace Session.Reads

variable {nodes more : List Schema} {s s₁ s' : Session}

theorem nothing (h : s.Recollects root policy) (hf : Frame s s') (hb : s'.built = s.built) :
    Reads root policy [] s s' :=
  ⟨h.later hf hb, hf.failed, by simp⟩

theorem trans (h : Reads root policy nodes s s₁) (h' : Reads root policy more s₁ s') :
    Reads root policy (nodes ++ more) s s' where
  recollects := h'.recollects
  failed hs := h'.failed (h.failed hs)
  read := by
    intro n hn
    rcases List.mem_append.mp hn with hn | hn
    · exact fun m hm => (h.read n hn m hm).mono h'.failed
    · exact h'.read n hn

theorem later (h : Reads root policy nodes s s₁) (hf : Frame s₁ s') (hb : s'.built = s₁.built) :
    Reads root policy nodes s s' := by
  have hall := h.trans (.nothing h.recollects hf hb)
  rwa [List.append_nil] at hall

end Session.Reads

namespace LoadM

open Session Loading

variable {α β : Type} {P : α → α → Prop} {Q : β → β → Prop} {x y : LoadM α}

/-- A step of a load, and a step of a reading anew that comes to the same. -/
structure Redoes (root : Position) (policy : Policy) (P : α → α → Prop) (x y : LoadM α) :
    Prop where
  runs : ∀ {s t a b s' t'}, s.Recollects root policy → t.Under policy root.context →
    Runs x s (.ok a) s' → Runs y t (.ok b) t' →
    P a b ∧ s'.Recollects root policy ∧ t'.Under policy root.context ∧ FailsAlike s s' t t'

namespace Redoes

theorem pure {a b : α} (h : P a b) : Redoes root policy P (pure a) (pure b) where
  runs := by
    intro s t a' b' s' t' hs ht hx hy
    obtain ⟨ha, rfl⟩ := runs_pure.mp hx
    obtain ⟨hb, rfl⟩ := runs_pure.mp hy
    cases ha
    cases hb
    exact ⟨h, hs, ht, .of_iff Iff.rfl Iff.rfl⟩

theorem bind {f g : α → LoadM β} (h : Redoes root policy P x y)
    (hf : ∀ {a b}, P a b → Redoes root policy Q (f a) (g b)) :
    Redoes root policy Q (x >>= f) (y >>= g) where
  runs := by
    intro s t c d s' t' hs ht hx hy
    obtain ⟨a, s₁, ha, hx⟩ := runs_bind_ok.mp hx
    obtain ⟨b, t₁, hb, hy⟩ := runs_bind_ok.mp hy
    obtain ⟨hab, hs₁, ht₁, halike⟩ := h.runs hs ht ha hb
    obtain ⟨hcd, hs', ht', halike'⟩ := (hf hab).runs hs₁ ht₁ hx hy
    exact ⟨hcd, hs', ht', halike.trans halike'⟩

theorem issue {severity : Severity} {kind : IssueKind} {location : Location} {message : String} :
    Redoes root policy Eq (issue severity kind location message)
      (issue severity kind location message) where
  runs := by
    intro s t _ _ s' t' hs ht hx hy
    obtain ⟨-, rfl⟩ := runs_issue.mp hx
    obtain ⟨-, rfl⟩ := runs_issue.mp hy
    exact ⟨rfl, hs.later (frame_record ..) rfl, ht.frame (frame_record ..), failsAlike_record ..⟩

/-- A choice that both make alike. -/
theorem strict {f g : Bool → LoadM α} (h : ∀ strict, Redoes root policy P (f strict) (g strict)) :
    Redoes root policy P (do f (← get).policy.strict) (do g (← get).policy.strict) where
  runs := by
    intro s t a b s' t' hs ht hx hy
    have hy := runs_get_bind.mp hy
    rw [ht.policy, ← hs.under.policy] at hy
    exact (h _).runs hs ht (runs_get_bind.mp hx) hy

theorem malformed {kind : IssueKind} {location : Location} {message : String} :
    Redoes root policy Eq (malformed kind location message)
      (malformed kind location message) :=
  strict
    (f := fun strict => LoadM.issue (if strict then .error else .warning) kind location message)
    (g := fun strict => LoadM.issue (if strict then .error else .warning) kind location message)
    fun _ => issue

theorem boolean {location : Location} {draft : Draft} {b : Bool} :
    Redoes root policy (Same Schema.content)
      (onStore fun store => store.add location draft (.boolean b))
      (onStore fun store => store.add location draft (.boolean b)) where
  runs := by
    intro s t _ _ s' t' hs ht hx hy
    obtain ⟨hn, rfl⟩ := runs_onStore.mp hx
    obtain ⟨hm, rfl⟩ := runs_onStore.mp hy
    cases hn
    cases hm
    refine ⟨?_, hs.later (frame_add ..) rfl, ht.frame (frame_add ..), .of_iff Iff.rfl Iff.rfl⟩
    rw [Same, Schema.content_node, Schema.content_node]
    rfl

/-- An identifier is applied in the same way. It may be known to one session only, which gets a
warning and no more. -/
theorem identifyObject {keys : List String} {location : Location}
    {object : List (String × Json)} :
    Redoes root policy (fun found found' => found.1 = found'.1)
      (identifyObject keys location object) (identifyObject keys location object) := by
  unfold Loading.identifyObject
  cases Lookup.declaredId? keys (.object object) with
  | none => exact .pure rfl
  | some id =>
    simp only [identify]
    cases location.withId id with
    | error fault => exact malformed.bind fun _ => .pure rfl
    | ok inner =>
      have hends : ∀ {s found s'}, Runs (do
          if (← get).knows inner.uri then
            LoadM.issue .warning .invalidIdentifier location
              s!"identifier '{id}' is already declared"
            return (inner, [])
          else return (inner, [inner.uri])) s (.ok found) s' →
          found.1 = inner ∧ Frame s s' ∧ s'.built = s.built ∧ (s'.Failed ↔ s.Failed) := by
        intro s found s' h
        have h := runs_get_bind.mp h
        split at h
        · obtain ⟨_, s₁, hi, h⟩ := runs_bind_ok.mp h
          obtain ⟨-, rfl⟩ := runs_issue.mp hi
          obtain ⟨hfound, rfl⟩ := runs_pure.mp h
          cases hfound
          exact ⟨rfl, frame_record .., rfl, by simp [failed_record]⟩
        · obtain ⟨hfound, rfl⟩ := runs_pure.mp h
          cases hfound
          exact ⟨rfl, .refl s', rfl, Iff.rfl⟩
      refine ⟨fun {s t a b s' t'} hs ht hx hy => ?_⟩
      obtain ⟨ha, hsf, hsb, hsfailed⟩ := hends hx
      obtain ⟨hb, htf, -, htfailed⟩ := hends hy
      exact ⟨ha.trans hb.symm, hs.later hsf hsb, ht.frame htf, .of_iff hsfailed htfailed⟩

end Redoes
end LoadM

namespace Digest

open LoadM

variable {load other : Loader} {draft : Draft} {asked : Location → Json → Prop}

theorem pairing_redoes (hload : ∀ location value, asked location value →
      Redoes root policy (Option.Rel (Same Schema.content)) (load location value)
        (other location value)) :
    Pairing Schema.content (fun _ P x y => Redoes root policy P x y) load other draft draft
      asked where
  pure := .pure
  bind := .bind
  issue := .issue
  malformed := .malformed
  boolean := .boolean
  load := hload _ _

theorem redoes_members {active : DraftSet} {object list : List (String × Json)} {inner : Location}
    (hload : ∀ place ∈ nested active inner object,
      Redoes root policy (Option.Rel (Same Schema.content)) (load place.1 place.2)
        (other place.1 place.2))
    (hlist : list ⊆ object) {b c : Builder}
    (hb : b.Matches Schema.content inner draft draft c) :
    Redoes root policy (Builder.Matches Schema.content inner draft draft)
      (members load active object list b) (members other active object list c) := by
  have hR : Pairing Schema.content (fun _ P x y => Redoes root policy P x y) load other draft draft
      fun location value => (location, value) ∈ nested active inner object :=
    pairing_redoes fun location value hp => hload (location, value) hp
  induction list generalizing b c with
  | nil => exact .pure hb
  | cons entry rest ih =>
    obtain ⟨key, value⟩ := entry
    obtain ⟨hm, hrest⟩ := List.cons_subset.mp hlist
    unfold members
    exact (hR.member .strict (fun _ hp => hp) hm hb).bind fun hnext => ih hrest hnext

end Digest

namespace Loading

open LoadM Session

variable {load : NodeLoader} {hops : Nat} {s s' t t' : Session} {N M : Schema}

/-- Reading an object that is neither known nor a reference. -/
theorem runs_loadWith_object {context : OpenDocument} {location : Location}
    {object : List (String × Json)} {found : Option Schema} (hc : s.current? = some context)
    (hb : Entries.get? location.pointerUri s.built = none)
    (href : Entries.get? "$ref" object = none)
    (h : Runs (loadWith load location (.object object) hops) s (.ok found) s') :
    ∃ N, found = some N ∧ Runs (loadObject load context location object) s (.ok N) s' := by
  unfold loadWith at h
  rw [runs_get_bind] at h
  simp only [hc] at h
  rw [runs_get_bind] at h
  simp only [hb, href] at h
  obtain ⟨N, s₁, ho, h⟩ := runs_bind_ok.mp h
  obtain ⟨hfound, rfl⟩ := runs_pure.mp h
  exact ⟨N, Except.ok.inj hfound, ho⟩

/-- What was found at a position is what reading it anew gives. -/
def AsAnew (policy : Policy) (p : Position) (found : Option Schema) (s s' : Session) : Prop :=
  ∀ ⦃steps hops t again t'⦄, t.Under policy p.context →
    Runs (loadAnew steps p.location p.value hops) t (.ok again) t' →
    Option.Rel (Same Schema.content) found again ∧ FailsAlike s s' t t'

/-- A loader that keeps the recollection of a session and gives what reading anew gives. -/
structure Rereads (root : Position) (policy : Policy) (load : NodeLoader) : Prop where
  reads : ∀ {p hops s found s'}, root.Contains p → s.Recollects root policy →
    Runs (load p.location p.value hops) s (.ok found) s' →
    Reads root policy found.toList s s' ∧ AsAnew policy p found s s'

theorem Rereads.redoes (hk : Rereads root policy load) {steps hops' : Nat}
    (hp : root.Contains p) :
    Redoes root policy (Option.Rel (Same Schema.content)) (load p.location p.value hops)
      (loadAnew steps p.location p.value hops') where
  runs := by
    intro s t found again s' t' hs ht hx hy
    obtain ⟨hreads, hanew⟩ := hk.reads hp hs hx
    obtain ⟨hcontent, halike⟩ := hanew (hp.place.1 ▸ ht) hy
    exact ⟨hcontent, hreads.recollects, ht.frame ((framed_loadAnew steps).frame hy), halike⟩

theorem Rereads.visits (hk : Rereads root policy load) {asked : Location → Json → Prop}
    {context : OpenDocument} {draft : Draft} {nodes : List Schema}
    (ha : ∀ location value, asked location value → root.Contains ⟨context, location, value⟩)
    (hs : s.Recollects root policy)
    (h : Digest.Visits (nestedLoad load) draft asked s nodes s') :
    Reads root policy nodes s s' := by
  induction h with
  | start => exact .nothing hs (.refl s) rfl
  | issue _ _ _ _ _ _ ih => exact ih.later (frame_record ..) rfl
  | @boolean s₁ nodes location b _ hasked ih =>
    have hadded := ih.recollects.later (frame_add s₁ location draft (.boolean b)) rfl
    refine ih.trans ⟨hadded, id, fun n hn => ?_⟩
    rw [List.mem_singleton.mp hn]
    refine Schema.throughout_of_keywords ?_ rfl
    exact ⟨_, ha _ _ hasked, rfl, .boolean rfl rfl⟩
  | @load s₁ s₂ nodes location value found _ hasked hr ih =>
    obtain ⟨hfound, -⟩ := hk.reads (p := ⟨context, location, value⟩) (ha _ _ hasked)
      ih.recollects hr
    exact ih.trans hfound

/-- To read an object anew is to read its keywords. -/
theorem runs_loadAnew_object (hplain : root.Unreferenced) (hp : root.Contains p)
    {object : List (String × Json)} (hv : p.value = .object object) {steps : Nat}
    {again : Option Schema} (ht : t.Under policy p.context)
    (h : Runs (loadAnew steps p.location p.value hops) t (.ok again) t') :
    ∃ fewer M t₁, again = some M ∧ t' = t₁.recall t.built ∧
      Runs (loadObject (loadAnew fewer) p.context p.location object) (t.recall []) (.ok M) t₁ := by
  obtain ⟨fewer, t₁, hload, rfl⟩ := runs_loadAnew_ok h
  rw [hv] at hload
  obtain ⟨M, rfl, hobject⟩ :=
    runs_loadWith_object (ht.recall []).current? rfl (hplain.get?_ref hp hv) hload
  exact ⟨fewer, M, t₁, rfl, rfl, hobject⟩

/-- An object that is read, and then read anew, is read in the same way. -/
theorem Rereads.object (hk : Rereads root policy load) (hplain : root.Unreferenced)
    (hp : root.Contains p) {object : List (String × Json)} (hv : p.value = .object object)
    (hs : s.Recollects root policy)
    (h : Runs (loadObject load p.context p.location object) s (.ok N) s') :
    Reads root policy [N] s s' ∧ AsAnew policy p (some N) s s' := by
  have hcontext : p.context = root.context := hp.place.1
  obtain ⟨⟨inner, declared⟩, s₁, builder, s₂, hidentify, hread, rfl, rfl⟩ := runs_loadObject.mp h
  have hid : Identified p.context.active.idKeys p.location object s inner declared s₁ := by
    obtain ⟨_, _, hfound, hid⟩ := identified_of_runs hidentify
    cases hfound
    exact hid
  have hasked : ∀ place ∈ Digest.nested p.context.active inner object,
      root.Contains ⟨p.context, place.1, place.2⟩ := by
    intro place hplace
    rw [hid.inner_eq hv] at hplace
    exact hp.tail (hplain.nests hp hv hplace)
  have hs₁ : s₁.Recollects root policy := hs.later hid.frame.1 hid.idle.alike.built
  have hentered : (s₁.enter (p.location.pointerUri :: p.location.uri :: declared)).Recollects
      root policy := ⟨⟨hs₁.under.policy, hs₁.under.current?⟩, hs₁.bears⟩
  obtain ⟨nodes, hvisits, hsub, _⟩ := (keywordsRun_gathers load p.context inner object).ok hread
  obtain ⟨hs₂, hfailed, hnodes⟩ :=
    hk.visits (fun location value hm => hasked (location, value) hm) hentered hvisits
  have hanew : AsAnew policy p
      (some (.node s₁.store.nodes.size inner p.context.draft builder.body)) s s₂ := by
    intro steps hops t again t' ht hr
    obtain ⟨fewer, M, t₁, rfl, rfl, hobject⟩ := runs_loadAnew_object hplain hp hv ht hr
    obtain ⟨⟨inner', declared'⟩, t₂, builder', t₃, hidentify', hread', rfl, rfl⟩ :=
      runs_loadObject.mp hobject
    obtain ⟨hsame, -, ht₂, halike⟩ :=
      Redoes.identifyObject.runs hs (hcontext ▸ ht.recall []) hidentify hidentify'
    have hentered' : (t₂.enter (p.location.pointerUri :: p.location.uri :: declared')).Under
        policy root.context := ⟨ht₂.policy, ht₂.current?⟩
    rw [← hsame] at hread'
    have hmembers : Redoes root policy
        (Builder.Matches Schema.content inner p.context.draft p.context.draft)
        (keywordsRun load p.context inner object)
        (keywordsRun (loadAnew fewer) p.context inner object) :=
      Digest.redoes_members (fun place hplace => hk.redoes (hasked place hplace))
        (List.Subset.refl object) .new
    obtain ⟨hmatch, -, -, halike'⟩ := hmembers.runs hentered hentered' hread hread'
    refine ⟨.some ?_, halike.trans halike'⟩
    rw [Same, Schema.content_node, Schema.content_node]
    exact congrArg (Schema.node 0 default default) hmatch.body
  have hN : Schema.Throughout (Schema.ReadIn root policy s₂.Failed)
      (.node s₁.store.nodes.size inner p.context.draft builder.body) := by
    apply Schema.throughout_of_nested
    · have hbody : Schema.boolean?
          (.node s₁.store.nodes.size inner p.context.draft builder.body) = none := by
        rw [Schema.boolean?, Schema.body, keywordsRun_body hread]
      refine ⟨p, hp, hid.place, .object hv hbody fun steps hops t t' again ht hr => ?_⟩
      obtain ⟨hcontent, halike⟩ := hanew ht hr
      exact ⟨hcontent, halike.failed⟩
    · intro kind k child hm hc
      rw [Schema.keywords, Schema.body, keywordsRun_body hread] at hm
      exact hnodes child (hsub (List.mem_flatMap.mpr ⟨_, hm, hc⟩))
  refine ⟨⟨⟨⟨hs₂.under.policy, hs₂.under.current?⟩, Session.Bears.finish hs₂.bears hN _⟩, ?_, ?_⟩,
    hanew⟩
  · exact fun hs => hfailed (hid.frame.1.failed hs)
  · exact fun n hn => List.mem_singleton.mp hn ▸ hN

/-- A finished node of the place is what reading the place anew gives. -/
theorem rereads_known (hstored : root.value.all Json.isStored = true) (hp : root.Contains p)
    {object : List (String × Json)} (hv : p.value = .object object)
    (hs : s.Recollects root policy) {uri : Uri} (hb : Entries.get? uri s.built = some N)
    (hplaced : N.location.place = p.location.place) :
    Reads root policy [N] s s ∧ AsAnew policy p (some N) s s := by
  have hN := hs.bears _ (Entries.mem_of_get? hb)
  refine ⟨⟨hs, id, fun n hn => List.mem_singleton.mp hn ▸ hN⟩, ?_⟩
  intro steps hops t again t' ht hr
  obtain ⟨q, hq, hplaces, hgives⟩ := hN N .self
  -- the node was built at this place, so it was read at this position
  obtain rfl : q = p := hq.eq_of_place hp hstored (hplaces.symm.trans hplaced)
  cases hgives with
  | object _ _ hanew =>
    obtain ⟨hcontent, hfailed⟩ := hanew ht hr
    exact ⟨hcontent, .of_known ((framed_loadAnew steps).frame hr) hfailed⟩
  | boolean hbool => cases hv.symm.trans hbool

/-- A value that is no schema is refused once more. -/
theorem rereads_refused (hp : root.Contains p) (hs : s.Recollects root policy)
    (hrefused : p.context.accepts p.value = false) {found : Option Schema}
    (h : Runs (loadWith load p.location p.value hops) s (.ok found) s') :
    Reads root policy found.toList s s' ∧ AsAnew policy p found s s' := by
  have hc : s.current? = some p.context := hp.place.1 ▸ hs.under.current?
  obtain ⟨message, hrefuses⟩ := runs_loadWith_of_refused hrefused
  obtain ⟨hfound, rfl⟩ := hrefuses hc h
  cases hfound
  refine ⟨.nothing hs (frame_record ..) rfl, fun steps hops' t again t' ht hr => ?_⟩
  obtain ⟨fewer, t₁, hload, rfl⟩ := runs_loadAnew_ok hr
  obtain ⟨hagain, rfl⟩ := hrefuses (ht.recall []).current? hload
  cases hagain
  have hpolicy : (t.recall []).policy = s.policy := ht.policy.trans hs.under.policy.symm
  rw [hpolicy]
  exact ⟨.none, failsAlike_record s (t.recall []) ..⟩

/-- Where a boolean is a schema, it is read as one. -/
theorem runs_loadWith_boolean {context : OpenDocument} {location : Location} {b : Bool}
    {found : Option Schema} (hc : s.current? = some context)
    (ha : context.accepts (.bool b) = true)
    (h : Runs (loadWith load location (.bool b) hops) s (.ok found) s') :
    found = some (s.store.add location context.draft (.boolean b)).1 ∧
      s' = { s with store := (s.store.add location context.draft (.boolean b)).2 } := by
  cases nodeRun_of_runs h with
  | outside hnone => cases hc.symm.trans hnone
  | known _ hv | reference _ hv | object _ hv => cases hv
  | boolean hc' hv =>
    cases hc.symm.trans hc'
    cases hv
    exact ⟨rfl, rfl⟩
  | refused hc' hrefused =>
    cases hc.symm.trans hc'
    cases ha.symm.trans hrefused

/-- A boolean is read once more. -/
theorem rereads_boolean (hp : root.Contains p) (hs : s.Recollects root policy) {b : Bool}
    (hv : p.value = .bool b) (haccepts : p.context.accepts p.value = true)
    {found : Option Schema} (h : Runs (loadWith load p.location p.value hops) s (.ok found) s') :
    Reads root policy found.toList s s' ∧ AsAnew policy p found s s' := by
  have hc : s.current? = some p.context := hp.place.1 ▸ hs.under.current?
  rw [hv] at h haccepts
  obtain ⟨rfl, rfl⟩ := runs_loadWith_boolean hc haccepts h
  refine ⟨⟨hs.later (frame_add ..) rfl, id, fun n hn => ?_⟩, fun steps hops' t again t' ht hr => ?_⟩
  · rw [List.mem_singleton.mp hn]
    exact Schema.throughout_of_keywords ⟨p, hp, rfl, .boolean hv rfl⟩ rfl
  · obtain ⟨fewer, t₁, hload, rfl⟩ := runs_loadAnew_ok hr
    rw [hv] at hload
    obtain ⟨rfl, rfl⟩ := runs_loadWith_boolean (ht.recall []).current? haccepts hload
    refine ⟨.some ?_, .of_iff Iff.rfl Iff.rfl⟩
    rw [Same, Schema.content_node, Schema.content_node]
    rfl

/-- A node that is read in its own place, and then read anew, is read in the same way. -/
theorem Rereads.node (hk : Rereads root policy load) (hplain : root.Unreferenced)
    (hstored : root.value.all Json.isStored = true) (hp : root.Contains p)
    (hs : s.Recollects root policy) {found : Option Schema}
    (hplaced : ∀ n ∈ found, n.location.place = p.location.place)
    (h : Runs (loadWith load p.location p.value hops) s (.ok found) s') :
    Reads root policy found.toList s s' ∧ AsAnew policy p found s s' := by
  cases haccepts : p.context.accepts p.value with
  | false => exact rereads_refused hp hs haccepts h
  | true =>
    cases hv : p.value with
    | null | number | string | array =>
      rw [hv] at haccepts
      cases haccepts
    | bool b => exact rereads_boolean hp hs hv haccepts h
    | object object =>
      have hc : s.current? = some p.context := hp.place.1 ▸ hs.under.current?
      have href := hplain.get?_ref hp hv
      rw [hv] at h
      rcases plain_of_nodeRun hc href (nodeRun_of_runs h) with ⟨n, hb, hfound, rfl⟩ | ⟨hb, -⟩
      · cases hfound
        exact rereads_known hstored hp hv hs hb (hplaced n rfl)
      · obtain ⟨N, rfl, hobject⟩ := runs_loadWith_object hc hb href h
        exact hk.object hplain hp hv hs hobject

end Loading
end SchemaAtlas
