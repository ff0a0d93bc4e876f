import SchemaAtlas.Proofs.Graph.Cycles
import SchemaAtlas.Proofs.Loading.Addressed
import SchemaAtlas.Proofs.Loading.Candid
import SchemaAtlas.Proofs.Loading.Links

/-!
# Chains of references

In a document without identifiers a reference to a place of the document leads there, and on from
there while there is another reference. A load follows such a chain without finishing a node on the
way, so at its `j`-th reference it has followed `j - 1` and finds nothing but their URIs. It asks
first whether this is one too many, and then whether it has the URI already. `fate_of_chain` says
what comes of it, from the document and the limit alone.
-/

namespace SchemaAtlas

/-! ## Chains in a document -/

/-- The path that a URI names in its document: that of the document itself, or the one that the
fragment writes. -/
def Uri.names? (uri : Uri) : Option (List String) :=
  match uri.fragment with
  | none => some []
  | some _ => (Lookup.path? uri).map Pointer.segments

namespace Json

/-- What the value at a path refers to, if that is a place of the document at `root`: the URI and
the path that it names. -/
def refersAt? (document : Json) (root : Uri) (path : List String) : Option (Uri × List String) :=
  ((document.at? path).bind (Load.refersIn? root)).bind fun uri =>
    if uri.withoutFragment = root then uri.names?.map fun next => (uri, next) else none

/-- Whether there is an object at a path, and no reference in it. -/
def endsAt (document : Json) (path : List String) : Bool :=
  match document.at? path with
  | some (.object members) =>
    (Json.object members).all fun value => (value.member? "$ref").isNone
  | _ => false

/-- The references that lead from one path to another, one after the other. -/
inductive Chain (document : Json) (root : Uri) : List String → List Uri → List String → Prop
  | nil (path : List String) : Chain document root path [] path
  | cons {path next last : List String} {uri : Uri} {uris : List Uri} :
      document.refersAt? root path = some (uri, next) → Chain document root next uris last →
      Chain document root path (uri :: uris) last

/-- There is a reference at a path, and references lead on from it to references of the document,
for ever or up to an object without any. -/
structure Chained (document : Json) (root : Uri) (start : List String) : Prop where
  begins : document.refersAt? root start ≠ none
  goes : ∀ uris path, document.Chain root start uris path →
    document.refersAt? root path ≠ none ∨ document.endsAt path = true

/-- The chain ends at a path, after so many references at most and none of them twice. -/
def ChainEnds (document : Json) (root : Uri) (start : List String) (limit : Nat)
    (path : List String) : Prop :=
  ∃ uris, document.Chain root start uris path ∧ document.endsAt path = true ∧
    uris.length ≤ limit ∧ uris.Nodup

/-- Among so many references of the chain one comes twice. -/
def ChainRepeats (document : Json) (root : Uri) (start : List String) (limit : Nat) : Prop :=
  ∃ uris path, document.Chain root start uris path ∧ uris.length ≤ limit ∧ ¬ uris.Nodup

variable {document : Json} {root uri : Uri} {path path' next start last last' : List String}
variable {uris uris' : List Uri} {limit : Nat}

theorem refersAt?_eq (h : document.refersAt? root path = some (uri, next)) :
    ∃ value, document.at? path = some value ∧ Load.refersIn? root value = some uri ∧
      uri.withoutFragment = root ∧ uri.names? = some next := by
  obtain ⟨found, hfound, h⟩ := Option.bind_eq_some_iff.mp h
  obtain ⟨value, hat, hrefers⟩ := Option.bind_eq_some_iff.mp hfound
  split at h
  · rename_i hroot
    obtain ⟨other, hnames, heq⟩ := Option.map_eq_some_iff.mp h
    cases heq
    exact ⟨value, hat, hrefers, hroot, hnames⟩
  · cases h

theorem endsAt_eq (h : document.endsAt path = true) :
    ∃ members, document.at? path = some (.object members) ∧
      (Json.object members).all (fun value => (value.member? "$ref").isNone) = true := by
  unfold endsAt at h
  split at h
  · rename_i members hat
    exact ⟨members, hat, h⟩
  · cases h

/-- Where the chain ends there is no reference. -/
theorem refersAt?_of_endsAt (h : document.endsAt path = true) :
    document.refersAt? root path = none := by
  obtain ⟨members, hat, hall⟩ := endsAt_eq h
  have hnone : Load.refersIn? root (.object members) = none := by
    rw [Load.refersIn?, Option.isNone_iff_eq_none.mp (all_self hall)]
    rfl
  rw [refersAt?, hat, Option.bind_some, hnone, Option.bind_none]

theorem Chained.object (h : document.Chained root start)
    (hchain : document.Chain root start uris path) :
    ∃ members, document.at? path = some (.object members) := by
  rcases h.goes uris path hchain with hrefers | hends
  · obtain ⟨⟨uri, next⟩, hnext⟩ := Option.ne_none_iff_exists'.mp hrefers
    obtain ⟨value, hat, hvalue, -⟩ := refersAt?_eq hnext
    cases value with
    | object members => exact ⟨members, hat⟩
    | null | bool | number | string | array => cases hvalue
  · obtain ⟨members, hat, -⟩ := endsAt_eq hends
    exact ⟨members, hat⟩

theorem Chain.snoc (h : document.Chain root start uris path)
    (hnext : document.refersAt? root path = some (uri, next)) :
    document.Chain root start (uris ++ [uri]) next := by
  induction h with
  | nil => exact .cons hnext (.nil next)
  | cons href _ ih => exact .cons href (ih hnext)

/-- Of two chains from a path the longer one goes on where the other stops. -/
theorem Chain.extends (h : document.Chain root start uris last)
    (h' : document.Chain root start uris' last') (hle : uris.length ≤ uris'.length) :
    ∃ more, uris' = uris ++ more ∧ document.Chain root last more last' := by
  induction h generalizing uris' with
  | nil => exact ⟨uris', rfl, h'⟩
  | cons href _ ih =>
    cases h' with
    | nil => simp at hle
    | cons href' hrest =>
      cases Option.some.inj (href.symm.trans href')
      obtain ⟨more, rfl, hmore⟩ := ih hrest (Nat.le_of_succ_le_succ hle)
      exact ⟨more, rfl, hmore⟩

/-- A chain that ends is the longest one. -/
theorem Chain.extended (h : document.Chain root start uris last)
    (hends : document.endsAt last = true) (h' : document.Chain root start uris' last') :
    ∃ more, uris = uris' ++ more ∧ document.Chain root last' more last := by
  rcases Nat.le_total uris'.length uris.length with hle | hle
  · exact h'.extends h hle
  · obtain ⟨more, rfl, hmore⟩ := h.extends h' hle
    cases hmore with
    | nil => exact ⟨[], by simp, .nil last⟩
    | cons href _ =>
      rw [refersAt?_of_endsAt hends] at href
      cases href

theorem ChainEnds.unique (h : document.ChainEnds root start limit path)
    (h' : document.ChainEnds root start limit path') : path = path' := by
  obtain ⟨uris, hchain, hends, -, -⟩ := h
  obtain ⟨uris', hchain', hends', -, -⟩ := h'
  obtain ⟨more, -, hmore⟩ := hchain.extended hends hchain'
  cases hmore with
  | nil => rfl
  | cons href _ =>
    rw [refersAt?_of_endsAt hends'] at href
    cases href

theorem ChainEnds.not_repeats (h : document.ChainEnds root start limit path) :
    ¬ document.ChainRepeats root start limit := by
  obtain ⟨uris, hchain, hends, -, hnodup⟩ := h
  rintro ⟨uris', last, hchain', -, htwice⟩
  obtain ⟨more, rfl, -⟩ := hchain.extended hends hchain'
  exact htwice (List.nodup_append.mp hnodup).1

/-- After as many references as are followed, all of them different, another one makes the chain
neither end nor repeat. -/
theorem Chain.tooFar (h : document.Chain root start uris last) (hnodup : uris.Nodup)
    (hnext : document.refersAt? root last ≠ none) :
    (∀ path, ¬ document.ChainEnds root start uris.length path) ∧
      ¬ document.ChainRepeats root start uris.length := by
  constructor
  · rintro path ⟨uris', hchain', hends, hle, -⟩
    obtain ⟨more, rfl, hmore⟩ := hchain'.extended hends h
    have hnil : more = [] := List.eq_nil_of_length_eq_zero (by simpa using hle)
    subst hnil
    cases hmore
    exact hnext (refersAt?_of_endsAt hends)
  · rintro ⟨uris', last', hchain', hle, htwice⟩
    obtain ⟨more, rfl, -⟩ := hchain'.extends h hle
    exact htwice (List.nodup_append.mp hnodup).1

end Json

/-! ## The answer to a chain -/

/-- A schema is the node at a path of a document, or a reference to it. -/
def Store.Answers (st : Store) (root : Uri) (path : List String) (schema : Schema) : Prop :=
  ∃ t, st.node? t.id = some t ∧ t.reference? = none ∧ t.location = .inDocument root path ∧
    (schema = t ∨ ∃ r, schema.reference? = some r ∧ r.target = .node t.id)

/-- A reference to an answer is an answer. -/
theorem Store.Answers.refer {st : Store} {root : Uri} {path : List String} {target : Schema}
    (h : st.Answers root path target) (location : Location) (draft : Draft) (written : String)
    (uri : Uri) :
    (st.add location draft (.reference (Loading.referenceTo written uri target))).2.Answers root
      path (st.add location draft (.reference (Loading.referenceTo written uri target))).1 := by
  obtain ⟨t, hnode, hplain, hlocation, hanswer⟩ := h
  refine ⟨t, (grows_add ..).node?_some hnode, hplain, hlocation, Or.inr ⟨_, rfl, ?_⟩⟩
  rcases hanswer with rfl | ⟨r, href, htarget⟩
  · rw [Loading.referenceTo, hplain]
  · rw [Loading.referenceTo, href]
    exact htarget

namespace Load

open Json Loading LoadM Session

/-- What comes of the chain from a path: it goes on after as many references as are followed, or it
repeats one, or it ends. -/
inductive Fate (l : Load) (start : List String) : Except Stop (Option Schema) → Session → Prop
  | exhausted {s : Session} : Fate l start (.error .exhausted) s
  | tooFar {uris : List Uri} {path : List String} {issue : Issue} {s : Session} :
      l.document.Chain l.documentUri start uris path →
      l.document.refersAt? l.documentUri path ≠ none → uris.Nodup →
      uris.length = l.policy.maxHops → issue ∈ s.report.issues →
      issue.kind = .referenceHopLimit → Fate l start (.error .fatal) s
  | circular {issue : Issue} {s : Session} :
      l.document.ChainRepeats l.documentUri start l.policy.maxHops → issue ∈ s.report.issues →
      issue.kind = .referenceCycle → Fate l start (.error .fatal) s
  | answered {path : List String} {schema : Schema} {s : Session} :
      l.document.ChainEnds l.documentUri start l.policy.maxHops path →
      s.store.Answers l.documentUri path schema → Fate l start (.ok (some schema)) s

end Load

/-- A session that has followed some references and has nothing else. -/
structure Session.Follows (l : Load) (uris : List Uri) (s : Session) : Prop where
  inside : s.Inside l.library l.context
  policy : s.policy = l.policy
  inProgress : s.inProgress = []
  built : s.built = []
  cache : s.cache = .empty
  resolving : s.resolving = uris.reverse

namespace Session.Follows

variable {l : Load} {uris : List Uri} {uri : Uri} {s s₁ : Session}

theorem finds (h : s.Follows l uris) (uri : Uri) : s.finds uri = false := by
  rw [Session.finds, Session.knows, h.inProgress, h.built, h.cache]
  rfl

/-- Following another reference goes on in the document. -/
theorem next (h : s.Follows l uris) (hidle : (s.beginResolving uri).Idle s₁)
    (hf : (s.beginResolving uri).Frame s₁) : (s₁.push l.context).Follows l (uris ++ [uri]) where
  inside := ((h.inside.beginResolving uri).frame hf).push l.context
  policy := hf.policy.trans h.policy
  inProgress := hidle.alike.inProgress.trans h.inProgress
  built := hidle.alike.built.trans h.built
  cache := hidle.alike.cache.trans h.cache
  resolving := by
    have hresolving : s₁.resolving = uri :: s.resolving := hf.resolving
    change s₁.resolving = _
    rw [hresolving, h.resolving, List.reverse_append]
    rfl

end Session.Follows

namespace Load

open Json Loading LoadM Session

variable {l : Load} {load : NodeLoader} {start path next : List String} {uris : List Uri}
variable {uri : Uri} {value : Json} {hops : Nat} {s s' : Session}

/-- Nothing has been followed when the reading begins. -/
theorem follows_session (hcache : l.workspace.cache = .empty) : l.session.Follows l [] where
  inside := l.inside
  policy := l.session_mild.1
  inProgress := by rw [l.session_eq]; rfl
  built := by rw [l.session_eq]; rfl
  cache := by rw [l.session_eq]; exact hcache
  resolving := by rw [l.session_eq]; rfl

/-- A URI of the document is located at the path that it names. -/
theorem IsPlain.locate_of_names (h : l.IsPlain) (hnormal : uri.normalized = uri)
    (hroot : uri.withoutFragment = l.documentUri) (hnames : uri.names? = some path)
    (hat : l.document.at? path = some value) :
    l.context.locate uri = some (.inDocument l.documentUri path, value) := by
  have hdocument : (Location.ofDocument l.context.uri).document = l.documentUri := h.normalized
  have hcontext : Location.ofDocument l.context.uri = .inDocument l.documentUri [] := by
    rw [Location.ofDocument_eq]
    exact congrArg (Location.inDocument · []) h.normalized
  unfold Uri.names? at hnames
  simp only [OpenDocument.locate, Lookup.locate, hnormal, hroot, hdocument, if_true]
  cases hf : uri.fragment with
  | none =>
    rw [hf] at hnames
    cases hnames
    cases hat
    rw [hcontext]
    rfl
  | some fragment =>
    rw [hf] at hnames
    obtain ⟨pointer, hpath, rfl⟩ := Option.map_eq_some_iff.mp hnames
    simp only [hpath]
    rw [hcontext]
    have hwalk := Lookup.navigate_of_anonymous h.anonymous l.documentUri [] pointer.segments
    rw [hat] at hwalk
    exact hwalk

/-- What a reference is written as. -/
theorem reference_at (hnext : l.document.refersAt? l.documentUri path = some (uri, next))
    (hat : l.document.at? path = some value) :
    ∃ object written, value = .object object ∧
      Entries.get? "$ref" object = some (.string written) ∧
      (Location.inDocument l.documentUri path).resolve written = .ok uri ∧
      uri.normalized = uri := by
  obtain ⟨found, hfound, hrefers, -⟩ := refersAt?_eq hnext
  cases Option.some.inj (hat.symm.trans hfound)
  have hp : l.Places ⟨l.context, .inDocument l.documentUri path, value⟩ path := ⟨rfl, rfl, hat⟩
  have hu := hp.refers?_eq.trans hrefers
  obtain ⟨written, -, href, hjoin⟩ := hp.reference hu
  have hnormal : uri.normalized = uri := by
    obtain ⟨joined, -, rfl⟩ : ∃ joined, l.documentUri.join written = .ok joined ∧
        joined.normalized = uri := by
      cases hj : l.documentUri.join written with
      | error fault =>
        rw [hj] at hjoin
        cases hjoin
      | ok joined =>
        rw [hj] at hjoin
        exact ⟨joined, rfl, Except.ok.inj hjoin⟩
    exact Uri.normalized_idem joined
  cases value with
  | object object => exact ⟨object, written, rfl, href, hjoin, hnormal⟩
  | null | bool | number | string | array => cases href

/-- A reference to an object of the document is followed there. -/
theorem IsPlain.chase (h : l.IsPlain) (hl : Framed load) (hs : s.Follows l uris)
    (hnormal : uri.normalized = uri) (hroot : uri.withoutFragment = l.documentUri)
    (hnames : uri.names? = some next) (hat : l.document.at? next = some value)
    (haccepts : l.context.accepts value = true) {origin : Location} {r : Except Stop Schema}
    (hr : ChaseRun load origin uri hops (s.beginResolving uri) r s') :
    ∃ s₁ s₂ : Session, (s₁.push l.context).Follows l (uris ++ [uri]) ∧
      Runs (load (.inDocument l.documentUri next) value (hops + 1)) (s₁.push l.context)
        (r.map some) s₂ ∧ s' = s₂.pop := by
  have hlocate := h.locate_of_names hnormal hroot hnames hat
  have hnearby : (s.beginResolving uri).nearby = [l.context] := by
    rw [(hs.inside.beginResolving uri).nearby]
    simp [Library.nearby, Load.library]
  have hcandidates : ∀ remote,
      candidates (s.beginResolving uri).nearby remote uri = [l.context] := by
    intro remote
    have hcontext : l.context.uri = uri.withoutFragment := hroot.symm
    rw [candidates, hnearby]
    simp [hcontext]
  have hfirst : ∀ {before after : List OpenDocument} {document : OpenDocument},
      [l.context] = before ++ document :: after → before = [] ∧ document = l.context := by
    intro before after document heq
    cases before with
    | nil => exact ⟨rfl, (List.cons.inj heq).1.symm⟩
    | cons first rest => simp at heq
  cases hr with
  | reached _ hlist hsearch hfound hrun | ends _ hlist hsearch hfound hrun =>
    rw [hcandidates] at hlist
    obtain ⟨rfl, rfl⟩ := hfirst hlist
    cases Option.some.inj (hlocate.symm.trans hfound)
    exact ⟨_, _, hs.next (hl.searches_vain hsearch).1 (hl.searches hsearch).1, hrun, rfl⟩
  | lost _ hsearch =>
    rw [hcandidates] at hsearch
    have hnone := (hl.searches_vain hsearch).2 l.context List.mem_cons_self
    rw [OpenDocument.find?, hlocate] at hnone
    simp [haccepts] at hnone

/-- The end of a chain is read without a further reference. -/
theorem IsPlain.answers_of_endsAt (h : l.IsPlain) (hs : s.Follows l uris)
    (hends : l.document.endsAt path = true) {steps : Nat} {r : Except Stop (Option Schema)}
    (hat : l.document.at? path = some value)
    (hr : Runs (loadNode steps (.inDocument l.documentUri path) value hops) s r s') :
    r = .error .exhausted ∨
      ∃ schema, r = .ok (some schema) ∧ s'.store.Answers l.documentUri path schema := by
  obtain ⟨members, hfound, hall⟩ := endsAt_eq hends
  cases Option.some.inj (hat.symm.trans hfound)
  have hp : l.Places ⟨l.context, .inDocument l.documentUri path, .object members⟩ path :=
    ⟨rfl, rfl, hat⟩
  have hplain : Position.Unreferenced
      ⟨l.context, .inDocument l.documentUri path, .object members⟩ :=
    Position.unreferenced_of_all (Lookup.all_at? h.stored hat) hall
  cases r with
  | error e =>
    cases error_of_loadNode hplain .refl hs.inside.current? hr
    exact Or.inl rfl
  | ok found =>
    cases steps with
    | zero => cases (runs_throw.mp hr).1
    | succ steps =>
      rcases plain_of_nodeRun hs.inside.current? (hplain.get?_ref .refl rfl)
        (nodeRun_of_runs hr) with ⟨schema, hknown, -⟩ | ⟨-, _, hobject, heq⟩
      · rw [hs.built] at hknown
        cases hknown
      · cases hobject with
        | @finished inner declared builder s₁ s₂ hid hread =>
          cases heq
          refine Or.inr ⟨_, rfl, .node s₁.store.nodes.size inner l.context.draft builder.body,
            ?_, ?_, ?_, Or.inl rfl⟩
          · exact (((framed_loadNode steps).keywords hread).1.node?_leave rfl).1
          · rw [keywordsRun_body hread]
            rfl
          · have hinner := hid.inner_eq (p := ⟨l.context, .inDocument l.documentUri path, _⟩) rfl
            exact hinner.trans (h.inner_eq hp)
        | ends => cases heq

/-- What stopped a reading is in the report. -/
theorem Fate.alike {e : Stop} (h : l.Fate start (.error e) s) (hreport : s'.report = s.report) :
    l.Fate start (.error e) s' := by
  cases h with
  | exhausted => exact .exhausted
  | tooFar hchain hnext hnodup hlength hissue hkind =>
    exact .tooFar hchain hnext hnodup hlength (hreport ▸ hissue) hkind
  | circular hrepeats hissue hkind => exact .circular hrepeats (hreport ▸ hissue) hkind

/-- A loader that meets the fate of the chain from every position on it, if no reference came
twice up to there. -/
def Tracks (l : Load) (start : List String) (load : NodeLoader) : Prop :=
  ∀ {uris path value s r s'}, l.document.Chain l.documentUri start uris path → uris.Nodup →
    uris.length ≤ l.policy.maxHops → s.Follows l uris → l.document.at? path = some value →
    Runs (load (.inDocument l.documentUri path) value uris.length) s r s' → l.Fate start r s'

/-- At a reference the limit is asked for first, and then the references that were followed. -/
theorem Tracks.link (ht : l.Tracks start load) (h : l.IsPlain) (hl : Framed load)
    (hchained : l.document.Chained l.documentUri start)
    (hchain : l.document.Chain l.documentUri start uris path) (hnodup : uris.Nodup)
    (hle : uris.length ≤ l.policy.maxHops) (hs : s.Follows l uris)
    (hnext : l.document.refersAt? l.documentUri path = some (uri, next))
    (hnormal : uri.normalized = uri) {draft : Draft} {location : Location}
    {r : Except Stop (Option Schema)}
    (hr : LinkRun load draft location uri uris.length s r s') : l.Fate start r s' := by
  have hlonger := hchain.snoc hnext
  have hlength : (uris ++ [uri]).length = uris.length + 1 := List.length_append
  have hfresh : (uris ++ [uri]).Nodup ↔ uri ∉ s.resolving := by
    rw [hs.resolving, List.mem_reverse, List.nodup_append_comm, List.singleton_append,
      List.nodup_cons, and_iff_left hnodup]
  obtain ⟨_, _, _, hroot, hnames⟩ := refersAt?_eq hnext
  obtain ⟨members, hat⟩ := hchained.object hlonger
  -- the fate of the rest of the chain, if the reference is followed
  have hrest : ∀ {r : Except Stop Schema} {s₁ : Session}, uris.length < s.policy.maxHops →
      uri ∉ s.resolving → ChaseRun load location uri uris.length (s.beginResolving uri) r s₁ →
      ∃ s₂ : Session, l.Fate start (r.map some) s₂ ∧ s₁ = s₂.pop := by
    intro r s₁ hnear hnew hchase
    obtain ⟨_, s₂, hfollows, hrun, rfl⟩ := h.chase hl hs hnormal hroot hnames hat rfl hchase
    rw [hs.policy] at hnear
    rw [← hlength] at hrun
    exact ⟨s₂, ht hlonger (hfresh.mpr hnew) (hlength ▸ hnear) hfollows hat hrun, rfl⟩
  cases hr with
  | found hfinds => cases (hs.finds uri).symm.trans hfinds
  | refused _ hrefuses =>
    cases hrefuses with
    | tooFar hfar =>
      rw [hs.policy] at hfar
      exact .tooFar hchain (by simp [hnext]) hnodup (Nat.le_antisymm hle hfar)
        (List.mem_append_right _ (List.mem_singleton.mpr rfl)) rfl
    | circular hnear hmem =>
      rw [hs.policy] at hnear
      exact .circular ⟨_, _, hlonger, hlength ▸ hnear, fun hnodup => hfresh.mp hnodup hmem⟩
        (List.mem_append_right _ (List.mem_singleton.mpr rfl)) rfl
  | followed _ hnear hnew hchase heq =>
    obtain ⟨s₂, hfate, rfl⟩ := hrest hnear hnew hchase
    subst heq
    cases hfate with
    | answered hends hanswers => exact .answered hends (hanswers.refer ..)
  | ends _ hnear hnew hchase =>
    obtain ⟨s₂, hfate, rfl⟩ := hrest hnear hnew hchase
    exact hfate.alike rfl

theorem tracks_loadNode (h : l.IsPlain) (hchained : l.document.Chained l.documentUri start)
    (steps : Nat) : l.Tracks start (loadNode steps) := by
  induction steps with
  | zero =>
    intro uris path value s r s' _ _ _ _ _ hr
    obtain ⟨rfl, rfl⟩ := runs_throw.mp hr
    exact .exhausted
  | succ steps ih =>
    intro uris path value s r s' hchain hnodup hle hs hat hr
    rcases hchained.goes uris path hchain with hrefers | hends
    · obtain ⟨⟨uri, next⟩, hnext⟩ := Option.ne_none_iff_exists'.mp hrefers
      obtain ⟨object, written, rfl, href, hu, hnormal⟩ := reference_at hnext hat
      rcases link_of_runs hs.inside.current? href hu hr with ⟨schema, hknown, -⟩ | ⟨-, hlink⟩
      · rw [hs.built] at hknown
        cases hknown
      · exact ih.link h (framed_loadNode steps) hchained hchain hnodup hle hs hnext hnormal hlink
    · rcases h.answers_of_endsAt hs hends hat hr with rfl | ⟨schema, rfl, hanswers⟩
      · exact .exhausted
      · exact .answered ⟨uris, hchain, hends, hle, hnodup⟩ hanswers

/-- A reading that begins at a reference gives a reference. -/
theorem reference_of_reading (hs : s.Follows l uris)
    (hrefers : l.document.refersAt? l.documentUri path ≠ none)
    (hat : l.document.at? path = some value) {steps : Nat} {schema : Schema}
    (hr : Runs (loadNode steps (.inDocument l.documentUri path) value hops) s (.ok (some schema))
      s') : ∃ r, schema.reference? = some r := by
  obtain ⟨⟨uri, next⟩, hnext⟩ := Option.ne_none_iff_exists'.mp hrefers
  obtain ⟨object, written, rfl, href, hu, -⟩ := reference_at hnext hat
  cases steps with
  | zero => cases (runs_throw.mp hr).1
  | succ steps =>
    rcases link_of_runs hs.inside.current? href hu hr with ⟨_, hknown, -⟩ | ⟨-, hlink⟩
    · rw [hs.built] at hknown
      cases hknown
    · cases hlink with
      | found | followed => exact ⟨_, rfl⟩

end Load

/-- The fatal issues of a step that was stopped are the one that stopped it. -/
theorem Told.kinds {α : Type} {strict : Bool} {issues : List Issue}
    (h : Told strict (.error .fatal : Except Stop α) issues) {issue : Issue} (hi : issue ∈ issues)
    (hkind : issue.kind.isFatal = true) :
    (issues.filter (·.kind.isFatal)).map Issue.kind = [issue.kind] := by
  obtain ⟨front, last, rfl, hmild, hlast, -⟩ := h.last
  have hfront : front.filter (·.kind.isFatal) = [] :=
    List.filter_eq_nil_iff.mpr fun other ho => by simp [(hmild other ho).running]
  have heq : issue = last := by
    rcases List.mem_append.mp hi with hi | hi
    · rw [(hmild issue hi).running] at hkind
      cases hkind
    · exact List.mem_singleton.mp hi
  have hback : [last].filter (·.kind.isFatal) = [last] := List.filter_cons_of_pos hlast
  rw [List.filter_append, hfront, hback, heq]
  rfl

namespace Request

open Loading LoadM

/-- The request is answered with a reference, and its target is the node at a path. -/
def RefersTo (request : Request) (policy : Policy) (w : Workspace) (root : Uri)
    (path : List String) : Prop :=
  ∃ s w' r target, request.run policy w = (.ok s, w') ∧ s.reference? = some r ∧
    Store.target r w'.store = (some target, w'.store) ∧ target.isReference = false ∧
    target.location = .inDocument root path

/-- The request fails, and the fatal issues of its report are exactly one, of a kind. -/
def StopsAt (request : Request) (policy : Policy) (w : Workspace) (kind : IssueKind) : Prop :=
  ∃ report w', request.run policy w = (.error (.loading report), w') ∧
    (report.issues.filter (·.kind.isFatal)).map Issue.kind = [kind]

/-- The request fails at the end of its load, for errors that did not stop it. -/
def Declines (request : Request) (policy : Policy) (w : Workspace) : Prop :=
  ∃ report w', request.run policy w = (.error (.loading report), w') ∧
    ∀ issue ∈ report.issues, issue.kind.isFatal = false

variable {request : Request} {policy : Policy} {w w' : Workspace} {root : Uri}
variable {path : List String} {kind : IssueKind} {report : Report} {schema : Schema} {r : Reference}

/-- A load for a URI reads the document that the URI names. -/
theorem uri_of_load? {uri : Uri} {l : Load} (h : (Request.ofUri uri).load? policy w = some l) :
    l.uri.normalized = l.uri ∧ l.uri.withoutFragment = l.documentUri := by
  unfold load? at h
  dsimp only at h
  split at h
  · cases h
  · split at h
    · cases h
      exact ⟨Uri.normalized_idem uri, rfl⟩
    · obtain ⟨found, _, rfl⟩ := Option.map_eq_some_iff.mp h
      exact ⟨Uri.normalized_idem uri, rfl⟩

/-- What stops a request is decided by its report. -/
theorem stopsAt_iff (hrun : request.run policy w = (.error (.loading report), w')) :
    request.StopsAt policy w kind ↔
      (report.issues.filter (·.kind.isFatal)).map Issue.kind = [kind] := by
  constructor
  · rintro ⟨found, _, hfound, hkinds⟩
    cases hrun.symm.trans hfound
    exact hkinds
  · exact fun hkinds => ⟨report, w', hrun, hkinds⟩

theorem not_refersTo (hrun : request.run policy w = (.error (.loading report), w')) :
    ¬ request.RefersTo policy w root path := by
  rintro ⟨_, _, _, _, hok, -⟩
  cases hrun.symm.trans hok

theorem not_stopsAt (hrun : request.run policy w = (.ok schema, w')) :
    ¬ request.StopsAt policy w kind := by
  rintro ⟨_, _, herror, -⟩
  cases hrun.symm.trans herror

theorem not_declines (hrun : request.run policy w = (.ok schema, w')) :
    ¬ request.Declines policy w := by
  rintro ⟨_, _, herror, -⟩
  cases hrun.symm.trans herror

/-- The answer is a reference to one path only. -/
theorem refersTo_iff (hrun : request.run policy w = (.ok schema, w'))
    (href : schema.reference? = some r) (hanswers : w'.store.Answers root path schema)
    {path' : List String} : request.RefersTo policy w root path' ↔ path' = path := by
  obtain ⟨t, hnode, hplain, hlocation, hanswer⟩ := hanswers
  have htarget : Store.target r w'.store = (some t, w'.store) := by
    have hid : r.target = .node t.id := by
      rcases hanswer with rfl | ⟨r', href', hid⟩
      · cases href.symm.trans hplain
      · cases href.symm.trans href'
        exact hid
    refine Store.target_of_follow ?_ (by simp [Schema.isReference, hplain])
    rw [hid]
    exact Prod.ext hnode rfl
  constructor
  · rintro ⟨_, _, _, found, hrun', href', hfound, -, hplace⟩
    cases hrun.symm.trans hrun'
    cases href.symm.trans href'
    cases htarget.symm.trans hfound
    exact congrArg (·.path.segments) (hplace.symm.trans hlocation)
  · rintro rfl
    exact ⟨schema, w', r, t, hrun, href, htarget, by simp [Schema.isReference, hplain], hlocation⟩

end Request

namespace Load

open Json Loading LoadM Session

variable {l : Load} {start : List String}

/-- The reading of a load meets the fate of the chain that it begins with. -/
theorem fate (h : l.IsPlain) (hbegins : l.Begins) (hcache : l.workspace.cache = .empty)
    (hnormal : l.uri.normalized = l.uri) (hroot : l.uri.withoutFragment = l.documentUri)
    (hstart : l.uri.names? = some start) (hchained : l.document.Chained l.documentUri start) :
    ∃ outcome s, l.Fate start outcome s ∧ outcome ≠ .error .exhausted ∧
      l.run = Workspace.conclude l.uri outcome s ∧
      Told l.policy.strict outcome s.report.issues ∧
      ∀ schema, outcome = .ok (some schema) → ∃ r, schema.reference? = some r := by
  obtain ⟨members, hat⟩ := hchained.object (.nil start)
  have hlocate := h.locate_of_names hnormal hroot hstart hat
  have hposition : l.start? =
      some ⟨l.context, .inDocument l.documentUri start, .object members⟩ := by
    rw [Load.start?, hlocate]
    rfl
  obtain ⟨outcome, s, hend, hruns, hconclude⟩ := hbegins.settles hposition
  have hr : Runs (l.reading (.inDocument l.documentUri start, .object members)) l.session outcome
      s := hruns _ (Nat.le_refl _)
  have hs := follows_session hcache
  refine ⟨outcome, s, tracks_loadNode h hchained _ (.nil start) List.nodup_nil (Nat.zero_le _) hs
    hat hr, hend, hconclude, told hr, ?_⟩
  rintro schema rfl
  exact reference_of_reading hs hchained.begins hat hr

end Load

/-- A reference is followed to the end of its chain, if this comes within the limit and no reference
comes twice; a reference that comes twice within the limit is a cycle, and in all other cases the
limit is exceeded. Only a strict load can come to the end of the chain and fail, for errors in the
object that is there. -/
theorem fate_of_chain {policy : Policy} {w : Workspace} {uri : Uri} {l : Load}
    {start : List String} (hfresh : w.cache = .empty)
    (hl : (Request.ofUri uri).load? policy w = some l)
    (hstored : l.document.all Json.isStored = true)
    (hanonymous : Lookup.Anonymous l.context.active.idKeys l.document)
    (hstart : l.uri.names? = some start) (hchained : l.document.Chained l.documentUri start) :
    (policy.strict = false → ∀ path, (Request.ofUri uri).RefersTo policy w l.documentUri path ↔
      l.document.ChainEnds l.documentUri start policy.maxHops path) ∧
    (policy.strict = true → ∀ path, (Request.ofUri uri).RefersTo policy w l.documentUri path ↔
      l.document.ChainEnds l.documentUri start policy.maxHops path ∧
        ¬ (Request.ofUri uri).Declines policy w) ∧
    ((Request.ofUri uri).StopsAt policy w .referenceCycle ↔
      l.document.ChainRepeats l.documentUri start policy.maxHops) ∧
    ((Request.ofUri uri).StopsAt policy w .referenceHopLimit ↔
      (∀ path, ¬ l.document.ChainEnds l.documentUri start policy.maxHops path) ∧
        ¬ l.document.ChainRepeats l.documentUri start policy.maxHops) := by
  have hplain : l.IsPlain := ⟨Request.load?_documentUri hl, hstored, hanonymous⟩
  obtain ⟨hpolicy, hcache, -⟩ := Request.load?_workspace hl
  obtain ⟨hnormal, hroot⟩ := Request.uri_of_load? hl
  obtain ⟨outcome, s, hfate, hend, hconclude, htold, hreference⟩ := Load.fate hplain
    (Request.begins_of_load? hl) (hcache.trans hfresh) hnormal hroot hstart hchained
  have hrun : (Request.ofUri uri).run policy w = _ := Request.run_of_load? hl
  rw [hconclude] at hrun
  subst hpolicy
  cases hfate with
  | exhausted => exact absurd rfl hend
  | tooFar hchain hnext hnodup hlength hissue hkind =>
    obtain ⟨hnever, honce⟩ := hchain.tooFar hnodup hnext
    rw [hlength] at hnever honce
    have hkinds := htold.kinds hissue (by rw [hkind]; rfl)
    rw [hkind] at hkinds
    simp [Request.stopsAt_iff hrun, Request.not_refersTo hrun, hnever, honce, hkinds]
  | circular hrepeats hissue hkind =>
    have hnever : ∀ path, ¬ l.document.ChainEnds l.documentUri start l.policy.maxHops path :=
      fun path hends => hends.not_repeats hrepeats
    have hkinds := htold.kinds hissue (by rw [hkind]; rfl)
    rw [hkind] at hkinds
    simp [Request.stopsAt_iff hrun, Request.not_refersTo hrun, hnever, hrepeats, hkinds]
  | @answered path schema _ hends hanswers =>
    have honly : ∀ other, l.document.ChainEnds l.documentUri start l.policy.maxHops other ↔
        other = path := fun other => ⟨fun h => h.unique hends, fun h => h ▸ hends⟩
    have honce := hends.not_repeats
    have hmild := htold.mild (by simp)
    obtain ⟨r, href⟩ := hreference schema rfl
    cases herrors : s.report.hasErrors with
    | false =>
      simp only [Workspace.conclude, herrors, Bool.false_eq_true, if_false] at hrun
      have hrefers : ∀ other, (Request.ofUri uri).RefersTo l.policy w l.documentUri other ↔
          other = path := fun _ => Request.refersTo_iff hrun href hanswers
      simp [Request.not_stopsAt hrun, Request.not_declines hrun, hrefers, honly, honce]
    | true =>
      simp only [Workspace.conclude, herrors, if_true] at hrun
      have hquiet : s.report.issues.filter (·.kind.isFatal) = [] :=
        List.filter_eq_nil_iff.mpr fun issue hi => by simp [(hmild issue hi).running]
      have hdeclines : (Request.ofUri uri).Declines l.policy w :=
        ⟨_, _, hrun, fun issue hi => (hmild issue hi).running⟩
      have hstrict : l.policy.strict = true := by
        obtain ⟨issue, hi, hseverity⟩ := List.any_eq_true.mp herrors
        by_contra hlenient
        exact (hmild issue hi).lenient (by simpa using hlenient) (of_decide_eq_true hseverity)
      simp [Request.stopsAt_iff hrun, Request.not_refersTo hrun, hquiet, hstrict, hdeclines, honly,
        honce]

/-! ## Two names for one definition -/

/-- Whether some paths are all that the chain from one of them comes to. -/
def Json.chainedIn (document : Json) (root : Uri) (start : List String)
    (paths : List (List String)) : Bool :=
  paths.contains start && (document.refersAt? root start).isSome && paths.all fun path =>
    match document.refersAt? root path with
    | some (_, next) => paths.contains next
    | none => document.endsAt path

theorem Json.chained_of_chainedIn {document : Json} {root : Uri} {start : List String}
    {paths : List (List String)} (h : document.chainedIn root start paths = true) :
    document.Chained root start := by
  simp only [chainedIn, Bool.and_eq_true, List.contains_iff_mem, List.all_eq_true] at h
  obtain ⟨⟨hstart, hbegins⟩, hgoes⟩ := h
  have hwithin : ∀ {uris path}, document.Chain root start uris path → path ∈ paths := by
    intro uris path hchain
    clear hbegins
    induction hchain with
    | nil => exact hstart
    | cons href _ ih =>
      have hnext := hgoes _ hstart
      rw [href] at hnext
      exact ih (by simpa using hnext)
  refine ⟨Option.isSome_iff_ne_none.mp hbegins, fun uris path hchain => ?_⟩
  have hpath := hgoes path (hwithin hchain)
  cases href : document.refersAt? root path with
  | some found => exact Or.inl (by simp)
  | none =>
    rw [href] at hpath
    exact Or.inr hpath

/-- A definition with two names, one for the other, and two names that stand for each other. -/
def aliases : Json :=
  .object [("definitions", .object [
    ("a", .object [("$ref", .string "#/definitions/b")]),
    ("b", .object [("$ref", .string "#/definitions/c")]),
    ("c", .object [("type", .string "string")]),
    ("x", .object [("$ref", .string "#/definitions/y")]),
    ("y", .object [("$ref", .string "#/definitions/x")])])]

/-- A name is loaded under its pointer URI. -/
theorem load?_aliases {name : String} {paths : List (List String)} (limit : Nat)
    (hnames : (glossaryUri ⟨["definitions", name]⟩).names? = some ["definitions", name])
    (hchained : aliases.chainedIn (glossaryUri .root) ["definitions", name] paths = true) :
    ∃ l, (Request.ofUri (glossaryUri ⟨["definitions", name]⟩)).load?
        { Policy.standard with maxHops := limit } (Workspace.holding aliases) = some l ∧
      l.document.all Json.isStored = true ∧
      Lookup.Anonymous l.context.active.idKeys l.document ∧
      l.uri.names? = some ["definitions", name] ∧
      l.document.Chained l.documentUri ["definitions", name] ∧
      l.document = aliases ∧ l.documentUri = glossaryUri .root := by
  have hbase : (glossaryUri ⟨["definitions", name]⟩).withoutFragment = glossaryUri .root :=
    Location.withoutFragment_withPath _ _
  have hfind : (Workspace.holding aliases).documents.find?
      (glossaryUri ⟨["definitions", name]⟩).withoutFragment = some aliases := by
    rw [hbase]
    rfl
  have hnormal : (glossaryUri ⟨["definitions", name]⟩).normalized =
      glossaryUri ⟨["definitions", name]⟩ := Location.normalized_withPath _ _
  obtain ⟨l, hl, hpolicy, huri, hroot, hdocument⟩ := Request.load?_ofUri rfl hnormal hfind
  rw [hbase] at hroot
  refine ⟨l, hl, ?_, ?_, huri ▸ hnames, ?_, hdocument, hroot⟩
  · rw [hdocument]
    decide +kernel
  · rw [Load.context, hpolicy, hdocument]
    change Lookup.Anonymous DraftSet.all.idKeys aliases
    decide +kernel
  · rw [hdocument, hroot]
    exact Json.chained_of_chainedIn hchained

/-- Names are followed as far as the limit lets it, or until one comes back. -/
theorem fate_of_aliases :
    (Request.ofUri (glossaryUri ⟨["definitions", "a"]⟩)).RefersTo
        { Policy.standard with maxHops := 2 } (Workspace.holding aliases) (glossaryUri .root)
        ["definitions", "c"] ∧
      (Request.ofUri (glossaryUri ⟨["definitions", "a"]⟩)).StopsAt
        { Policy.standard with maxHops := 1 } (Workspace.holding aliases) .referenceHopLimit ∧
      (Request.ofUri (glossaryUri ⟨["definitions", "x"]⟩)).StopsAt
        { Policy.standard with maxHops := 3 } (Workspace.holding aliases) .referenceCycle := by
  have ha : (glossaryUri ⟨["definitions", "a"]⟩).names? = some ["definitions", "a"] := by
    decide +kernel
  have hx : (glossaryUri ⟨["definitions", "x"]⟩).names? = some ["definitions", "x"] := by
    decide +kernel
  have hline : aliases.chainedIn (glossaryUri .root) ["definitions", "a"]
      [["definitions", "a"], ["definitions", "b"], ["definitions", "c"]] = true := by
    decide +kernel
  have hround : aliases.chainedIn (glossaryUri .root) ["definitions", "x"]
      [["definitions", "x"], ["definitions", "y"]] = true := by
    decide +kernel
  have hab : aliases.Chain (glossaryUri .root) ["definitions", "a"]
      [glossaryUri ⟨["definitions", "b"]⟩] ["definitions", "b"] :=
    .cons (by decide +kernel) (.nil _)
  have hbc : aliases.refersAt? (glossaryUri .root) ["definitions", "b"] =
      some (glossaryUri ⟨["definitions", "c"]⟩, ["definitions", "c"]) := by
    decide +kernel
  have hxy : aliases.refersAt? (glossaryUri .root) ["definitions", "x"] =
      some (glossaryUri ⟨["definitions", "y"]⟩, ["definitions", "y"]) := by
    decide +kernel
  have hyx : aliases.refersAt? (glossaryUri .root) ["definitions", "y"] =
      some (glossaryUri ⟨["definitions", "x"]⟩, ["definitions", "x"]) := by
    decide +kernel
  refine ⟨?_, ?_, ?_⟩
  · obtain ⟨l, hl, hstored, hanonymous, hstart, hchained, hdocument, hroot⟩ :=
      load?_aliases 2 ha hline
    have hfate := fate_of_chain rfl hl hstored hanonymous hstart hchained
    rw [hdocument, hroot] at hfate
    exact (hfate.1 rfl _).mpr
      ⟨_, hab.snoc hbc, by decide +kernel, by decide, by decide +kernel⟩
  · obtain ⟨l, hl, hstored, hanonymous, hstart, hchained, hdocument, hroot⟩ :=
      load?_aliases 1 ha hline
    have hfate := fate_of_chain rfl hl hstored hanonymous hstart hchained
    rw [hdocument, hroot] at hfate
    exact hfate.2.2.2.mpr (hab.tooFar (List.nodup_singleton _) (by simp [hbc]))
  · obtain ⟨l, hl, hstored, hanonymous, hstart, hchained, hdocument, hroot⟩ :=
      load?_aliases 3 hx hround
    have hfate := fate_of_chain rfl hl hstored hanonymous hstart hchained
    rw [hdocument, hroot] at hfate
    exact hfate.2.2.1.mpr
      ⟨_, _, .cons hxy (.cons hyx (.cons hxy (.nil _))), by decide, by decide +kernel⟩

end SchemaAtlas
