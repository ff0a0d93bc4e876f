import SchemaAtlas.Proofs.Loading.Steps

/-!
# What a load leaves as it was

A load may stop anywhere, but it always restores the documents that it is inside of, the
references that are being followed and the nodes being read. Finished nodes and opened
documents stay what they are, and issues are only added. `Frame` collects these facts for
two sessions, `Framed` says that a loader has them, and `framed_loadNode` proves it.
-/

namespace SchemaAtlas

/-! ## Registrations -/

namespace Session

/-- Registering a number puts it in front of what is registered. -/
theorem register_eq (id : Nat) (uris : List Uri) (s : Session) :
    ∃ front : List (Uri × Nat), (s.register id uris).inProgress = front ++ s.inProgress ∧
      (Entries.keys front).Nodup ∧ (∀ entry ∈ front, entry.1 ∈ uris ∧ entry.2 = id) := by
  have hfold : ∀ (uris : List Uri) (front : List (Uri × Nat)), (Entries.keys front).Nodup →
      ∃ more, uris.foldl (fun table uri => Entries.putNew uri id table)
          (front ++ s.inProgress) = more ++ s.inProgress ∧ (Entries.keys more).Nodup ∧
        (∀ entry ∈ more, entry ∈ front ∨ entry.1 ∈ uris ∧ entry.2 = id) := by
    intro uris
    induction uris with
    | nil => exact fun front hn => ⟨front, rfl, hn, fun _ => Or.inl⟩
    | cons uri rest ih =>
      intro front hn
      by_cases hc : Entries.contains uri (front ++ s.inProgress)
      · obtain ⟨more, heq, hnodup, hmem⟩ := ih front hn
        refine ⟨more, ?_, hnodup, ?_⟩
        · rw [List.foldl_cons, Entries.putNew, if_pos hc, heq]
        · intro entry he
          exact (hmem entry he).imp_right fun h => ⟨List.mem_cons_of_mem _ h.1, h.2⟩
      · have hnew : uri ∉ Entries.keys front := by
          rw [← Entries.get?_eq_none]
          rw [Entries.contains, Entries.get?_append] at hc
          simp only [Bool.not_eq_true, Option.isSome_eq_false_iff, Option.isNone_iff_eq_none,
            Option.or_eq_none_iff] at hc
          exact hc.1
        obtain ⟨more, heq, hnodup, hmem⟩ := ih ((uri, id) :: front) (by
          simp only [Entries.keys, List.map_cons, List.nodup_cons] at hn hnew ⊢
          exact ⟨hnew, hn⟩)
        refine ⟨more, ?_, hnodup, ?_⟩
        · rw [List.foldl_cons, Entries.putNew, if_neg hc, ← List.cons_append, heq]
        · intro entry he
          rcases hmem entry he with h | h
          · rcases List.mem_cons.mp h with rfl | h
            · exact Or.inr ⟨List.mem_cons_self, rfl⟩
            · exact Or.inl h
          · exact Or.inr ⟨List.mem_cons_of_mem _ h.1, h.2⟩
  obtain ⟨front, heq, hn, hmem⟩ := hfold uris [] List.nodup_nil
  exact ⟨front, heq, hn, fun entry he => (hmem entry he).resolve_left (by simp)⟩

/-- Releasing a number that was new undoes its registration. -/
theorem release_register {id : Nat} {uris : List Uri} {s s' : Session}
    (hnew : ∀ entry ∈ s.inProgress, entry.2 ≠ id)
    (h : s'.inProgress = (s.register id uris).inProgress) :
    (s'.release id uris).inProgress = s.inProgress := by
  have hfold : ∀ (uris : List Uri) (front : List (Uri × Nat)), (Entries.keys front).Nodup →
      (∀ entry ∈ front, entry.1 ∈ uris ∧ entry.2 = id) →
      uris.foldl (fun table uri =>
        if Entries.get? uri table = some id then Entries.erase uri table else table)
        (front ++ s.inProgress) = s.inProgress := by
    intro uris
    induction uris with
    | nil =>
      intro front _ hmem
      cases front with
      | nil => rfl
      | cons entry rest => simpa using (hmem entry List.mem_cons_self).1
    | cons uri rest ih =>
      intro front hn hmem
      rw [List.foldl_cons]
      by_cases hin : uri ∈ Entries.keys front
      · have hget : Entries.get? uri (front ++ s.inProgress) = some id := by
          rw [Entries.get?_append]
          cases hg : Entries.get? uri front with
          | none => exact absurd hin (Entries.get?_eq_none.mp hg)
          | some n =>
            have hid : n = id := (hmem _ (Entries.mem_of_get? hg)).2
            rw [hid, Option.some_or]
        rw [if_pos hget, Entries.erase_append _ hin]
        apply ih
        · rw [Entries.keys_erase]
          exact hn.erase _
        · intro entry he
          obtain ⟨hkey, hid⟩ := hmem entry (Entries.mem_of_mem_erase he)
          refine ⟨(List.mem_cons.mp hkey).resolve_left ?_, hid⟩
          rintro rfl
          have hin' : entry.1 ∈ Entries.keys (Entries.erase entry.1 front) :=
            List.mem_map_of_mem he
          rw [Entries.keys_erase] at hin'
          exact hn.not_mem_erase hin'
      · have hget : Entries.get? uri (front ++ s.inProgress) ≠ some id := by
          rw [Entries.get?_append, Entries.get?_eq_none.mpr hin, Option.none_or]
          exact fun hg => hnew _ (Entries.mem_of_get? hg) rfl
        rw [if_neg hget]
        apply ih front hn
        intro entry he
        obtain ⟨hkey, hid⟩ := hmem entry he
        refine ⟨(List.mem_cons.mp hkey).resolve_left ?_, hid⟩
        rintro rfl
        exact hin (List.mem_map_of_mem he)
  obtain ⟨front, heq, hn, hmem⟩ := register_eq id uris s
  rw [release, h, heq]
  exact hfold uris front hn hmem

end Session

/-! ## The store -/

namespace Store

/-- The nodes of a store, whole or promised, are the same in a later one. -/
structure Grows (st st' : Store) : Prop where
  size : st.nodes.size ≤ st'.nodes.size
  node? : ∀ id < st.nodes.size, st'.node? id = st.node? id

variable {st st₁ st₂ : Store}

theorem Grows.refl (st : Store) : Grows st st := ⟨Nat.le_refl _, fun _ _ => rfl⟩

theorem Grows.trans (h : Grows st st₁) (h' : Grows st₁ st₂) : Grows st st₂ where
  size := Nat.le_trans h.size h'.size
  node? := fun id hid => (h'.node? id (Nat.lt_of_lt_of_le hid h.size)).trans (h.node? id hid)

theorem node?_of_size_le {id : Nat} (h : st.nodes.size ≤ id) : st.node? id = none := by
  simp [Store.node?, Array.getElem?_eq_none h]

theorem lt_size_of_node? {id : Nat} {schema : Schema} (h : st.node? id = some schema) :
    id < st.nodes.size := by
  apply Nat.lt_of_not_le
  intro hge
  rw [node?_of_size_le hge] at h
  cases h

theorem Grows.node?_some (h : Grows st st₁) {id : Nat} {schema : Schema}
    (hn : st.node? id = some schema) : st₁.node? id = some schema := by
  rw [h.node? id (lt_size_of_node? hn), hn]

theorem node?_reserve (st : Store) (id : Nat) : st.reserve.2.node? id = st.node? id := by
  by_cases h : id < st.nodes.size
  · simp [Store.node?, reserve, Array.getElem?_push, Nat.ne_of_lt h]
  · rw [node?_of_size_le (Nat.le_of_not_lt h)]
    simp only [Store.node?, reserve, Array.getElem?_push]
    split
    · rfl
    · simp [Array.getElem?_eq_none (Nat.le_of_not_lt h)]

theorem size_reserve (st : Store) : st.reserve.2.nodes.size = st.nodes.size + 1 := by
  simp [reserve]

theorem grows_reserve (st : Store) : Grows st st.reserve.2 where
  size := by simp [size_reserve]
  node? := fun id _ => node?_reserve st id

theorem node?_complete_of_ne (st : Store) {schema : Schema} {id : Nat} (h : id ≠ schema.id) :
    (st.complete schema).node? id = st.node? id := by
  simp only [Store.node?, complete]
  rw [Array.getElem?_setIfInBounds_ne (Ne.symm h)]

/-- A new node is the only one that was not there before. -/
theorem node?_add_cases {location : Location} {draft : Draft} {body : Body Schema} {id : Nat}
    {t : Schema} (h : (st.add location draft body).2.node? id = some t) :
    st.node? id = some t ∨ t = (st.add location draft body).1 ∧ t.id = id := by
  by_cases hid : id = (st.add location draft body).1.id
  · right
    subst hid
    cases Option.some.inj ((node?_add st location draft body).symm.trans h)
    exact ⟨rfl, rfl⟩
  · left
    have hold : (st.add location draft body).2.node? id = st.reserve.2.node? id :=
      node?_complete_of_ne _ hid
    rw [node?_reserve] at hold
    exact hold.symm.trans h

theorem size_complete (st : Store) (schema : Schema) :
    (st.complete schema).nodes.size = st.nodes.size := by
  simp [complete]

/-- Completing a node that was reserved later leaves the earlier nodes as they are. -/
theorem Grows.complete (h : Grows st st₁) {schema : Schema} (hid : st.nodes.size ≤ schema.id) :
    Grows st (st₁.complete schema) where
  size := by
    rw [size_complete]
    exact h.size
  node? := by
    intro id hlt
    rw [node?_complete_of_ne st₁ (by omega)]
    exact h.node? id hlt

theorem grows_add (st : Store) (location : Location) (draft : Draft) (body : Body Schema) :
    Grows st (st.add location draft body).2 :=
  (grows_reserve st).complete (by simp [Schema.id])

end Store

/-! ## Sessions -/

namespace Documents

/-- The document at a URI, loaded or available. -/
def find? (d : Documents) (uri : Uri) : Option Json :=
  (d.loaded? uri).or ((d.fetch? uri).map Prod.fst)

theorem find?_eq (d : Documents) (uri : Uri) :
    d.find? uri = (d.loaded? uri).or (Entries.get? uri.withoutFragment d.available) := by
  rw [find?, fetch?, Option.map_map]
  exact congrArg _ Option.map_id'

theorem find?_register (d : Documents) (uri other : Uri) (document : Json) :
    (d.register uri document).find? other =
      if other.withoutFragment = uri.withoutFragment then some document else d.find? other := by
  rw [find?_eq, find?_eq, loaded?_register]
  split <;> rfl

/-- What was available is now loaded, under the same URIs. -/
theorem find?_of_fetch? {d : Documents} {uri : Uri} {found : Json × Documents}
    (hl : d.loaded? uri = none) (hf : d.fetch? uri = some found) :
    found.2.find? = d.find? := by
  obtain ⟨document, hd, rfl⟩ := Option.map_eq_some_iff.mp hf
  funext other
  rw [find?_register]
  split
  · rename_i hother
    have hl' : d.loaded? other = none := by
      rw [loaded?, hother]
      exact hl
    rw [find?_eq, hl', hother, hd, Option.none_or]
  · rfl

end Documents

namespace Session

/-- The numbers of the nodes being read are those of promised nodes. -/
def Numbered (s : Session) : Prop :=
  ∀ entry ∈ s.inProgress, entry.2 < s.store.nodes.size ∧ s.store.node? entry.2 = none

/-- What `s'`, a session after `s`, has in common with it. -/
structure Frame (s s' : Session) : Prop where
  policy : s'.policy = s.policy
  cache : s'.cache = s.cache
  stack : s'.stack = s.stack
  resolving : s'.resolving = s.resolving
  remote? : s'.remote? = s.remote?
  report : s.report.issues <+: s'.report.issues
  built : ∀ {uri schema}, Entries.get? uri s.built = some schema →
    Entries.get? uri s'.built = some schema
  store : s.store.Grows s'.store
  inProgress : s.Numbered → s'.inProgress = s.inProgress

/-- No issue that ends a session was recorded between two sessions. -/
def Calm (s s' : Session) : Prop :=
  ∀ issue ∈ s'.report.issues, issue ∈ s.report.issues ∨ issue.kind.isFatal = false

variable {s s₁ s₂ s' : Session}

theorem Frame.refl (s : Session) : Frame s s :=
  ⟨rfl, rfl, rfl, rfl, rfl, List.prefix_refl _, id, .refl _, fun _ => rfl⟩

theorem Frame.numbered (h : Frame s s') (hn : s.Numbered) : s'.Numbered := by
  intro entry he
  rw [h.inProgress hn] at he
  obtain ⟨hlt, hnone⟩ := hn entry he
  exact ⟨Nat.lt_of_lt_of_le hlt h.store.size, (h.store.node? _ hlt).trans hnone⟩

theorem Frame.trans (h : Frame s s₁) (h' : Frame s₁ s₂) : Frame s s₂ where
  policy := h'.policy.trans h.policy
  cache := h'.cache.trans h.cache
  stack := h'.stack.trans h.stack
  resolving := h'.resolving.trans h.resolving
  remote? := h'.remote?.trans h.remote?
  report := h.report.trans h'.report
  built := fun hb => h'.built (h.built hb)
  store := h.store.trans h'.store
  inProgress := fun hn => (h'.inProgress (h.numbered hn)).trans (h.inProgress hn)

theorem Frame.current? (h : Frame s s') : s'.current? = s.current? := by
  rw [Session.current?, Session.current?, h.stack]

theorem Calm.refl (s : Session) : Calm s s := fun _ => Or.inl

theorem Calm.trans (h : Calm s s₁) (h' : Calm s₁ s₂) : Calm s s₂ := by
  intro issue hi
  rcases h' issue hi with hi | hk
  · exact h issue hi
  · exact Or.inr hk

theorem Calm.pop {document : OpenDocument} (h : Calm (s.push document) s') : Calm s s'.pop := h

theorem frame_record (s : Session) (severity : Severity) (kind : IssueKind) (document : Uri)
    (path : Pointer) (message : String) :
    Frame s (s.record severity kind document path message) :=
  ⟨rfl, rfl, rfl, rfl, rfl, List.prefix_append _ _, id, .refl _, fun _ => rfl⟩

theorem calm_record (s : Session) {severity : Severity} {kind : IssueKind} {document : Uri}
    {path : Pointer} {message : String} (hk : kind.isFatal = false) :
    Calm s (s.record severity kind document path message) := by
  intro issue hi
  rcases List.mem_append.mp hi with hi | hi
  · exact Or.inl hi
  · exact Or.inr (List.mem_singleton.mp hi ▸ hk)

theorem frame_add (s : Session) (location : Location) (draft : Draft) (body : Body Schema) :
    Frame s { s with store := (s.store.add location draft body).2 } :=
  ⟨rfl, rfl, rfl, rfl, rfl, List.prefix_refl _, id, Store.grows_add _ _ _ _, fun _ => rfl⟩

/-- A part of a session inside another document. -/
theorem Frame.pop {document : OpenDocument} (h : Frame (s.push document) s') :
    Frame s s'.pop where
  policy := h.policy
  cache := h.cache
  stack := by
    rw [Session.pop, h.stack]
    rfl
  resolving := h.resolving
  remote? := h.remote?
  report := h.report
  built := h.built
  store := h.store
  inProgress := h.inProgress

/-- A part of a session in which a reference is followed. -/
theorem Frame.endResolving {uri : Uri} (h : Frame (s.beginResolving uri) s') :
    Frame s (s'.endResolving uri) where
  policy := h.policy
  cache := h.cache
  stack := h.stack
  resolving := by
    rw [Session.endResolving, h.resolving]
    exact List.erase_cons_head _ _
  remote? := h.remote?
  report := h.report
  built := h.built
  store := h.store
  inProgress := h.inProgress

theorem get?_finish_of_some {schema known : Schema} {uris : List Uri} {uri : Uri}
    (h : Entries.get? uri s.built = some known) :
    Entries.get? uri (s.finish schema uris).built = some known := by
  have hfold : ∀ (uris : List Uri) (table : List (Uri × Schema)),
      Entries.get? uri table = some known →
      Entries.get? uri
        (uris.foldl (fun table uri => Entries.putNew uri schema table) table) = some known := by
    intro uris
    induction uris with
    | nil => exact fun _ h => h
    | cons other rest ih =>
      intro table ht
      apply ih
      rw [Entries.get?_putNew]
      split
      · rename_i heq
        rw [← heq, ht, Option.getD_some]
      · exact ht
  exact hfold uris s.built h

theorem frame_finish (s : Session) (schema : Schema) (uris : List Uri) :
    Frame s (s.finish schema uris) :=
  ⟨rfl, rfl, rfl, rfl, rfl, List.prefix_refl _, get?_finish_of_some, .refl _, fun _ => rfl⟩

theorem Numbered.enter (h : s.Numbered) (uris : List Uri) : (s.enter uris).Numbered := by
  obtain ⟨front, heq, _, hfront⟩ :=
    register_eq s.store.nodes.size uris { s with store := s.store.reserve.2 }
  intro entry he
  rw [Session.enter, heq] at he
  change entry.2 < s.store.reserve.2.nodes.size ∧ s.store.reserve.2.node? entry.2 = none
  rw [Store.size_reserve, Store.node?_reserve]
  rcases List.mem_append.mp he with he | he
  · rw [(hfront entry he).2]
    exact ⟨Nat.lt_succ_self _, Store.node?_of_size_le (Nat.le_refl _)⟩
  · obtain ⟨hlt, hnone⟩ := h entry he
    exact ⟨Nat.lt_succ_of_lt hlt, hnone⟩

/-- While the keywords of a node are read, its number is promised. -/
theorem Frame.promised {uris : List Uri} (h : Frame (s.enter uris) s') :
    s.store.nodes.size < s'.store.nodes.size ∧ s'.store.node? s.store.nodes.size = none := by
  have hlt : s.store.nodes.size < (s.enter uris).store.nodes.size :=
    Nat.lt_of_lt_of_eq (Nat.lt_succ_self _) (Store.size_reserve _).symm
  refine ⟨Nat.lt_of_lt_of_le hlt h.store.size, ?_⟩
  rw [h.store.node? _ hlt]
  exact (Store.node?_reserve _ _).trans (Store.node?_of_size_le (Nat.le_refl _))

/-- A part of a session in which the keywords of a node are read. -/
theorem Frame.release {uris : List Uri} (h : Frame (s.enter uris) s') :
    Frame s (s'.release s.store.nodes.size uris) where
  policy := h.policy
  cache := h.cache
  stack := h.stack
  resolving := h.resolving
  remote? := h.remote?
  report := h.report
  built := h.built
  store := (Store.grows_reserve _).trans h.store
  inProgress := by
    intro hn
    refine release_register (s := { s with store := s.store.reserve.2 }) ?_
      (h.inProgress (hn.enter uris))
    intro entry he heq
    have hlt := (hn entry he).1
    omega

theorem Frame.leave {uris : List Uri} {schema : Schema} (h : Frame (s.enter uris) s')
    (hid : schema.id = s.store.nodes.size) : Frame s (s'.leave schema uris) := by
  have hr := h.release
  refine Frame.trans ?_ (frame_finish _ schema uris)
  rw [hid]
  exact { hr with store := hr.store.complete (Nat.le_of_eq hid.symm) }

/-- Finishing the node is what fills its place, and no other. -/
theorem Frame.node?_leave {uris : List Uri} {schema : Schema} (h : Frame (s.enter uris) s')
    (hid : schema.id = s.store.nodes.size) :
    (s'.leave schema uris).store.node? schema.id = some schema ∧
      ∀ {id known}, s'.store.node? id = some known →
        (s'.leave schema uris).store.node? id = some known := by
  obtain ⟨hlt, hpromised⟩ := h.promised
  rw [← hid] at hlt hpromised
  refine ⟨Store.node?_complete _ schema hlt, ?_⟩
  intro id known hknown
  have hne : id ≠ schema.id := by
    rintro rfl
    rw [hpromised] at hknown
    cases hknown
  exact (Store.node?_complete_of_ne _ hne).trans hknown

/-- Opening a document changes nothing that a frame speaks of. -/
theorem Opens.frame {uri : Uri} {document : OpenDocument} (h : Opens uri s document s') :
    Frame s s' ∧ Calm s s' := by
  have hopen : ∀ (s : Session) (value : Json), Entries.get? uri s.opened = none →
      s.remote? uri = some (s.policy.openAs uri value) →
      Frame s (s.openDocument uri value).2 ∧ Calm s (s.openDocument uri value).2 := by
    intro s value ho hremote
    have hnew := @openDocument_of_new uri s value ho
    have hsame : (s.openDocument uri value).2.remote? = s.remote? := by
      funext other
      by_cases hother : other = uri
      · subst hother
        rw [hremote, ← hnew]
        simp [Session.remote?, openDocument, ho, Entries.get?_put]
      · simp only [Session.remote?, openDocument, ho, Entries.get?_put, if_neg hother]
        split <;> rfl
    simp only [openDocument, ho] at hsame ⊢
    split
    · rename_i hunknown
      rw [hunknown] at hsame
      exact ⟨⟨rfl, rfl, rfl, rfl, hsame, List.prefix_append _ _, id, .refl _, fun _ => rfl⟩,
        calm_record s rfl⟩
    · rename_i hunknown
      rw [hunknown] at hsame
      exact ⟨⟨rfl, rfl, rfl, rfl, hsame, List.prefix_refl _, id, .refl _, fun _ => rfl⟩,
        .refl s⟩
  cases h with
  | again => exact ⟨.refl s, .refl s⟩
  | @loaded value ho hl =>
    exact hopen s value ho (by simp [Session.remote?, ho, hl])
  | @fetched value documents ho hl hf =>
    have hsame : Session.remote? { s with documents } = s.remote? := by
      funext other
      change (Entries.get? other s.opened).or ((documents.find? other).map _) =
        (Entries.get? other s.opened).or ((s.documents.find? other).map _)
      rw [Documents.find?_of_fetch? hl hf]
    obtain ⟨hframe, hcalm⟩ := hopen { s with documents } value ho (by
      rw [hsame]
      simp [Session.remote?, ho, hl, hf, Policy.openAs])
    refine ⟨Frame.trans ?_ hframe, hcalm⟩
    exact ⟨rfl, rfl, rfl, rfl, hsame, List.prefix_refl _, id, .refl _, fun _ => rfl⟩

end Session

namespace Loading

open LoadM Session

theorem Identified.frame {keys : List String} {location inner : Location}
    {object : List (String × Json)} {declared : List Uri} {s s' : Session}
    (h : Identified keys location object s inner declared s') : Frame s s' ∧ Calm s s' := by
  cases h with
  | anonymous => exact ⟨.refl s, .refl s⟩
  | declared => exact ⟨.refl s, .refl s⟩
  | repeated => exact ⟨frame_record .., calm_record s rfl⟩
  | broken => exact ⟨frame_record .., calm_record s rfl⟩

/-! ## Loaders -/

/-- A loader that restores what it finds and does no more with a value that is no schema than
to report it. -/
structure Framed (load : NodeLoader) : Prop where
  frame : ∀ {location value hops s r s'}, Runs (load location value hops) s r s' → Frame s s'
  calm : ∀ {location value hops s found s'}, Runs (load location value hops) s (.ok found) s' →
    Calm s s'
  refusal : ∀ {location value hops context s s'}, s.current? = some context →
    Runs (load location value hops) s (.ok none) s' →
    context.accepts value = false ∧ ∃ severity message,
      s' = s.record severity .typeMismatch location.document location.path message
  accepts : ∀ {location value hops context s r s'}, s.current? = some context →
    Runs (load location value hops) s r s' → r ≠ .ok none → r ≠ .error .exhausted →
    context.accepts value = true

variable {load : NodeLoader} {uri : Uri} {hops : Nat} {s s' : Session}

/-- The loader of nested nodes. -/
abbrev nestedLoad (load : NodeLoader) : Digest.Loader := fun location value =>
  load location value 0

theorem Framed.loud (hl : Framed load) (context : OpenDocument) :
    Digest.Loud (nestedLoad load) context where
  current := fun hc hr => (hl.frame hr).current?.trans hc
  report := fun _ hr => (hl.frame hr).report
  none := by
    intro location value s s' hc hr heq
    obtain ⟨_, severity, message, rfl⟩ := hl.refusal hc hr
    have hlen := congrArg (fun report => report.issues.length) heq
    simp [Session.record] at hlen

/-- The reading of an object's keywords is a sequence of visits to its nested places. -/
theorem keywordsRun_gathers (load : NodeLoader) (context : OpenDocument) (inner : Location)
    (object : List (String × Json)) :
    Digest.Gathers (nestedLoad load) context.draft
      (fun location value => (location, value) ∈ Digest.nested context.active inner object)
      (Entries.keys object).Nodup (keywordsRun load context inner object) []
      Builder.nodes (fun _ => False) :=
  Digest.members_gathers rfl (fun _ hp => hp)
    fun hn => ⟨hn, fun _ _ _ _ hk => by cases hk⟩

/-- What is read makes an object. -/
theorem keywordsRun_body {context : OpenDocument} {inner : Location}
    {object : List (String × Json)} {builder : Builder}
    (h : Runs (keywordsRun load context inner object) s (.ok builder) s') :
    builder.body = .object builder.keywords builder.extra :=
  Digest.members_body (by exact ⟨rfl, rfl⟩) h

theorem Framed.visits (hl : Framed load) {draft : Draft} {asked : Location → Json → Prop}
    {nodes : List Schema} (h : Digest.Visits (nestedLoad load) draft asked s nodes s') :
    Frame s s' ∧ Calm s s' := by
  induction h with
  | start => exact ⟨.refl _, .refl _⟩
  | issue severity kind location message _ hk ih =>
    exact ⟨ih.1.trans (frame_record ..), ih.2.trans (calm_record _ hk)⟩
  | boolean _ _ ih => exact ⟨ih.1.trans (frame_add ..), ih.2.trans (Calm.refl _)⟩
  | load _ _ hr ih => exact ⟨ih.1.trans (hl.frame hr), ih.2.trans (hl.calm hr)⟩

theorem Framed.keywords (hl : Framed load) {context : OpenDocument} {inner : Location}
    {object : List (String × Json)} {r : Except Stop Builder}
    (h : Runs (keywordsRun load context inner object) s r s') :
    Frame s s' ∧ (∀ builder, r = .ok builder → Calm s s') := by
  have hg := keywordsRun_gathers load context inner object
  cases r with
  | ok builder =>
    obtain ⟨nodes, hv, _⟩ := hg.ok h
    obtain ⟨hf, hc⟩ := hl.visits hv
    exact ⟨hf, fun _ _ => hc⟩
  | error e =>
    obtain ⟨nodes, s₁, location, value, hv, _, hr⟩ := hg.error h
    refine ⟨(hl.visits hv).1.trans (hl.frame hr), ?_⟩
    intro _ heq
    cases heq

theorem Framed.searches (hl : Framed load) {documents : List OpenDocument}
    (h : Searches load uri hops s documents s') : Frame s s' ∧ Calm s s' := by
  induction h with
  | start => exact ⟨.refl _, .refl _⟩
  | absent _ _ ih => exact ih
  | refused _ _ hr ih => exact ⟨ih.1.trans (hl.frame hr).pop, ih.2.trans (hl.calm hr).pop⟩
  | opened _ ho ih => exact ⟨ih.1.trans ho.frame.1, ih.2.trans ho.frame.2⟩

theorem Framed.chase (hl : Framed load) {origin : Location} {r : Except Stop Schema}
    (h : ChaseRun load origin uri hops s r s') :
    Frame s s' ∧ (∀ target, r = .ok target → Calm s s') := by
  cases h with
  | reached _ _ hs _ hr =>
    obtain ⟨hf, hc⟩ := hl.searches hs
    exact ⟨hf.trans (hl.frame hr).pop, fun _ _ => hc.trans (hl.calm hr).pop⟩
  | ends _ _ hs _ hr =>
    refine ⟨(hl.searches hs).1.trans (hl.frame hr).pop, ?_⟩
    intro _ heq
    cases heq
  | lost _ hs _ =>
    refine ⟨(hl.searches hs).1.trans (frame_record ..), ?_⟩
    intro _ heq
    cases heq

theorem Framed.resolve (hl : Framed load) {location : Location} {written : String}
    {r : Except Stop Reference} (h : ResolveRun load location written uri hops s r s') :
    Frame s s' ∧ (∀ reference, r = .ok reference → Calm s s') := by
  cases h with
  | known => exact ⟨.refl s, fun _ _ => .refl s⟩
  | reading => exact ⟨.refl s, fun _ _ => .refl s⟩
  | tooFar =>
    refine ⟨frame_record .., ?_⟩
    intro _ heq
    cases heq
  | cycle =>
    refine ⟨frame_record .., ?_⟩
    intro _ heq
    cases heq
  | chased _ _ hc =>
    obtain ⟨hf, hcalm⟩ := hl.chase hc
    exact ⟨hf.endResolving.trans (frame_finish ..), fun _ _ => hcalm _ rfl⟩
  | ends _ _ hc =>
    refine ⟨(hl.chase hc).1.endResolving, ?_⟩
    intro _ heq
    cases heq

theorem Framed.reference (hl : Framed load) {draft : Draft} {location : Location}
    {written : String} {r : Except Stop Schema}
    (h : ReferenceRun load draft location written hops s r s') :
    Frame s s' ∧ (∀ schema, r = .ok schema → Calm s s') := by
  cases h with
  | malformed =>
    refine ⟨frame_record .., ?_⟩
    intro _ heq
    cases heq
  | refers _ hr =>
    obtain ⟨hf, hcalm⟩ := hl.resolve hr
    exact ⟨hf.trans (frame_add ..), fun _ _ => hcalm _ rfl⟩
  | ends _ hr =>
    refine ⟨(hl.resolve hr).1, ?_⟩
    intro _ heq
    cases heq

theorem Framed.object (hl : Framed load) {context : OpenDocument} {location : Location}
    {object : List (String × Json)} {r : Except Stop Schema}
    (h : ObjectRun load context location object s r s') :
    Frame s s' ∧ (∀ schema, r = .ok schema → Calm s s') := by
  cases h with
  | finished hid hm =>
    obtain ⟨hf, hc⟩ := hid.frame
    obtain ⟨hf', hc'⟩ := hl.keywords hm
    exact ⟨hf.trans (hf'.leave rfl), fun _ _ => hc.trans (hc' _ rfl)⟩
  | ends hid hm =>
    refine ⟨hid.frame.1.trans (hl.keywords hm).1.release, ?_⟩
    intro _ heq
    cases heq

theorem framed_loadWith (hl : Framed load) : Framed (loadWith load) where
  frame := by
    intro location value hops s r s' h
    cases nodeRun_of_runs h with
    | outside => exact .refl s
    | known => exact .refl s
    | badReference => exact frame_record ..
    | reference _ _ _ _ hr => exact (hl.reference hr).1
    | referenceEnds _ _ _ _ hr => exact (hl.reference hr).1
    | object _ _ _ _ hr => exact (hl.object hr).1
    | objectEnds _ _ _ _ hr => exact (hl.object hr).1
    | boolean => exact frame_add ..
    | refused => exact frame_record ..
  calm := by
    intro location value hops s found s' h
    cases nodeRun_of_runs h with
    | outside => exact .refl s
    | known => exact .refl s
    | reference _ _ _ _ hr => exact (hl.reference hr).2 _ rfl
    | object _ _ _ _ hr => exact (hl.object hr).2 _ rfl
    | boolean => exact Calm.refl s
    | refused => exact calm_record s rfl
  refusal := by
    intro location value hops context s s' hc h
    cases nodeRun_of_runs h with
    | outside hnone =>
      rw [hc] at hnone
      cases hnone
    | refused hc' ha =>
      rw [hc] at hc'
      cases hc'
      exact ⟨ha, _, _, rfl⟩
  accepts := by
    intro location value hops context s r s' hc h hnone hend
    cases nodeRun_of_runs h with
    | outside => exact absurd rfl hnone
    | known _ hv => rw [hv]; rfl
    | badReference _ hv => rw [hv]; rfl
    | reference _ hv => rw [hv]; rfl
    | referenceEnds _ hv => rw [hv]; rfl
    | object _ hv => rw [hv]; rfl
    | objectEnds _ hv => rw [hv]; rfl
    | boolean hc' hv ha =>
      rw [hc] at hc'
      cases hc'
      rw [hv]
      exact ha
    | refused => exact absurd rfl hnone

theorem framed_exhausted : Framed fun _ _ _ => throw .exhausted where
  frame := by
    intro location value hops s r s' h
    obtain ⟨_, rfl⟩ := runs_throw.mp h
    exact .refl _
  calm := by
    intro location value hops s found s' h
    cases (runs_throw.mp h).1
  refusal := by
    intro location value hops context s s' _ h
    cases (runs_throw.mp h).1
  accepts := by
    intro location value hops context s r s' _ h _ hend
    exact absurd (runs_throw.mp h).1 hend

theorem framed_loadNode (steps : Nat) : Framed (loadNode steps) := by
  induction steps with
  | zero => exact framed_exhausted
  | succ steps ih => exact framed_loadWith ih

end Loading
end SchemaAtlas
