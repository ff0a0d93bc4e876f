import SchemaAtlas.Proofs.Graph.Provenance
import SchemaAtlas.Proofs.Loading.Documents
import SchemaAtlas.Proofs.Loading.Layout
import SchemaAtlas.Proofs.Merge.Kept
import SchemaAtlas.Proofs.Render.Identity

/-!
# Loaded schemas are in order

What is said of merges is said of schemas whose maps and sets are in order, and in which a key
therefore occurs once. Schemas come to be in order in two steps. The reader of texts puts the
members of objects in order (`Json.all_isOrdered_of_read`). A load makes maps of members as they
stand, sets by sorting, and keywords and other members by insertion. So a workspace whose documents
and cached schemas are in order gives schemas in order and stays such a workspace, under a request
(`Request.inOrder_run`) and under any number of them (`Workspace.InOrder.requests`).
-/

namespace SchemaAtlas

/-! ## Texts -/

theorem Entries.mem_ofList {κ α : Type} [LT κ] [DecidableLT κ] [DecidableEq κ]
    {pairs : List (κ × α)} {entry : κ × α} (h : entry ∈ ofList pairs) : entry ∈ pairs := by
  have hfold : ∀ (pairs table : List (κ × α)),
      entry ∈ pairs.foldl (fun entries pair => insert pair.1 pair.2 entries) table →
      entry ∈ table ∨ entry ∈ pairs := by
    intro pairs
    induction pairs with
    | nil => exact fun _ => Or.inl
    | cons pair rest ih =>
      intro table h
      rcases ih _ h with h | h
      · rcases mem_insert h with rfl | h
        · exact Or.inr List.mem_cons_self
        · exact Or.inl h
      · exact Or.inr (List.mem_cons_of_mem _ h)
  exact (hfold pairs [] h).resolve_left List.not_mem_nil

namespace Json

theorem allMembers_of_forall {p : Json → Bool} {members : List (String × Json)}
    (h : ∀ entry ∈ members, entry.2.all p = true) : allMembers p members = true := by
  induction members with
  | nil => rfl
  | cons first rest ih =>
    obtain ⟨hfirst, hrest⟩ := List.forall_mem_cons.mp h
    exact Bool.and_eq_true_iff.mpr ⟨hfirst, ih hrest⟩

theorem all_isOrdered_ofMembers {members : List (String × Json)}
    (h : allMembers isOrdered members = true) : (ofMembers members).all isOrdered = true := by
  have hsorted : Entries.Sorted (Entries.ofList members) :=
    Entries.sorted_ofList (fun _ _ _ => IsTrans.trans _ _ _) lt_of_ne_of_not_lt members
  refine Bool.and_eq_true_iff.mpr ⟨decide_eq_true hsorted, allMembers_of_forall fun entry he => ?_⟩
  exact all_of_mem_members h (Entries.mem_ofList he)

theorem isNumber_of_readNumber {cs rest : List Char} {value : Json}
    (h : readNumber cs = some (value, rest)) : ∃ n, value = .number n := by
  unfold readNumber at h
  simp only [bind, Option.bind_eq_some_iff] at h
  obtain ⟨_, _, _, _, _, _, n, _, heq⟩ := h
  cases heq
  exact ⟨n, rfl⟩

/-- Whatever the readers read is in order. -/
theorem all_isOrdered_of_readers (steps : Nat) :
    (∀ {depth cs value rest}, readValue steps depth cs = some (value, rest) →
      value.all isOrdered = true) ∧
    (∀ {depth cs elements rest}, readElements steps depth cs = some (elements, rest) →
      allElements isOrdered elements = true) ∧
    (∀ {depth cs members rest}, readMembers steps depth cs = some (members, rest) →
      allMembers isOrdered members = true) := by
  induction steps with
  | zero =>
    refine ⟨?_, ?_, ?_⟩
    · intro depth cs value rest h
      cases h
    · intro depth cs elements rest h
      cases h
    · intro depth cs members rest h
      cases h
  | succ steps ih =>
    obtain ⟨hvalue, helements, hmembers⟩ := ih
    refine ⟨?_, ?_, ?_⟩
    · intro depth cs value rest h
      unfold readValue at h
      split at h
      · cases h
        rfl
      · cases h
        rfl
      · cases h
        rfl
      · obtain ⟨_, _, heq⟩ := Option.map_eq_some_iff.mp h
        cases heq
        rfl
      · split at h
        · cases h
        · split at h
          · cases h
            rfl
          · obtain ⟨⟨es, _⟩, hes, heq⟩ := Option.map_eq_some_iff.mp h
            cases heq
            exact Bool.and_eq_true_iff.mpr ⟨rfl, helements hes⟩
      · split at h
        · cases h
        · split at h
          · cases h
            rfl
          · obtain ⟨⟨ms, _⟩, hms, heq⟩ := Option.map_eq_some_iff.mp h
            cases heq
            exact all_isOrdered_ofMembers (hmembers hms)
      · obtain ⟨n, rfl⟩ := isNumber_of_readNumber h
        rfl
    · intro depth cs elements rest h
      unfold readElements at h
      split at h
      · cases h
      · rename_i value rest' hread
        split at h
        · cases h
          exact Bool.and_eq_true_iff.mpr ⟨hvalue hread, rfl⟩
        · obtain ⟨⟨es, _⟩, hes, heq⟩ := Option.map_eq_some_iff.mp h
          cases heq
          exact Bool.and_eq_true_iff.mpr ⟨hvalue hread, helements hes⟩
        · cases h
    · intro depth cs members rest h
      unfold readMembers at h
      split at h
      · split at h
        · cases h
        · split at h
          · split at h
            · cases h
            · rename_i value rest' hread
              split at h
              · cases h
                exact Bool.and_eq_true_iff.mpr ⟨hvalue hread, rfl⟩
              · obtain ⟨⟨ms, _⟩, hms, heq⟩ := Option.map_eq_some_iff.mp h
                cases heq
                exact Bool.and_eq_true_iff.mpr ⟨hvalue hread, hmembers hms⟩
              · cases h
          · cases h
      · cases h

/-- A document that is read from a text is in order. -/
theorem all_isOrdered_of_read {text : String} {value : Json} (h : read text = some value) :
    value.all isOrdered = true := by
  unfold read readWithin at h
  dsimp only at h
  split at h
  · rename_i hread
    split at h
    · cases h
      exact (all_isOrdered_of_readers _).1 hread
    · cases h
  · cases h

theorem length_le_sizeElements (elements : List Json) :
    elements.length ≤ sizeElements elements := by
  induction elements with
  | nil => exact Nat.le_refl 0
  | cons value rest ih =>
    have hpos : 0 < value.size := by cases value <;> simp [size]
    rw [List.length_cons, sizeElements]
    omega

mutual

/-- A document in order that is not too large keeps to what documents in memory do. -/
theorem all_isStored_of_all_isOrdered : (value : Json) → value.all isOrdered = true →
    value.size ≤ Nat.pow 2 64 → value.all isStored = true
  | .object members, h, hsize => by
    obtain ⟨hself, hall⟩ := Bool.and_eq_true_iff.mp h
    have hsorted : Entries.Sorted members := of_decide_eq_true hself
    rw [size] at hsize
    exact Bool.and_eq_true_iff.mpr
      ⟨decide_eq_true hsorted.nodup, allMembers_isStored members hall (by omega)⟩
  | .array elements, h, hsize => by
    have hlength := length_le_sizeElements elements
    rw [all, Bool.and_eq_true] at h
    rw [size] at hsize
    exact Bool.and_eq_true_iff.mpr
      ⟨decide_eq_true (by omega), allElements_isStored elements h.2 (by omega)⟩
  | .null, _, _ | .bool _, _, _ | .number _, _, _ | .string _, _, _ => rfl

theorem allElements_isStored : (elements : List Json) → allElements isOrdered elements = true →
    sizeElements elements ≤ Nat.pow 2 64 → allElements isStored elements = true
  | [], _, _ => rfl
  | value :: rest, h, hsize => by
    obtain ⟨hvalue, hrest⟩ := Bool.and_eq_true_iff.mp h
    rw [sizeElements] at hsize
    exact Bool.and_eq_true_iff.mpr ⟨all_isStored_of_all_isOrdered value hvalue (by omega),
      allElements_isStored rest hrest (by omega)⟩

theorem allMembers_isStored : (members : List (String × Json)) →
    allMembers isOrdered members = true → sizeMembers members ≤ Nat.pow 2 64 →
    allMembers isStored members = true
  | [], _, _ => rfl
  | (_, value) :: rest, h, hsize => by
    obtain ⟨hvalue, hrest⟩ := Bool.and_eq_true_iff.mp h
    rw [sizeMembers] at hsize
    exact Bool.and_eq_true_iff.mpr ⟨all_isStored_of_all_isOrdered value hvalue (by omega),
      allMembers_isStored rest hrest (by omega)⟩

end

end Json

/-! ## Keywords -/

namespace Digest

open LoadM

variable {load : Loader} {active : DraftSet} {builder : Builder} {location : Location}
variable {site : Site} {members : List (String × Json)} {s s' : Session} {k : Keyword Schema}

theorem keys_schemaEntries {entries : List (String × Schema)}
    (h : Runs (schemaEntries load site members) s (.ok entries) s') :
    (Entries.keys entries).Sublist (Entries.keys members) := by
  induction members generalizing s s' entries with
  | nil =>
    cases (runs_pure.mp h).1
    exact .slnil
  | cons member rest ih =>
    obtain ⟨name, value⟩ := member
    have hload : ∀ {f : Option Schema → LoadM (List (String × Schema))} {s s' : Session},
        f none = schemaEntries load site rest →
        (∀ t, f (some t) = do return (name, t) :: (← schemaEntries load site rest)) →
        Runs (load (site.location.child name) value >>= f) s (.ok entries) s' →
        (Entries.keys entries).Sublist (Entries.keys ((name, value) :: rest)) := by
      intro f s s' hnone hsome h
      obtain ⟨found, s₁, -, h⟩ := runs_bind_ok.mp h
      cases found with
      | none =>
        rw [hnone] at h
        exact (ih h).cons name
      | some t =>
        rw [hsome] at h
        obtain ⟨others, s₂, hothers, h⟩ := runs_bind_ok.mp h
        cases (runs_pure.mp h).1
        exact (ih hothers).cons_cons name
    unfold schemaEntries at h
    split at h
    · obtain ⟨_, s₁, _, h⟩ := runs_bind_ok.mp h
      exact (ih h).cons name
    · dsimp only at h
      split at h
      · obtain ⟨_, s₁, _, h⟩ := runs_bind_ok.mp h
        exact hload rfl (fun _ => rfl) h
      · exact hload rfl (fun _ => rfl) h

theorem ordered_of_dependency {name : String} {value : Json} {d : Dependency Schema}
    (h : Runs (dependency load location name value) s (.ok (some d)) s') : d.ordered = true := by
  unfold dependency at h
  split at h
  · obtain ⟨list, s₁, _, h⟩ := runs_bind_ok.mp h
    cases (runs_pure.mp h).1
    exact decide_eq_true (Members.sorted_ofList list)
  · rename_i property
    cases (runs_pure.mp h).1
    have hsorted : Members.Sorted [property] := List.pairwise_singleton _ _
    exact decide_eq_true hsorted
  · obtain ⟨found, s₁, _, h⟩ := runs_bind_ok.mp h
    obtain ⟨t, rfl, rfl⟩ := Option.map_eq_some_iff.mp (Except.ok.inj (runs_pure.mp h).1).symm
    rfl
  · obtain ⟨found, s₁, _, h⟩ := runs_bind_ok.mp h
    obtain ⟨t, rfl, rfl⟩ := Option.map_eq_some_iff.mp (Except.ok.inj (runs_pure.mp h).1).symm
    rfl
  · obtain ⟨_, s₁, _, h⟩ := runs_bind_ok.mp h
    cases (runs_pure.mp h).1

theorem ordered_of_dependencyEntries {entries : List (String × Dependency Schema)}
    (h : Runs (dependencyEntries load location members) s (.ok entries) s') :
    (Entries.keys entries).Sublist (Entries.keys members) ∧
      ∀ entry ∈ entries, entry.2.ordered = true := by
  induction members generalizing s s' entries with
  | nil =>
    cases (runs_pure.mp h).1
    exact ⟨.slnil, by simp⟩
  | cons member rest ih =>
    obtain ⟨name, value⟩ := member
    obtain ⟨found, s₁, hfirst, h⟩ := runs_bind_ok.mp h
    cases found with
    | none =>
      obtain ⟨hkeys, hordered⟩ := ih h
      exact ⟨hkeys.cons name, hordered⟩
    | some d =>
      obtain ⟨others, s₂, hothers, h⟩ := runs_bind_ok.mp h
      cases (runs_pure.mp h).1
      obtain ⟨hkeys, hordered⟩ := ih hothers
      exact ⟨hkeys.cons_cons name,
        List.forall_mem_cons.mpr ⟨ordered_of_dependency hfirst, hordered⟩⟩

/-- A keyword that is read in a value in order is in order. -/
theorem ordered_of_keyword (h : Runs (keyword load active builder site) s (.ok (some k)) s')
    (hv : site.value.isOrdered = true) : k.ordered = true := by
  have hreading := reading_of_keyword h
  unfold keyword at h
  cases k with
  | schemaMap entries =>
    rw [List.mem_singleton.mp hreading] at h
    cases hvalue : site.value with
    | object members =>
      rw [hvalue] at h hv
      have hsorted : Entries.Sorted members := of_decide_eq_true hv
      obtain ⟨found, s₁, hfound, h⟩ := runs_bind_ok.mp h
      cases (runs_pure.mp h).1
      exact decide_eq_true (hsorted.of_keys (keys_schemaEntries hfound))
    | null | bool | number | string | array =>
      rw [hvalue] at h
      cases (runs_pure.mp h).1
  | dependencies entries =>
    rw [List.mem_singleton.mp hreading] at h
    cases hvalue : site.value with
    | object members =>
      rw [hvalue] at h hv
      have hsorted : Entries.Sorted members := of_decide_eq_true hv
      obtain ⟨found, s₁, hfound, h⟩ := runs_bind_ok.mp h
      cases (runs_pure.mp h).1
      obtain ⟨hkeys, hordered⟩ := ordered_of_dependencyEntries hfound
      exact Bool.and_eq_true_iff.mpr
        ⟨decide_eq_true (hsorted.of_keys hkeys), List.all_eq_true.mpr hordered⟩
    | null | bool | number | string | array =>
      rw [hvalue] at h
      cases (runs_pure.mp h).1
  | names set =>
    rw [List.mem_singleton.mp hreading] at h
    cases hvalue : site.value with
    | array elements =>
      rw [hvalue] at h
      obtain ⟨list, s₁, -, h⟩ := runs_bind_ok.mp h
      cases (runs_pure.mp h).1
      exact decide_eq_true (Members.sorted_ofList list)
    | null | bool | number | string | object =>
      rw [hvalue] at h
      cases (runs_pure.mp h).1
  | types | union =>
    rw [List.mem_singleton.mp hreading] at h
    obtain ⟨⟨shapes, schemas⟩, s₁, -, h⟩ := runs_bind_ok.mp h
    have hk := Option.some.inj (Except.ok.inj (runs_pure.mp h).1)
    rw [hk]
    split
    · exact decide_eq_true (Members.sorted_ofList shapes)
    · exact decide_eq_true (Members.sorted_ofList shapes)
  | _ => rfl

/-- Members that no candidate reads are kept in order. -/
theorem sorted_extra_of_members {object list : List (String × Json)} {draft : Draft}
    {after : Builder}
    (h : Runs (Digest.members load active object list (.new location draft)) s (.ok after) s') :
    Entries.Sorted after.extra := by
  have hI : Preserves load active fun b => Entries.Sorted b.extra :=
    ⟨fun _ _ hb => hb, fun key value hb => hb.insert key value⟩
  have hnew : Entries.Sorted (Builder.new location draft).extra := List.Pairwise.nil
  exact hI.members hnew h

end Digest

/-! ## Nodes -/

namespace Schema

/-- The maps and the sets of a node are in order, those of its nested schemas apart. -/
structure InOrder (t : Schema) : Prop where
  keywords : Entries.Sorted t.keywords
  extra : Entries.Sorted t.extra
  keyword : ∀ kind k, (kind, k) ∈ t.keywords → k.ordered = true

theorem inOrder_of_body {t : Schema} (h : t.isObject = false) : t.InOrder := by
  obtain ⟨id, location, draft, body⟩ := t
  cases body with
  | object => cases h
  | boolean | reference => exact ⟨.nil, .nil, fun _ _ hk => nomatch hk⟩

/-- In a schema in order a key occurs once in each map. -/
theorem isStored_of_isOrdered {s : Schema} (h : s.isOrdered = true) : s.isStored = true := by
  induction s using Schema.induction with
  | step s ih =>
    obtain ⟨hkeywords, -, hkeyword⟩ := (isOrdered_iff s).mp h
    refine (isStored_iff s).mpr ⟨hkeywords.nodup, fun kind k hk => ?_⟩
    obtain ⟨hordered, hnodes⟩ := hkeyword kind k hk
    refine ⟨?_, fun c hc => ih kind k c hk hc (hnodes c hc)⟩
    cases k with
    | schemaMap entries =>
      have hsorted : Entries.Sorted entries := of_decide_eq_true hordered
      exact decide_eq_true hsorted.nodup
    | dependencies entries =>
      have hsorted : Entries.Sorted entries :=
        of_decide_eq_true (Bool.and_eq_true_iff.mp hordered).1
      exact decide_eq_true hsorted.nodup
    | _ => rfl

end Schema

namespace Loading

open LoadM

/-- An object in order is read as a node in order. -/
theorem inOrder_of_objectRun {load : NodeLoader} (hl : Framed load) {lib : Library} {p : Position}
    {object : List (String × Json)} {s s' : Session} {N : Schema}
    (hp : p.Upholds Json.isOrdered) (hm : p.members? = some object) (hin : s.Inside lib p.context)
    (hr : ObjectRun load p.context p.location object s (.ok N) s') : N.InOrder := by
  cases hr with
  | @finished inner declared builder s₁ s₂ hid hread =>
    have hbody := keywordsRun_body hread
    have hkeywords : Schema.keywords (.node s₁.store.nodes.size inner p.context.draft builder.body)
        = builder.keywords := by
      rw [Schema.keywords, Schema.body, hbody]
    have hextra : Schema.extra (.node s₁.store.nodes.size inner p.context.draft builder.body)
        = builder.extra := by
      rw [Schema.extra, Schema.body, hbody]
    have hobject : Json.allMembers Json.isOrdered object = true := by
      have hvalue := hp.value
      rw [Position.value_of_members? hm] at hvalue
      exact (Bool.and_eq_true_iff.mp hvalue).2
    refine ⟨hkeywords ▸ (Digest.catalogued_of_members hread).1,
      hextra ▸ Digest.sorted_extra_of_members hread, fun kind k hk => ?_⟩
    rw [hkeywords] at hk
    rcases Digest.reads_of_members (hl.loud p.context) (hid.inside hin _).current?
      (List.Subset.refl object) hread kind k hk with hnew | hreads
    · cases hnew
    · obtain ⟨key, value, hmember, _, -, -, -, _, _, _, -, hkeyword⟩ := hreads
      have hvalue : value.isOrdered = true :=
        Json.all_self (Json.all_of_mem_members hobject hmember)
      exact Digest.ordered_of_keyword hkeyword hvalue

end Loading

/-! ## Requests -/

/-- All documents are in order. -/
def Documents.InOrder (d : Documents) : Prop :=
  ∀ uri document, d.find? uri = some document → document.all Json.isOrdered = true

/-- All documents and all schemas in the cache are in order. -/
structure Workspace.InOrder (w : Workspace) : Prop where
  documents : w.documents.InOrder
  cache : ∀ uri t, w.cache.get? uri = some t → t.isOrdered = true

/-- A request brings no document that is out of order. -/
def Request.InOrder (request : Request) : Prop :=
  ∀ document, request.document? = some document → document.all Json.isOrdered = true

/-- What every step of a fold keeps holds at its end, if it has one. -/
theorem foldlM_invariant {α β ε : Type} {P : β → Prop} {f : β → α → Except ε β}
    (hf : ∀ {b a b'}, P b → f b a = .ok b' → P b') {list : List α} {b b' : β} (hb : P b)
    (h : list.foldlM f b = .ok b') : P b' := by
  induction list generalizing b with
  | nil =>
    cases h
    exact hb
  | cons a rest ih =>
    rw [List.foldlM_cons] at h
    cases hstep : f b a with
    | error e =>
      rw [hstep] at h
      cases h
    | ok next =>
      rw [hstep] at h
      exact ih (hf hb hstep) h

namespace Documents

theorem inOrder_empty : InOrder empty := fun _ _ h => nomatch h

theorem InOrder.insert {d : Documents} (h : d.InOrder) (uri : Uri) {document : Json}
    (hd : document.all Json.isOrdered = true) : (d.insert uri document).InOrder := by
  intro other found hfound
  rw [find?_eq] at hfound
  rcases Option.or_eq_some_iff.mp hfound with hl | ⟨hl, ha⟩
  · exact h other found (by rw [find?_eq]; exact Option.or_eq_some_iff.mpr (Or.inl hl))
  · rw [Documents.insert, Entries.get?_put] at ha
    split at ha
    · cases ha
      exact hd
    · exact h other found (by rw [find?_eq]; exact Option.or_eq_some_iff.mpr (Or.inr ⟨hl, ha⟩))

/-- Documents that are read from files are in order. -/
theorem inOrder_ofFiles {base : Uri} {files : List (List String × String)} {d : Documents}
    (h : ofFiles base files = .ok d) : d.InOrder := by
  refine foldlM_invariant ?_ inOrder_empty h
  rintro d ⟨names, content⟩ d' hd hstep
  dsimp only at hstep
  split at hstep
  · cases hjoin : base.join ("/".intercalate names) with
    | error fault =>
      rw [hjoin] at hstep
      cases hstep
    | ok uri =>
      rw [hjoin] at hstep
      cases hread : Json.read content with
      | none =>
        rw [hread] at hstep
        cases hstep
        exact hd
      | some document =>
        rw [hread] at hstep
        cases hstep
        exact hd.insert uri (Json.all_isOrdered_of_read hread)
  · cases hstep
    exact hd

end Documents

/-- Where objects were read as nodes in order, the schemas that a load made are in order: what is
nested in them it made too. -/
theorem Session.Traced.isOrdered {lib : Library} {start : Position} {first : Nat} {s : Session}
    (hs : s.Traced (fun _ => Schema.InOrder) lib start first) {t : Schema} (ht : s.Made first t) :
    t.isOrdered = true := by
  induction t using Schema.induction with
  | step t ih =>
    have htraces := hs.nodes ht.first ht.stored
    have hnode : t.InOrder := by
      cases hobject : t.isObject with
      | false => exact Schema.inOrder_of_body hobject
      | true =>
        obtain ⟨_, -, hnode⟩ := htraces.origin hobject
        exact hnode
    refine (Schema.isOrdered_iff t).mpr ⟨hnode.keywords, hnode.extra, fun kind k hk =>
      ⟨hnode.keyword kind k hk, fun c hc => ih kind k c hk hc ?_⟩⟩
    obtain ⟨entry, hentry, rfl⟩ := List.mem_map.mp hc
    have hchild : (kind, entry) ∈ t.children :=
      List.mem_flatMap.mpr ⟨(kind, k), hk, List.mem_map.mpr ⟨entry, hentry, rfl⟩⟩
    exact htraces.children _ hchild

theorem Load.isOrdered_of_finishes {l : Load} (hbegins : l.Begins)
    (hdocuments : l.workspace.documents.InOrder) {schema t : Schema} {report : Report}
    (h : l.run.1 = .ok (schema, report)) (ht : l.workspace.Finishes l.run.2 t) :
    t.isOrdered = true := by
  obtain ⟨start, s, hlocate, hread, -, -, heq⟩ := Load.run_ok h
  have hstart : l.start? = some ⟨l.context, start.1, start.2⟩ := by
    rw [Load.start?, hlocate]
    rfl
  have htracing : Loading.Tracing (fun _ => Schema.InOrder) l.library
      ⟨l.context, start.1, start.2⟩ l.first (Loading.loadNode l.workspace.stepLimit) :=
    Loading.tracing_loadNode (fun hl => fun hp hm hin hr =>
      Loading.inOrder_of_objectRun hl (hbegins.upholds hdocuments hstart hp) hm hin hr) _ _
  obtain ⟨hs, -⟩ := htracing .refl l.inside (l.traced_session _) hread
  obtain ⟨hfirst, hstored⟩ := ht
  rw [heq] at hstored
  exact hs.isOrdered ⟨hfirst, hstored⟩

/-- From documents in order a load makes schemas in order. -/
theorem Load.inOrder_run {l : Load} (hbegins : l.Begins) (hw : l.workspace.InOrder) :
    (∀ t report, l.run.1 = .ok (t, report) → t.isOrdered = true) ∧ l.run.2.InOrder := by
  have hdocuments : l.run.2.documents.InOrder := by
    rw [Documents.InOrder, l.find?_run]
    exact hw.documents
  cases h : l.run.1 with
  | error failure =>
    refine ⟨fun _ _ h => (nomatch h), hdocuments, fun uri t ht => ?_⟩
    rw [Load.rollback h] at ht
    exact hw.cache uri t ht
  | ok result =>
    obtain ⟨schema, report⟩ := result
    have hschema : schema.isOrdered = true :=
      isOrdered_of_finishes hbegins hw.documents h (finishes_of_run h)
    refine ⟨?_, hdocuments, fun uri t ht => ?_⟩
    · rintro t report' ⟨⟩
      exact hschema
    · rcases (Load.commits h).entered ht with hold | rfl | hmade
      · exact hw.cache uri t hold
      · exact hschema
      · exact isOrdered_of_finishes hbegins hw.documents h hmade

/-- From documents in order a request gives schemas in order, and keeps everything in order. -/
theorem Request.inOrder_run {request : Request} (hr : request.InOrder) (policy : Policy)
    {w : Workspace} (hw : w.InOrder) :
    (∀ t, (request.run policy w).1 = .ok t → t.isOrdered = true) ∧
      (request.run policy w).2.InOrder := by
  cases hl : request.load? policy w with
  | none =>
    obtain ⟨r, hanswer, heq⟩ := answer_of_load?_none hl
    rw [heq]
    refine ⟨?_, hw⟩
    rintro t rfl
    cases hanswer with
    | cached hc => exact hw.cache _ _ hc
  | some l =>
    obtain ⟨-, hsame, -⟩ := load?_workspace hl
    have hworkspace : l.workspace.InOrder := by
      refine ⟨fun uri document hd => ?_, hsame ▸ hw.cache⟩
      rcases find?_load? hl hd with hd | hd
      · exact hw.documents uri document hd
      · exact hr document hd
    obtain ⟨hgiven, hafter⟩ := Load.inOrder_run ⟨load?_documentUri hl, load?_loaded hl⟩ hworkspace
    rw [run_of_load? hl]
    refine ⟨fun t ht => ?_, hafter⟩
    cases hrun : l.run.1 with
    | error failure =>
      rw [hrun] at ht
      cases ht
    | ok result =>
      rw [hrun] at ht
      cases ht
      exact hgiven result.1 result.2 hrun

/-- A text brings no document that is out of order. -/
theorem Request.inOrder_ofText (text : String) : (Request.ofText text).InOrder :=
  fun _ h => Json.all_isOrdered_of_read h

theorem Request.inOrder_ofUri (uri : Uri) : (Request.ofUri uri).InOrder := fun _ h => nomatch h

theorem Workspace.inOrder_of_documents {w : Workspace} (h : w.documents.InOrder)
    (hempty : w.cache = .empty) : w.InOrder := by
  refine ⟨h, fun uri t ht => ?_⟩
  rw [hempty] at ht
  cases ht

/-- Everything stays in order, whatever is requested one after the other. -/
theorem Workspace.InOrder.requests {w : Workspace} (hw : w.InOrder)
    {requests : List (Request × Policy)} (hr : ∀ entry ∈ requests, entry.1.InOrder) :
    (requests.foldl (fun w entry => (entry.1.run entry.2 w).2) w).InOrder := by
  induction requests generalizing w with
  | nil => exact hw
  | cons entry rest ih =>
    obtain ⟨hfirst, hrest⟩ := List.forall_mem_cons.mp hr
    exact ih (Request.inOrder_run hfirst entry.2 hw).2 hrest

end SchemaAtlas
