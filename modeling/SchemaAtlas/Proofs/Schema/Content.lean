import SchemaAtlas.Proofs.Schema.Nesting
import SchemaAtlas.Proofs.Spelling.Alike

/-!
# The content of a schema

The content of a schema is the schema without numbers, places and drafts. Schemas with the same
content are equal in the sense of `Schema.equals`.
-/

namespace SchemaAtlas

theorem Limit.equals_self (l : Limit) : l.equals l = true := by
  obtain ⟨inclusive, exclusive⟩ := l
  cases inclusive <;> cases exclusive <;> simp [equals, sameBound]

namespace Schema

/-- The schema without the numbers, the places and the drafts of its nodes. -/
def content (s : Schema) : Schema :=
  descend (fun _ body => .node 0 default default (body.map Prod.snd)) s

theorem content_node (s : Schema) : s.content = .node 0 default default (s.body.map content) := by
  rw [content, descend_node, Body.map_map]
  rfl

theorem equals_node (s t : Schema) : s.equals t =
    match s.body.map equals, t.body with
    | .object ps extra, .object keywords extra' =>
      agreeKeywords ps keywords && Json.equalMembers extra extra'
    | .boolean a, .boolean b => a == b
    | .reference a, .reference b => a.uri == b.uri
    | _, _ => false := by
  rw [equals, descend_node]
  simp only [Body.map_map]
  rfl

/-! ## Equal content -/

/-- A schema is equal to every schema with the same content. -/
def Recognised (s : Schema) : Prop := ∀ t, Same content s t → s.equals t = true

theorem agreeLists_of_content : {ss ts : List Schema} → (∀ s ∈ ss, s.Recognised) →
    ss.map content = ts.map content → keywordAgrees.agreeLists (ss.map equals) ts = true
  | [], [], _, _ => rfl
  | [], _ :: _, _, h => by cases h
  | _ :: _, [], _, h => by cases h
  | s :: ss, t :: ts, hs, h => by
    obtain ⟨hhead, htail⟩ := List.cons.inj h
    have hrest := agreeLists_of_content (fun s hm => hs s (List.mem_cons_of_mem _ hm)) htail
    simp only [List.map_cons, keywordAgrees.agreeLists, hrest, Bool.and_true]
    exact hs s List.mem_cons_self t hhead

theorem agreeEntries_of_content : {ss ts : List (String × Schema)} →
    (∀ entry ∈ ss, entry.2.Recognised) →
    Entries.mapValues content ss = Entries.mapValues content ts →
    keywordAgrees.agreeEntries (Entries.mapValues equals ss) ts = true
  | [], [], _, _ => rfl
  | [], _ :: _, _, h => by cases h
  | _ :: _, [], _, h => by cases h
  | (name, s) :: ss, (name', t) :: ts, hs, h => by
    obtain ⟨hhead, htail⟩ := List.cons.inj h
    obtain ⟨hname, hst⟩ := Prod.mk.inj hhead
    cases hname
    have hrest := agreeEntries_of_content (fun s hm => hs s (List.mem_cons_of_mem _ hm)) htail
    have hequal := hs _ List.mem_cons_self t hst
    simp only [Entries.mapValues] at hrest ⊢
    simp [keywordAgrees.agreeEntries, hrest, hequal]

theorem agreeDependencies_of_content : {ss ts : List (String × Dependency Schema)} →
    (∀ name s, (name, Dependency.schema s) ∈ ss → s.Recognised) →
    Entries.mapValues (Dependency.map content) ss = Entries.mapValues (Dependency.map content) ts →
    keywordAgrees.agreeDependencies (Entries.mapValues (Dependency.map equals) ss) ts = true
  | [], [], _, _ => rfl
  | [], _ :: _, _, h => by cases h
  | _ :: _, [], _, h => by cases h
  | (name, d) :: ss, (name', e) :: ts, hs, h => by
    obtain ⟨hhead, htail⟩ := List.cons.inj h
    obtain ⟨hname, hde⟩ := Prod.mk.inj hhead
    cases hname
    have hrest := agreeDependencies_of_content
      (fun name s hm => hs name s (List.mem_cons_of_mem _ hm)) htail
    rw [Entries.mapValues, List.map_cons]
    cases d with
    | schema s =>
      cases e with
      | schema t =>
        have hequal := hs _ s List.mem_cons_self t (Dependency.schema.inj hde)
        simp only [Dependency.map, keywordAgrees.agreeDependencies, hequal, beq_self_eq_true,
          Bool.true_and]
        exact hrest
      | properties => cases hde
    | properties names =>
      cases e with
      | schema => cases hde
      | properties names' =>
        cases Dependency.properties.inj hde
        simp only [Dependency.map, keywordAgrees.agreeDependencies, beq_self_eq_true,
          Bool.true_and]
        exact hrest

theorem keywordAgrees_of_content {k l : Keyword Schema} (hk : ∀ s ∈ k.nodes, s.Recognised)
    (h : Same (Keyword.map content) k l) : keywordAgrees (k.map equals) l = true := by
  unfold Same at h
  cases k with
  | schema s =>
    cases l with
    | schema t => exact hk s List.mem_cons_self t (Keyword.schema.inj h)
    | _ => cases h
  | items s =>
    cases l with
    | items t => exact hk s List.mem_cons_self t (Keyword.items.inj h)
    | _ => cases h
  | schemaList list =>
    cases l with
    | schemaList list' =>
      refine agreeLists_of_content (fun s hs => hk s ?_) (Keyword.schemaList.inj h)
      simpa [Keyword.nodes, Keyword.subschemas] using hs
    | _ => cases h
  | tuple list =>
    cases l with
    | tuple list' =>
      refine agreeLists_of_content (fun s hs => hk s ?_) (Keyword.tuple.inj h)
      simpa [Keyword.nodes, Keyword.subschemas] using hs
    | _ => cases h
  | union shapes list =>
    cases l with
    | union shapes' list' =>
      obtain ⟨rfl, hlist⟩ := Keyword.union.inj h
      have hagree := agreeLists_of_content (fun s hs => hk s (by
        simpa [Keyword.nodes, Keyword.subschemas] using hs)) hlist
      simp [Keyword.map, keywordAgrees, hagree]
    | _ => cases h
  | schemaMap entries =>
    cases l with
    | schemaMap entries' =>
      refine agreeEntries_of_content (fun entry he => hk entry.2 ?_) (Keyword.schemaMap.inj h)
      exact List.mem_map.mpr ⟨_, List.mem_map_of_mem he, rfl⟩
    | _ => cases h
  | dependencies entries =>
    cases l with
    | dependencies entries' =>
      refine agreeDependencies_of_content (fun name s hs => hk s ?_) (Keyword.dependencies.inj h)
      exact List.mem_map.mpr ⟨(some name, s), List.mem_filterMap.mpr ⟨_, hs, rfl⟩, rfl⟩
    | _ => cases h
  | json value =>
    cases l <;> cases h
    exact value.equals_self
  | string | uri | number | count | boolean | names | types | limit | jsonList =>
    cases l <;> cases h
    all_goals simp [Keyword.map, keywordAgrees, Limit.equals_self, Json.equalElements_self]

theorem agreeKeywords_of_content : {ks ls : List (KeywordKind × Keyword Schema)} →
    (∀ kind k s, (kind, k) ∈ ks → s ∈ k.nodes → s.Recognised) →
    Entries.mapValues (Keyword.map content) ks = Entries.mapValues (Keyword.map content) ls →
    agreeKeywords (Entries.mapValues (Keyword.map equals) ks) ls = true
  | [], [], _, _ => rfl
  | [], _ :: _, _, h => by cases h
  | _ :: _, [], _, h => by cases h
  | (kind, k) :: ks, (kind', l) :: ls, hs, h => by
    obtain ⟨hhead, htail⟩ := List.cons.inj h
    obtain ⟨hkind, hkl⟩ := Prod.mk.inj hhead
    cases hkind
    have hrest := agreeKeywords_of_content
      (fun kind k s hm => hs kind k s (List.mem_cons_of_mem _ hm)) htail
    have hagree := keywordAgrees_of_content (fun s => hs kind k s List.mem_cons_self) hkl
    rw [Entries.mapValues, List.map_cons]
    simp only [agreeKeywords, hagree, beq_self_eq_true, Bool.true_and]
    exact hrest

theorem body_of_content {s t : Schema} (h : Same content s t) :
    s.body.map content = t.body.map content := by
  rw [Same, content_node, content_node] at h
  exact (Schema.node.inj h).2.2.2

/-- Schemas with the same content are equal. -/
theorem equals_of_content (s : Schema) : s.Recognised := by
  induction s using Schema.induction with
  | step s ih =>
    intro t h
    have hbody := body_of_content h
    rw [equals_node]
    unfold keywords at ih
    revert ih hbody
    generalize s.body = b
    generalize t.body = c
    intro ih hbody
    cases b with
    | object ks extra =>
      cases c with
      | object ls extra' =>
        obtain ⟨hkeywords, rfl⟩ := Body.object.inj hbody
        simp only [Body.map, agreeKeywords_of_content ih hkeywords, Json.equalMembers_self,
          Bool.and_self]
      | boolean | reference => cases hbody
    | boolean b =>
      cases c with
      | boolean => cases hbody; exact beq_self_eq_true b
      | object | reference => cases hbody
    | reference r =>
      cases c with
      | reference => cases hbody; exact beq_self_eq_true r.uri
      | object | boolean => cases hbody

end Schema
end SchemaAtlas
