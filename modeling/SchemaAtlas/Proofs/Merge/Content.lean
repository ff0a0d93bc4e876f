import SchemaAtlas.Merge
import SchemaAtlas.Proofs.Schema.Nesting

/-!
# What a schema says, and where

`NodeAt` gives the nodes of a schema with the paths that merge reports use for them. One
node retains what another says if it holds the keywords of that one with all of their
content: equal plain values, all members of sets and lists, every bound and every entry.
`KeptIn` says this of all nodes of a schema, except below the paths that a report gives up.
-/

namespace SchemaAtlas

namespace Pointer

/-- The place of a nested schema below its keyword. -/
def under (p : Pointer) : Option String → Pointer
  | none => p
  | some segment => p.child segment

theorem append_eq (p q : Pointer) : p ++ q = ⟨p.segments ++ q.segments⟩ := rfl

theorem child_under_append (p : Pointer) (key : String) (segment : Option String)
    (path : List String) :
    (p.child key).under segment ++ ⟨path⟩ = p ++ ⟨key :: (segment.toList ++ path)⟩ := by
  cases segment <;> simp [under, append_eq]

end Pointer

namespace MergeReport

/-- Nothing of this sort is reported at the path or above it. -/
def Clear (r : MergeReport) (verb : MergeVerb) (path : Pointer) : Prop :=
  ∀ action ∈ r.actions, action.verb = verb → ¬ action.path.segments <+: path.segments

variable {r r' : MergeReport} {verb : MergeVerb} {path : Pointer}

theorem Clear.above {more : List String} (h : r.Clear verb (path ++ ⟨more⟩)) :
    r.Clear verb path :=
  fun action ha hv hp => h action ha hv (hp.trans (List.prefix_append _ _))

theorem Clear.mono (h : r'.Clear verb path) (hr : r.actions ⊆ r'.actions) :
    r.Clear verb path :=
  fun action ha => h action (hr ha)

theorem not_clear_of_mem {message : Option String} (h : ⟨path, verb, message⟩ ∈ r.actions) :
    ¬ r.Clear verb path :=
  fun hc => hc _ h rfl (List.prefix_refl _)

end MergeReport

/-! ## Content of keywords -/

theorem Number.equals_comm (m n : Number) : m.equals n = n.equals m := by
  cases m <;> cases n <;> simp [equals, Binary64.equals_comm, Bool.beq_comm]

namespace Json

mutual

theorem equals_comm : (x y : Json) → x.equals y = y.equals x
  | .null, y => by cases y <;> rfl
  | .bool a, y => by cases y <;> simp [equals, Bool.beq_comm]
  | .number a, y => by cases y <;> simp [equals, Number.equals_comm]
  | .string a, y => by cases y <;> simp [equals, Bool.beq_comm]
  | .array a, y => by
    cases y with
    | array b => simpa [equals] using equalElements_comm a b
    | null | bool | number | string | object => rfl
  | .object a, y => by
    cases y with
    | object b => simpa [equals] using equalMembers_comm a b
    | null | bool | number | string | array => rfl

theorem equalElements_comm : (xs ys : List Json) → equalElements xs ys = equalElements ys xs
  | [], ys => by cases ys <;> rfl
  | x :: xs, ys => by
    cases ys with
    | nil => rfl
    | cons y ys => simp [equalElements, equals_comm x y, equalElements_comm xs ys]

theorem equalMembers_comm :
    (xs ys : List (String × Json)) → equalMembers xs ys = equalMembers ys xs
  | [], ys => by cases ys <;> rfl
  | (k, x) :: xs, ys => by
    cases ys with
    | nil => rfl
    | cons y ys =>
      obtain ⟨l, y⟩ := y
      simp [equalMembers, equals_comm x y, equalMembers_comm xs ys, Bool.beq_comm (a := k)]

end

end Json

namespace Limit

/-- A bound that is set is set to an equal number. -/
def boundContained (a b : Option Number) : Prop :=
  ∀ n, a = some n → ∃ m, b = some m ∧ n.equals m = true

/-- Every bound of a limit is one of another. -/
def Contained (a b : Limit) : Prop :=
  boundContained a.inclusive b.inclusive ∧ boundContained a.exclusive b.exclusive

end Limit

namespace Keyword

/-- The plain content of a keyword is in another. -/
def PlainContained : Keyword Schema → Keyword Schema → Prop
  | .string a, .string b | .uri a, .uri b => a = b
  | .number a, .number b => a.equals b = true
  | .count a, .count b => a = b
  | .boolean a, .boolean b => a = b
  | .json a, .json b => a.equals b = true
  | .names a, .names b => a ⊆ b
  | .types a, .types b => a ⊆ b
  | .jsonList a, .jsonList b => ∀ v ∈ a, ∃ w ∈ b, v.equals w = true
  | .limit a, .limit b => a.Contained b
  | .dependencies a, .dependencies b => ∀ name ps, (name, .properties ps) ∈ a →
      ∃ ps', (name, .properties ps') ∈ b ∧ ps ⊆ ps'
  | .union a ss, .union b ts => a ⊆ b ∧ ss.length = ts.length
  | .schemaList a, .schemaList b | .tuple a, .tuple b => a.length = b.length
  | .schema _, .schema _ | .items _, .items _ | .schemaMap _, .schemaMap _ => True
  | _, _ => False

/-- All content of a keyword is in another, the nested schemas apart, of which only the
entries have to be there. -/
structure Contained (k k' : Keyword Schema) : Prop where
  plain : k.PlainContained k'
  entries : ∀ {segment child}, (segment, child) ∈ k.subschemas →
    ∃ child', (segment, child') ∈ k'.subschemas

theorem Contained.refl (k : Keyword Schema) : k.Contained k where
  plain := by
    cases k with
    | dependencies => exact fun _ ps h => ⟨ps, h, List.Subset.refl _⟩
    | limit =>
      exact ⟨fun n h => ⟨n, h, n.equals_self⟩, fun n h => ⟨n, h, n.equals_self⟩⟩
    | json v => exact v.equals_self
    | jsonList => exact fun v h => ⟨v, h, v.equals_self⟩
    | number n => exact n.equals_self
    | names | types => exact List.Subset.refl _
    | union => exact ⟨List.Subset.refl _, rfl⟩
    | schema | items | schemaMap => trivial
    | schemaList | tuple | string | uri | count | boolean => rfl
  entries := fun {_ child} h => ⟨child, h⟩

/-- A key occurs once in the maps of the keyword. -/
def distinct {σ : Type} : Keyword σ → Bool
  | .schemaMap entries => decide (Entries.keys entries).Nodup
  | .dependencies entries => decide (Entries.keys entries).Nodup
  | _ => true

end Keyword

namespace Schema

/-- What a schema in memory keeps to: in each of its maps, at any depth, a key occurs once. -/
def isStored : Schema → Bool :=
  descend fun _ body =>
    match body with
    | .object keywords _ => decide (Entries.keys keywords).Nodup &&
        keywords.all fun entry => entry.2.distinct && entry.2.nodes.all Prod.snd
    | _ => true

/-! ## Nodes -/

/-- The nodes of a schema with their paths; identifiers lead to none. -/
inductive NodeAt : Schema → List String → Schema → Prop
  | self (s : Schema) : NodeAt s [] s
  | inside {s child t : Schema} {kind : KeywordKind} {k : Keyword Schema}
      {segment : Option String} {path : List String} : kind ≠ .id → s.keyword? kind = some k →
      (segment, child) ∈ k.subschemas → NodeAt child path t →
      NodeAt s (kind.key :: (segment.toList ++ path)) t

/-- A node at a path says what another says, as far as `clear` asks for it. -/
structure Retains (clear : Pointer → Prop) (path : Pointer) (s r : Schema) : Prop where
  refusal : s.boolean? = some false → r.boolean? = some false
  reference : ∀ {reference}, s.reference? = some reference → r.reference? = some reference
  keyword : ∀ {kind k}, kind ≠ .id → s.keyword? kind = some k → clear (path.child kind.key) →
    ∃ k', r.keyword? kind = some k' ∧ k.Contained k'

/-- What the nodes of a schema at a path say is said in another, where `clear` asks for it. -/
def KeptIn (clear : Pointer → Prop) (path : Pointer) (s r : Schema) : Prop :=
  ∀ q c, s.NodeAt q c → clear (path ++ ⟨q⟩) →
    ∃ c', r.NodeAt q c' ∧ c.Retains clear (path ++ ⟨q⟩) c'

end Schema
end SchemaAtlas
