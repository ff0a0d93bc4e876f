import SchemaAtlas.Proofs.Schema.Nesting
import Mathlib.Data.List.Sort
import Mathlib.Data.String.Basic

/-!
# Schemas in order

The maps and the sets of a schema in memory are lists in the order of their keys. Such lists
hold a key once, and two sets with the same members are the same list. `Schema.isOrdered` says
of a schema that it is in order at every depth. Loads give such schemas
(`Request.inOrder_run`).
-/

namespace SchemaAtlas

theorem KeywordKind.rank_injective {a b : KeywordKind} (h : a.rank = b.rank) : a = b := by
  have hkind := congrArg KeywordKind.ofNat h
  simpa [KeywordKind.rank, KeywordKind.ofNat_ctorIdx] using hkind

theorem Shape.rank_injective {a b : Shape} (h : a.rank = b.rank) : a = b := by
  revert h
  cases a <;> cases b <;> decide

/-- An order by rank is total if different values have different ranks. -/
theorem strictTotalOrder_of_rank {α : Type} {rank : α → Nat}
    (injective : ∀ {a b}, rank a = rank b → a = b) :
    IsStrictTotalOrder α fun a b => rank a < rank b where
  trichotomous _ _ hab hba := injective (Nat.le_antisymm (Nat.not_lt.mp hba) (Nat.not_lt.mp hab))
  irrefl _ := Nat.lt_irrefl _
  trans _ _ _ := Nat.lt_trans

instance : IsStrictTotalOrder KeywordKind (· < ·) :=
  strictTotalOrder_of_rank KeywordKind.rank_injective

instance : IsStrictTotalOrder Shape (· < ·) := strictTotalOrder_of_rank Shape.rank_injective

/-- Of two values that are told apart, one is below the other. -/
theorem lt_of_ne_of_not_lt {κ : Type} [LT κ] [IsStrictTotalOrder κ (· < ·)] (a b : κ)
    (hne : a ≠ b) (hlt : ¬a < b) : b < a := by
  by_contra hgt
  exact hne (Std.Trichotomous.trichotomous (r := (· < ·)) a b hlt hgt)

/-! ## Maps -/

namespace Entries

variable {κ α β : Type} [LT κ] [DecidableEq κ] [IsStrictTotalOrder κ (· < ·)]

theorem Sorted.insert [DecidableLT κ] {entries : List (κ × α)} (h : Sorted entries) (key : κ)
    (value : α) : Sorted (Entries.insert key value entries) :=
  sorted_insert (fun _ _ _ => IsTrans.trans _ _ _) lt_of_ne_of_not_lt key value h

omit [DecidableEq κ] in
theorem Sorted.nodup {entries : List (κ × α)} (h : Sorted entries) : (keys entries).Nodup :=
  nodup_of_sorted (Std.Irrefl.irrefl (r := (· < ·))) h

omit [IsStrictTotalOrder κ (· < ·)] in
theorem Sorted.erase {entries : List (κ × α)} (h : Sorted entries) (key : κ) :
    Sorted (Entries.erase key entries) := by
  induction entries with
  | nil => exact h
  | cons entry rest ih =>
    obtain ⟨below, ordered⟩ := List.pairwise_cons.mp h
    rw [Entries.erase]
    split
    · exact ordered
    · exact List.pairwise_cons.mpr ⟨fun other hother => below other (mem_of_mem_erase hother),
        ih ordered⟩

theorem get?_erase_self {entries : List (κ × α)} (h : Sorted entries) (key : κ) :
    get? key (erase key entries) = none := by
  rw [get?_eq_none, keys_erase]
  exact h.nodup.not_mem_erase

omit [IsStrictTotalOrder κ (· < ·)] [DecidableEq κ] in
theorem Sorted.mapValues {entries : List (κ × α)} (h : Sorted entries) (f : α → β) :
    Sorted (Entries.mapValues f entries) :=
  List.pairwise_map.mpr h

omit [IsStrictTotalOrder κ (· < ·)] [DecidableEq κ] in
/-- A map whose keys are some of the keys of a map in order is in order. -/
theorem Sorted.of_keys {entries : List (κ × α)} {others : List (κ × β)} (h : Sorted entries)
    (hkeys : (keys others).Sublist (keys entries)) : Sorted others :=
  List.pairwise_map.mp ((List.pairwise_map.mpr h).sublist hkeys)

end Entries

/-! ## Sets -/

namespace Members

variable {α : Type} [LT α] [DecidableLT α] [DecidableEq α]

instance (set : List α) : Decidable (Sorted set) :=
  inferInstanceAs (Decidable (set.Pairwise (· < ·)))

variable [IsStrictTotalOrder α (· < ·)] {a b : List α}

omit [DecidableEq α] in
omit [DecidableLT α] in
theorem Sorted.ext (ha : Sorted a) (hb : Sorted b) (h : ∀ x, x ∈ a ↔ x ∈ b) : a = b :=
  List.Pairwise.eq_of_mem_iff ha hb h

theorem Sorted.union (ha : Sorted a) (b : List α) : Sorted (Members.union a b) :=
  sorted_union (fun _ _ _ => IsTrans.trans _ _ _) lt_of_ne_of_not_lt ha b

theorem sorted_ofList (list : List α) : Sorted (ofList list) :=
  Sorted.union (a := []) List.Pairwise.nil list

theorem union_of_subset (ha : Sorted a) (h : b ⊆ a) : Members.union a b = a :=
  (ha.union b).ext ha fun x => by
    rw [mem_union]
    exact or_iff_left_of_imp fun hx => h hx

end Members

/-! ## Schemas -/

/-- The names that a property depends on are in order. -/
def Dependency.ordered {σ : Type} : Dependency σ → Bool
  | .schema _ => true
  | .properties names => decide (Members.Sorted names)

/-- The maps and the sets of a keyword are in order, those of its schemas apart. -/
def Keyword.ordered {σ : Type} : Keyword σ → Bool
  | .schemaMap entries => decide (Entries.Sorted entries)
  | .dependencies entries =>
    decide (Entries.Sorted entries) && entries.all fun entry => entry.2.ordered
  | .names set => decide (Members.Sorted set)
  | .types set | .union set _ => decide (Members.Sorted set)
  | _ => true

theorem Dependency.ordered_map {σ τ : Type} (f : σ → τ) (d : Dependency σ) :
    (d.map f).ordered = d.ordered := by
  cases d <;> rfl

theorem Entries.sorted_mapValues {κ α β : Type} [LT κ] (f : α → β) (entries : List (κ × α)) :
    Sorted (mapValues f entries) ↔ Sorted entries :=
  List.pairwise_map

theorem Keyword.ordered_map {σ τ : Type} (f : σ → τ) (k : Keyword σ) :
    (k.map f).ordered = k.ordered := by
  cases k with
  | schemaMap entries => simp only [map, ordered, Entries.sorted_mapValues]
  | dependencies entries =>
    simp only [map, ordered, Entries.sorted_mapValues]
    simp [Entries.mapValues, Function.comp_def, Dependency.ordered_map]
  | _ => rfl

namespace Schema

/-- The maps and the sets of a schema are in order, at every depth. -/
def isOrdered : Schema → Bool :=
  descend fun _ body =>
    match body with
    | .object keywords extra => decide (Entries.Sorted keywords) &&
        decide (Entries.Sorted extra) &&
        keywords.all fun entry => entry.2.ordered && entry.2.nodes.all Prod.snd
    | _ => true

/-- What holds for a node in order: its members are, and the schemas nested in it. -/
theorem isOrdered_iff (s : Schema) : s.isOrdered = true ↔
    Entries.Sorted s.keywords ∧ Entries.Sorted s.extra ∧ ∀ kind k, (kind, k) ∈ s.keywords →
      k.ordered = true ∧ ∀ c ∈ k.nodes, c.isOrdered = true := by
  rw [isOrdered, descend_node]
  obtain ⟨id, location, draft, body⟩ := s
  cases body with
  | boolean | reference => simp [body, Body.map, keywords, extra, Entries.Sorted]
  | object members more =>
    simp only [body, Body.map, keywords, extra, Bool.and_eq_true, decide_eq_true_eq,
      Entries.sorted_mapValues, List.all_eq_true, and_assoc]
    refine and_congr_right fun _ => and_congr_right fun _ => ?_
    constructor
    · intro h kind k hk
      obtain ⟨hordered, hnodes⟩ := h _ (List.mem_map_of_mem hk)
      rw [Keyword.ordered_map] at hordered
      refine ⟨hordered, fun c hc => hnodes (c, c.isOrdered) ?_⟩
      rw [Keyword.nodes_map]
      exact List.mem_map_of_mem hc
    · intro h entry hentry
      obtain ⟨⟨kind, k⟩, hk, rfl⟩ := List.mem_map.mp hentry
      obtain ⟨hordered, hnodes⟩ := h kind k hk
      refine ⟨(Keyword.ordered_map _ k).trans hordered, fun pair hpair => ?_⟩
      rw [Keyword.nodes_map] at hpair
      obtain ⟨c, hc, rfl⟩ := List.mem_map.mp hpair
      exact hnodes c hc

end Schema
end SchemaAtlas
