import SchemaAtlas.Proofs.Decimal.Rounding
import SchemaAtlas.Proofs.Render.Conforming
import Mathlib.Algebra.Order.Field.Basic
import Mathlib.Data.Rat.Cast.Order
import Mathlib.Tactic.NormNum

/-!
# Bounds in drafts with one bound

Up to the fifth draft an object has one bound on each side and a flag that excludes it. Of two
bounds the tighter one is to be written, and the two are compared as binary floating point
numbers. Integers keep their order there, so a looser bound is never written for a tighter one
unless both round to one number; then the exclusive bound is written, whatever the other one is
(`Schema.admits_iff_untied`).
-/

namespace SchemaAtlas

/-- The number that a numeral stands for. -/
def Number.value : Number → ℚ
  | .integer i => i
  | .float x => x.units / Binary64.unitsOfOne

@[simp] theorem Number.value_integer (i : Int) : (Number.integer i).value = i := rfl

namespace Limit

/-- A number on the right side of a bound from below or from above, which may exclude the bound
itself. -/
def Clears (lower strict : Bool) (bound x : ℚ) : Prop :=
  match lower, strict with
  | true, false => bound ≤ x
  | true, true => bound < x
  | false, false => x ≤ bound
  | false, true => x < bound

/-- A number that satisfies every bound that is set. -/
def Admits (lower : Bool) (l : Limit) (x : ℚ) : Prop :=
  (∀ n, l.inclusive = some n → Clears lower false n.value x) ∧
    ∀ n, l.exclusive = some n → Clears lower true n.value x

/-- Every bound that is set is an integer of 64 bits, signed or not. -/
def IsWord (l : Limit) : Prop :=
  ∀ n, l.inclusive = some n ∨ l.exclusive = some n →
    ∃ i : Int, n = .integer i ∧ -2 ^ 63 ≤ i ∧ i < 2 ^ 64

/-- The inclusive bound is the tighter one, and both round to one floating point number. -/
def Ties (lower : Bool) (l : Limit) : Prop :=
  ∃ i e, l.inclusive = some i ∧ l.exclusive = some e ∧
    i.toBinary64.equals e.toBinary64 = true ∧
    (if lower then e.value < i.value else i.value < e.value)

theorem log2_le_of_word {i : Int} (h : -2 ^ 63 ≤ i ∧ i < 2 ^ 64) : i.natAbs.log2 ≤ 1022 := by
  by_cases hzero : i.natAbs = 0
  · rw [hzero]
    decide +kernel
  · have hlog : i.natAbs.log2 < 65 := (Nat.log2_lt hzero).mpr (by omega)
    omega

/-- Integers of 53 bits do not fall together. -/
theorem not_ties_of_small {lower : Bool} {l : Limit} (h : ∀ n, l.inclusive = some n ∨
    l.exclusive = some n → ∃ i : Int, n = .integer i ∧ i.natAbs < 2 ^ 53) : ¬l.Ties lower := by
  rintro ⟨_, _, hi, he, htie, htighter⟩
  obtain ⟨i, rfl, hismall⟩ := h _ (Or.inl hi)
  obtain ⟨e, rfl, hesmall⟩ := h _ (Or.inr he)
  have hlog : ∀ {j : Int}, j.natAbs < 2 ^ 53 → j.natAbs.log2 ≤ 1022 := fun hj =>
    log2_le_of_word (by omega)
  have hunits : (Binary64.ofInt i).units = (Binary64.ofInt e).units := eq_of_beq htie
  rw [Binary64.units_ofInt (hlog hismall), Binary64.units_ofInt (hlog hesmall),
    Binary64.roundInt_of_natAbs_lt hismall, Binary64.roundInt_of_natAbs_lt hesmall] at hunits
  have hone : (Binary64.unitsOfOne : Int) ≠ 0 := by
    have := Nat.two_pow_pos (-Binary64.leastExponent).toNat
    unfold Binary64.unitsOfOne
    omega
  have heq : i = e := Int.eq_of_mul_eq_mul_right hone hunits
  subst heq
  simp at htighter

/-- What a draft with flags holds of a limit: a number and whether it is excluded. -/
def flagged? (lower : Bool) (l : Limit) : Option (Number × Bool) :=
  if l.exclusiveWins lower then l.exclusive.map (·, true) else l.inclusive.map (·, false)

theorem ties_iff {lower : Bool} {i e : Int} :
    (⟨some (.integer i), some (.integer e)⟩ : Limit).Ties lower ↔
      (Binary64.ofInt i).units = (Binary64.ofInt e).units ∧ ¬(if lower then i ≤ e else e ≤ i) := by
  cases lower <;> simp [Ties, Number.toBinary64, Binary64.equals]

/-- Rounding keeps the order, so the exclusive bound is chosen unless it is looser, and also if
it is looser and both round to one number. -/
theorem exclusiveWins_iff (lower : Bool) {i e : Int} (hi : -2 ^ 63 ≤ i ∧ i < 2 ^ 64)
    (he : -2 ^ 63 ≤ e ∧ e < 2 ^ 64) :
    (⟨some (.integer i), some (.integer e)⟩ : Limit).exclusiveWins lower = true ↔
      (if lower then i ≤ e else e ≤ i) ∨
        (⟨some (.integer i), some (.integer e)⟩ : Limit).Ties lower := by
  have hmono : i ≤ e → (Binary64.ofInt i).units ≤ (Binary64.ofInt e).units :=
    Binary64.units_ofInt_mono (log2_le_of_word hi) (log2_le_of_word he)
  have hmono' : e ≤ i → (Binary64.ofInt e).units ≤ (Binary64.ofInt i).units :=
    Binary64.units_ofInt_mono (log2_le_of_word he) (log2_le_of_word hi)
  have hle : ∀ x y : Binary64, x.le y = true ↔ x.units ≤ y.units := fun _ _ => decide_eq_true_iff
  rw [ties_iff]
  cases lower
  · have hwins : (⟨some (.integer i), some (.integer e)⟩ : Limit).exclusiveWins false =
        (Binary64.ofInt e).le (.ofInt i) := rfl
    rw [hwins, hle, if_neg Bool.false_ne_true]
    omega
  · have hwins : (⟨some (.integer i), some (.integer e)⟩ : Limit).exclusiveWins true =
        (Binary64.ofInt i).le (.ofInt e) := rfl
    rw [hwins, hle, if_pos rfl]
    omega

/-- The exclusive bound says what both say if it is no looser, and the inclusive one if it is
tighter. -/
theorem clears_iff_of_choice (lower wins : Bool) (i e : Int) :
    (∀ x : ℚ, Clears lower wins (if wins then e else i) x ↔
      Clears lower false i x ∧ Clears lower true e x) ↔
      (wins = true ↔ if lower then i ≤ e else e ≤ i) := by
  cases lower <;> cases wins <;>
    simp only [Clears, if_true, Bool.false_eq_true, if_false, iff_self_and, iff_and_self, false_iff,
      true_iff, not_le]
  · exact ⟨fun h => by exact_mod_cast h i le_rfl, fun h x hx => hx.trans_lt (by exact_mod_cast h)⟩
  · rw [forall_lt_imp_le_iff_le_of_dense, Int.cast_le]
  · exact ⟨fun h => by exact_mod_cast h i le_rfl,
      fun h x hx => lt_of_lt_of_le (by exact_mod_cast h) hx⟩
  · rw [forall_gt_imp_ge_iff_le_of_dense, Int.cast_le]

/-- What is kept of a limit says what the limit says, unless there is a tie. -/
theorem admits_flagged?_iff {lower : Bool} {l : Limit} (hl : l.IsWord) :
    (∀ x : ℚ, (∀ n strict, l.flagged? lower = some (n, strict) → Clears lower strict n.value x) ↔
      l.Admits lower x) ↔ ¬l.Ties lower := by
  obtain ⟨inclusive, exclusive⟩ := l
  cases inclusive with
  | none =>
    have hties : ¬(⟨none, exclusive⟩ : Limit).Ties lower := by
      rintro ⟨_, _, hi, _⟩
      cases hi
    simp only [hties, not_false_eq_true, iff_true]
    cases exclusive <;> simp [flagged?, exclusiveWins, Admits]
  | some i =>
    cases exclusive with
    | none =>
      have hties : ¬(⟨some i, none⟩ : Limit).Ties lower := by
        rintro ⟨_, _, _, he, _⟩
        cases he
      simp [hties, flagged?, exclusiveWins, Admits]
    | some e =>
      obtain ⟨i, rfl, hi⟩ := hl i (Or.inl rfl)
      obtain ⟨e, rfl, he⟩ := hl e (Or.inr rfl)
      have hwins := exclusiveWins_iff lower hi he
      have htie : (⟨some (.integer i), some (.integer e)⟩ : Limit).Ties lower →
          ¬(if lower then i ≤ e else e ≤ i) := fun h => (ties_iff.mp h).2
      simp only [flagged?, Admits]
      generalize (⟨some (.integer i), some (.integer e)⟩ : Limit).exclusiveWins lower = wins at *
      have hchoice := clears_iff_of_choice lower wins i e
      have hkept : ∀ x : ℚ, (∀ n strict, (if wins then some (Number.integer e, true)
          else some (Number.integer i, false)) = some (n, strict) → Clears lower strict n.value x) ↔
            Clears lower wins (if wins then e else i) x := by
        cases wins <;> simp
      have hboth : ∀ x : ℚ, ((∀ n, some (Number.integer i) = some n →
          Clears lower false n.value x) ∧ ∀ n, some (Number.integer e) = some n →
            Clears lower true n.value x) ↔ Clears lower false i x ∧ Clears lower true e x := by
        simp
      simp only [Option.map_some, hkept, hboth, hchoice]
      grind

/-- What a draft with flags is written with for a limit, read under its two keys. -/
theorem get?_members {bound exclusiveKey : String} (hne : bound ≠ exclusiveKey) (lower : Bool)
    {draft : Draft} (hd : draft.hasFlaggedLimits = true) (l : Limit) :
    Entries.get? bound (l.members bound exclusiveKey lower draft).reverse =
        (l.flagged? lower).map (fun kept => .number kept.1) ∧
      Entries.get? exclusiveKey (l.members bound exclusiveKey lower draft).reverse =
        (l.flagged? lower).bind fun kept => if kept.2 then some (.bool true) else none := by
  unfold members flagged?
  rw [if_pos hd]
  split
  · cases l.exclusive <;> simp [Entries.get?, hne]
  · cases l.inclusive <;> simp [Entries.get?, hne.symm]

end Limit

namespace Schema

open Catalog Digest

/-- Only a bound is written under the keys of a bound. -/
structure KeysApart : Prop where
  keyIn : ∀ draft ∈ Draft.all, ∀ kind ∈ KeywordKind.all, ∀ bound ∈ bounds, kind ∉ bounds →
    Schema.keyIn draft kind ≠ boundKey bound ∧ Schema.keyIn draft kind ≠ exclusiveKey bound
  enum : ∀ bound ∈ bounds, "enum" ≠ boundKey bound ∧ "enum" ≠ exclusiveKey bound
  bounds : ∀ bound ∈ bounds, ∀ other ∈ bounds, bound ≠ other → boundKey other ≠ boundKey bound ∧
    boundKey other ≠ exclusiveKey bound ∧ exclusiveKey other ≠ boundKey bound ∧
      exclusiveKey other ≠ exclusiveKey bound

theorem keysApart : KeysApart where
  keyIn := by decide +kernel
  enum := by decide +kernel
  bounds := by decide +kernel

/-- What is written for a kind stands under its own keys, or is an enumeration. -/
theorem key_of_mem_membersIn {draft : Draft} {hasEnum : Bool} {kind : KeywordKind}
    {k : Keyword (Schema × Json)} {member : String × Json}
    (hm : member ∈ membersIn draft hasEnum kind k) :
    member.1 = "enum" ∨
      (kind ∈ bounds ∧ (member.1 = boundKey kind ∨ member.1 = exclusiveKey kind)) ∨
      (kind ∉ bounds ∧ member.1 = Schema.keyIn draft kind) := by
  unfold membersIn at hm
  split at hm
  · split at hm
    · split at hm
      · cases hm
      · exact Or.inl (congrArg Prod.fst (List.mem_singleton.mp hm))
    · cases hm
  · right
    split at hm
    · by_cases hb : kind ∈ bounds
      · refine Or.inl ⟨hb, ?_⟩
        rcases List.mem_cons.mp hb with rfl | hb
        · cases k <;> first | cases hm | exact Limit.key_of_mem_members hm
        · rw [List.mem_singleton.mp hb] at hm ⊢
          cases k <;> first | cases hm | exact Limit.key_of_mem_members hm
      · refine Or.inr ⟨hb, ?_⟩
        have hnames : ∀ types, member ∈ (renderTypes draft types).toList.map
            (fun json => (Schema.keyIn draft kind, json)) → member.1 = Schema.keyIn draft kind := by
          intro types hm
          obtain ⟨_, _, rfl⟩ := List.mem_map.mp hm
          rfl
        unfold keywordMembers at hm
        split at hm
        case h_10 =>
          split at hm
          · exact congrArg Prod.fst (List.mem_singleton.mp hm)
          · exact hnames _ hm
        all_goals first
          | exact congrArg Prod.fst (List.mem_singleton.mp hm)
          | exact hnames _ hm
          | exact (hb (by decide)).elim
          | cases hm
    · cases hm

theorem mem_all (kind : KeywordKind) : kind ∈ KeywordKind.all := by
  cases kind <;> decide

/-- No other kind is written under a key of a bound. -/
theorem ne_of_mem_membersIn {draft : Draft} {hasEnum : Bool} {kind bound : KeywordKind}
    {k : Keyword (Schema × Json)} {member : String × Json} (hb : bound ∈ bounds)
    (hne : bound ≠ kind) (hm : member ∈ membersIn draft hasEnum kind k) :
    member.1 ≠ boundKey bound ∧ member.1 ≠ exclusiveKey bound := by
  rcases key_of_mem_membersIn hm with hkey | ⟨hother, hkey⟩ | ⟨hother, hkey⟩
  · rw [hkey]
    exact keysApart.enum bound hb
  · obtain ⟨h₁, h₂, h₃, h₄⟩ := keysApart.bounds bound hb kind hother hne
    rcases hkey with hkey | hkey <;> rw [hkey]
    · exact ⟨h₁, h₂⟩
    · exact ⟨h₃, h₄⟩
  · rw [hkey]
    exact keysApart.keyIn draft (Draft.mem_all draft) kind (mem_all kind) bound hb hother

/-- A key under which one kind alone is written holds what is written for that kind. -/
theorem get?_putPieces_of_owner {key : String} {kind : KeywordKind}
    {pieces : List (KeywordKind × List (String × Json))} (hn : (Entries.keys pieces).Nodup)
    (hown : ∀ piece ∈ pieces, kind ≠ piece.1 → ∀ member ∈ piece.2, member.1 ≠ key)
    (object : List (String × Json)) :
    Entries.get? key (putPieces pieces object) =
      ((Entries.get? kind pieces).bind fun members => Entries.get? key members.reverse).or
        (Entries.get? key object) := by
  induction pieces generalizing object with
  | nil => simp [putPieces]
  | cons piece rest ih =>
    obtain ⟨other, members⟩ := piece
    obtain ⟨hnew, hrest⟩ := List.nodup_cons.mp hn
    have hput : putPieces ((other, members) :: rest) object =
        putPieces rest (putAll members object) := rfl
    rw [hput, ih hrest (fun p hp => hown p (List.mem_cons_of_mem _ hp)), get?_putAll]
    by_cases hkind : kind = other
    · subst hkind
      simp [Entries.get?, Entries.get?_eq_none.mpr hnew]
    · have hnone : Entries.get? key members.reverse = none := by
        rw [Entries.get?_eq_none]
        intro hin
        obtain ⟨member, hm, heq⟩ := List.mem_map.mp hin
        exact hown _ List.mem_cons_self hkind member (List.mem_reverse.mp hm) heq
      rw [hnone, Option.none_or]
      simp [Entries.get?, hkind]

section

variable {s : Schema} {kind : KeywordKind} {l : Limit} {withExtra : Bool}
  (hb : kind ∈ bounds) (hn : (Entries.keys s.keywords).Nodup)
  (hk : s.keyword? kind = some (.limit l))

include hb hn hk

/-- Under the keys of a bound stand the members that write it, and no others unless they are
added to the keywords. -/
theorem get?_render (draft : Draft) (hx : withExtra = true →
      Entries.get? (boundKey kind) s.extra = none ∧
      Entries.get? (exclusiveKey kind) s.extra = none) :
    ∃ members, s.render draft withExtra = .object members ∧
      ∀ key, key = boundKey kind ∨ key = exclusiveKey kind →
        Entries.get? key members = Entries.get? key (l.members (boundKey kind)
          (exclusiveKey kind) (kind = .minimum) draft).reverse := by
  obtain ⟨id, location, own, body⟩ := s
  cases body with
  | boolean => cases hk
  | reference => cases hk
  | object keywords extra =>
    let render : Schema → Schema × Json := fun s => (s, s.render draft withExtra)
    let pieces := keywords.map fun entry => (entry.1, membersIn draft
      (Entries.contains .enum (Entries.mapValues (Keyword.map render) keywords)) entry.1
        (entry.2.map render))
    have hrender : (Schema.node id location own (.object keywords extra)).render draft withExtra =
        .object (if withExtra then putMissing extra (putPieces pieces [])
          else putPieces pieces []) := by
      refine (descend_node _ _).trans ?_
      rw [Schema.body, Body.map, renderBody, putPieces, List.foldl_map, Entries.mapValues,
        List.foldl_map]
      rfl
    have hkeys : Entries.keys pieces = Entries.keys keywords := by simp [pieces, Entries.keys]
    have hpieces : ∀ piece ∈ pieces, kind ≠ piece.1 → ∀ member ∈ piece.2,
        member.1 ≠ boundKey kind ∧ member.1 ≠ exclusiveKey kind := by
      intro piece hpiece hne member hm
      obtain ⟨entry, _, rfl⟩ := List.mem_map.mp hpiece
      exact ne_of_mem_membersIn hb hne hm
    have hpiece : Entries.get? kind pieces = some (l.members (boundKey kind) (exclusiveKey kind)
        (kind = .minimum) draft) := by
      have hwritten : ∀ hasEnum, membersIn draft hasEnum kind ((Keyword.limit l).map render) =
          l.members (boundKey kind) (exclusiveKey kind) (kind = .minimum) draft := by
        intro hasEnum
        rw [membersIn_eq (bounded.kind draft (Draft.mem_all draft) kind hb).1]
        exact keywordMembers_bound hb l
      apply Entries.get?_of_mem (hkeys ▸ hn)
      rw [← hwritten (Entries.contains .enum (Entries.mapValues (Keyword.map render) keywords))]
      exact List.mem_map_of_mem (Entries.mem_of_get? hk)
    refine ⟨_, hrender, fun key hkey => ?_⟩
    have hput : Entries.get? key (putPieces pieces []) = Entries.get? key (l.members
        (boundKey kind) (exclusiveKey kind) (kind = .minimum) draft).reverse := by
      have hown : ∀ piece ∈ pieces, kind ≠ piece.1 → ∀ member ∈ piece.2, member.1 ≠ key := by
        intro piece hpiece hne member hm heq
        obtain ⟨entry, _, rfl⟩ := List.mem_map.mp hpiece
        obtain ⟨hbound, hexclusive⟩ := ne_of_mem_membersIn hb hne hm
        rcases hkey with rfl | rfl
        · exact hbound heq
        · exact hexclusive heq
      rw [get?_putPieces_of_owner (hkeys ▸ hn) hown, hpiece]
      simp
    split
    · rename_i hextra
      obtain ⟨hbound, hexclusive⟩ := hx hextra
      have hnone : Entries.get? key extra = none := by
        rcases hkey with rfl | rfl
        · exact hbound
        · exact hexclusive
      rw [get?_putMissing, hput, hnone, Option.or_none]
    · exact hput

end

/-- The numbers that the members of an object admit under a bound, in a draft that has a flag
for excluding it. -/
def AdmitsFlagged (draft : Draft) (kind : KeywordKind) (members : List (String × Json))
    (x : ℚ) : Prop :=
  ∀ n, numberAt (boundKey kind) members = some n →
    Limit.Clears (kind = .minimum) (isFlagged draft members kind) n.value x

/-- In a draft with one bound on each side, what is written for a limit admits the numbers that
satisfy every bound of the limit, unless the inclusive bound is tighter and both round to one
floating point number. -/
theorem admits_iff_untied {s : Schema} {kind : KeywordKind} {l : Limit} (draft : Draft)
    (withExtra : Bool) (hd : draft.hasFlaggedLimits = true) (hb : kind ∈ bounds)
    (hn : (Entries.keys s.keywords).Nodup) (hk : s.keyword? kind = some (.limit l))
    (hl : l.IsWord) (hx : withExtra = true → Entries.get? (boundKey kind) s.extra = none ∧
      Entries.get? (exclusiveKey kind) s.extra = none) :
    ∃ members, s.render draft withExtra = .object members ∧
      ((∀ x, AdmitsFlagged draft kind members x ↔ l.Admits (kind = .minimum) x) ↔
        ¬l.Ties (kind = .minimum)) := by
  obtain ⟨members, hrender, hmembers⟩ := get?_render hb hn hk draft hx
  refine ⟨members, hrender, ?_⟩
  obtain ⟨hbound, hexclusive⟩ := l.get?_members (bounded.keys kind hb) (kind = .minimum) hd
  have hkept : ∀ x, AdmitsFlagged draft kind members x ↔ ∀ n strict,
      l.flagged? (kind = .minimum) = some (n, strict) →
        Limit.Clears (kind = .minimum) strict n.value x := by
    intro x
    rw [AdmitsFlagged, numberAt, isFlagged, hd, hmembers _ (Or.inl rfl), hmembers _ (Or.inr rfl),
      hbound, hexclusive]
    rcases l.flagged? (kind = .minimum) with _ | ⟨n, _ | _⟩ <;> simp [Json.number?, Json.bool?]
  rw [← Limit.admits_flagged?_iff hl]
  simp only [hkept]

end Schema

/-! ## Close bounds -/

open Schema Digest

/-- A schema with two bounds from below. -/
def Request.between (inclusive exclusive : Int) : Request :=
  .named ⟨"http", some "e.com", .segments ["r.json"], none, none⟩
    (.object [("exclusiveMinimum", .number (.integer exclusive)),
      ("minimum", .number (.integer inclusive))])

/-- Whether a request gives a schema with two given bounds from below as its only keyword. -/
def Request.givesBounds (i e : Int) : Bool :=
  match ((Request.between i e).run .standard .empty).1 with
  | .ok (.node _ _ _ (.object [(.minimum, .limit l)] _)) =>
    l = ⟨some (.integer i), some (.integer e)⟩
  | _ => false

theorem Request.run_between {i e : Int} (h : Request.givesBounds i e = true) :
    ∃ s w', (Request.between i e).run .standard .empty = (.ok s, w') ∧
      s.keywords = [(.minimum, .limit ⟨some (.integer i), some (.integer e)⟩)] := by
  unfold givesBounds at h
  split at h
  · rename_i id location own l extra hs
    rw [of_decide_eq_true h] at hs
    exact ⟨_, _, Prod.ext hs rfl, rfl⟩
  · cases h

/-- Two integers side by side are told apart if they have 53 bits. -/
theorem Schema.admits_of_apart : ∃ s w' members,
    (Request.between 9007199254740991 9007199254740990).run .standard .empty = (.ok s, w') ∧
    s.render .draft4 false = .object members ∧ ∀ x, AdmitsFlagged .draft4 .minimum members x ↔
      (⟨some (.integer 9007199254740991), some (.integer 9007199254740990)⟩ : Limit).Admits
        true x := by
  obtain ⟨s, w', hrun, hkeywords⟩ := Request.run_between
    (i := 9007199254740991) (e := 9007199254740990) (by decide +kernel)
  have hsmall : ∀ n, (⟨some (.integer 9007199254740991), some (.integer 9007199254740990)⟩ :
      Limit).inclusive = some n ∨ (⟨some (.integer 9007199254740991),
        some (.integer 9007199254740990)⟩ : Limit).exclusive = some n →
      ∃ i : Int, n = .integer i ∧ 0 ≤ i ∧ i < 2 ^ 53 := by
    rintro n (hn | hn) <;> cases hn <;> exact ⟨_, rfl, by decide, by decide⟩
  have hkeyword : s.keyword? .minimum = some (.limit ⟨some (.integer 9007199254740991),
      some (.integer 9007199254740990)⟩) := by
    rw [Schema.keyword?, hkeywords]
    rfl
  have hword : (⟨some (.integer 9007199254740991), some (.integer 9007199254740990)⟩ :
      Limit).IsWord := by
    intro n hn
    obtain ⟨i, rfl, h0, h53⟩ := hsmall n hn
    exact ⟨i, rfl, by omega, by omega⟩
  obtain ⟨members, hrender, hiff⟩ := Schema.admits_iff_untied .draft4 false rfl (by decide)
    (by rw [hkeywords]; decide) hkeyword hword (fun h => nomatch h)
  refine ⟨s, w', members, hrun, hrender, hiff.mpr (Limit.not_ties_of_small fun n hn => ?_)⟩
  obtain ⟨i, rfl, h0, h53⟩ := hsmall n hn
  exact ⟨i, rfl, by omega⟩

/-- Of two bounds that round to one number the looser one is written. -/
theorem Schema.looser_of_tied : ∃ s w' members,
    (Request.between 18014398509481986 18014398509481984).run .standard .empty = (.ok s, w') ∧
    s.keyword? .minimum = some (.limit ⟨some (.integer 18014398509481986),
      some (.integer 18014398509481984)⟩) ∧
    s.render .draft4 false = .object members ∧
    AdmitsFlagged .draft4 .minimum members 18014398509481985 ∧
    ¬(⟨some (.integer 18014398509481986), some (.integer 18014398509481984)⟩ : Limit).Admits
      true 18014398509481985 := by
  obtain ⟨s, w', hrun, hkeywords⟩ := Request.run_between
    (i := 18014398509481986) (e := 18014398509481984) (by decide +kernel)
  obtain ⟨id, location, own, body⟩ := s
  cases body with
  | boolean => cases hkeywords
  | reference => cases hkeywords
  | object keywords extra =>
    cases hkeywords
    have hrender : (Schema.node id location own (.object [(.minimum, .limit
        ⟨some (.integer 18014398509481986), some (.integer 18014398509481984)⟩)] extra)).render
        .draft4 false = .object [("exclusiveMinimum", .bool true),
          ("minimum", .number (.integer 18014398509481984))] := by
      have hpieces : ∀ l : Limit, pieces .draft4 (.node id location own
          (.object [(.minimum, .limit l)] extra)) =
          [(.minimum, l.members "minimum" "exclusiveMinimum" true .draft4)] := fun _ => rfl
      have hmembers : (⟨some (.integer 18014398509481986), some (.integer 18014398509481984)⟩ :
          Limit).members "minimum" "exclusiveMinimum" true .draft4 =
          [("minimum", .number (.integer 18014398509481984)),
            ("exclusiveMinimum", .bool true)] := by
        rw [Limit.members, if_pos (by decide), if_pos (by decide +kernel)]
      rw [render_of_object, hpieces, hmembers]
      rfl
    refine ⟨_, w', _, hrun, rfl, hrender, ?_, ?_⟩
    · intro n hn
      cases hn
      have hflag : isFlagged .draft4 [("exclusiveMinimum", .bool true),
          ("minimum", .number (.integer 18014398509481984))] .minimum = true := by decide +kernel
      rw [hflag]
      norm_num [Limit.Clears]
    · rintro ⟨hinclusive, _⟩
      have hclears := hinclusive _ rfl
      norm_num [Limit.Clears] at hclears

end SchemaAtlas
