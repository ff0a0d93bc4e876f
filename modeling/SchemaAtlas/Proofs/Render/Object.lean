import SchemaAtlas.Proofs.Render.Written
import SchemaAtlas.Proofs.Schema.Ordered

/-!
# An object, read and written again

`Digest.TakesAll` says what the members of an object make of a builder when they are read in one
draft and nothing is reported: a member that is no keyword is kept, a bound is put beside the
other one, and every other keyword is one that writes what the member says. The main statement is
that the builder then holds a node that is written as the normal form of the object. A key is
written by its own kind only, so this is checked key by key.
-/

namespace SchemaAtlas

namespace Catalog

/-- The kinds of bounds. -/
def bounds : List KeywordKind := [.minimum, .maximum]

/-- What the catalog says about bounds, and about the kinds that are written by rules of their
own. -/
structure Bounded : Prop where
  mem : ∀ entry ∈ entries,
    entry.kind ∈ bounds ↔ entry.reading = .limitValue ∨ entry.reading = .limitFlag
  key : ∀ entry ∈ entries, entry.kind ∈ bounds →
    entry.key = Digest.boundKey entry.kind ∨ entry.key = Digest.exclusiveKey entry.kind
  /-- An exclusive bound is a number just in the drafts that have no flags. -/
  exclusive : ∀ entry ∈ entries, entry.kind ∈ bounds →
    entry.key = Digest.exclusiveKey entry.kind → ∀ draft ∈ Draft.all, entry.appliesTo draft →
    (entry.reading = .limitFlag ↔ draft.hasFlaggedLimits)
  flag : ∀ entry ∈ entries, entry.reading = .limitFlag →
    entry.key = Digest.exclusiveKey entry.kind
  const : ∀ entry ∈ entries, ∀ draft ∈ Draft.all, entry.appliesTo draft →
    ¬(entry.kind = .const ∧ draft < .draft6)
  schema : ∀ draft ∈ Draft.all, kindIn? draft "$schema" = some .schema
  kind : ∀ draft ∈ Draft.all, ∀ kind ∈ bounds,
    kindIn? draft (Digest.boundKey kind) = some kind ∧
      kindIn? draft (Digest.exclusiveKey kind) = some kind
  keys : ∀ kind ∈ bounds, Digest.boundKey kind ≠ Digest.exclusiveKey kind

theorem bounded : Bounded where
  mem := by decide +kernel
  key := by decide +kernel
  exclusive := by decide +kernel
  flag := by decide +kernel
  const := by decide +kernel
  schema := by decide +kernel
  kind := by decide +kernel
  keys := by decide +kernel

theorem kindIn?_some {draft : Draft} {key : String} {kind : KeywordKind}
    (h : kindIn? draft key = some kind) :
    ∃ entry ∈ entries, entry.key = key ∧ entry.kind = kind ∧ entry.appliesTo draft := by
  obtain ⟨entry, hf, hkind⟩ := Option.map_eq_some_iff.mp h
  have hfound := List.find?_some
    (p := fun entry : CatalogEntry => entry.key = key && entry.appliesTo draft) hf
  obtain ⟨hkey, hd⟩ := Bool.and_eq_true_iff.mp hfound
  exact ⟨entry, List.mem_of_find?_eq_some hf, of_decide_eq_true hkey, hkind, hd⟩

/-- The bounds apart, a kind has one key in a draft. -/
theorem keyIn_of_kindIn? {draft : Draft} {key : String} {kind : KeywordKind}
    (h : kindIn? draft key = some kind) (hb : kind ∉ bounds) : Schema.keyIn draft kind = key := by
  obtain ⟨entry, he, rfl, rfl, hd⟩ := kindIn?_some h
  rw [bounded.mem entry he, not_or] at hb
  exact regular.key_of_kind entry he draft (Draft.mem_all draft) hd hb.1 hb.2

theorem kindIn?_of_entryFor? {draft : Draft} {key : String} {value : Json} {entry : CatalogEntry}
    (h : entryFor? draft key value = some entry) : kindIn? draft key = some entry.kind := by
  obtain ⟨he, rfl, hd, _⟩ := entryFor?_some h
  exact kindIn?_of_mem he hd

end Catalog

namespace Digest

open Catalog

/-- The bound of a kind that a builder holds. -/
def boundOf (kind : KeywordKind) (builder : Builder) : Limit :=
  ((builder.keyword? kind).bind Keyword.limit?).getD .empty

/-- Whether a flag makes the bound of a kind exclusive. -/
def isFlagged (draft : Draft) (object : List (String × Json)) (kind : KeywordKind) : Bool :=
  draft.hasFlaggedLimits && (Entries.get? (exclusiveKey kind) object).bind Json.bool? = some true

section

variable (draft : Draft) (object : List (String × Json))

/-- What the reading of a member makes of a builder when nothing is reported. -/
inductive Takes (key : String) : Json → Builder → Builder → Prop
  | kept {value : Json} {builder : Builder} : kindIn? draft key = none →
      Takes key value builder (builder.putExtra key value)
  | keyword {value : Json} {builder : Builder} {entry : CatalogEntry} {k : Keyword Schema} :
      entryFor? draft key value = some entry → entry.kind ∉ bounds →
      k.Writes draft entry.kind key
        (Json.normalizeValue draft key (some entry.reading) value) →
      Takes key value builder (builder.put entry.kind k)
  | bound {n : Number} {builder : Builder} {entry : CatalogEntry} {location : Location} :
      entryFor? draft key (.number n) = some entry → entry.reading = .limitValue →
      Takes key (.number n) builder (builder.put entry.kind
        (.limit (limitWith (.only draft) ⟨entry, .number n, object, location⟩
          (boundOf entry.kind builder) n)))
  | flag {b : Bool} {builder : Builder} {entry : CatalogEntry} :
      entryFor? draft key (.bool b) = some entry → entry.reading = .limitFlag →
      ((Entries.get? (boundKey entry.kind) object).bind Json.number?).isSome →
      Takes key (.bool b) builder builder

/-- The same for members one after the other. -/
inductive TakesAll : List (String × Json) → Builder → Builder → Prop
  | nil (builder : Builder) : TakesAll [] builder builder
  | cons {key : String} {value : Json} {rest : List (String × Json)} {b b₁ b₂ : Builder} :
      Takes draft object key value b b₁ → TakesAll rest b₁ b₂ →
      TakesAll ((key, value) :: rest) b b₂

end

variable {draft : Draft} {object : List (String × Json)} {key : String} {value : Json}
  {b b' : Builder}

/-! ## The builder after a member -/

theorem keyword?_put (kind other : KeywordKind) (k : Keyword Schema) (b : Builder) :
    (b.put kind k).keyword? other = if other = kind then some k else b.keyword? other :=
  Entries.get?_insert kind other k b.keywords

theorem Takes.extra (h : Takes draft object key value b b') (other : String) :
    Entries.get? other b'.extra = (if other = key ∧ kindIn? draft key = none then some value
      else Entries.get? other b.extra) := by
  cases h with
  | kept hnone => simp [Builder.putExtra, Entries.get?_insert, hnone]
  | keyword he => simp [Builder.put, kindIn?_of_entryFor? he]
  | bound he => simp [Builder.put, kindIn?_of_entryFor? he]
  | flag he => simp [kindIn?_of_entryFor? he]

theorem Takes.sorted (h : Takes draft object key value b b') (hs : Entries.Sorted b.keywords) :
    Entries.Sorted b'.keywords := by
  have hput : ∀ (kind : KeywordKind) (k : Keyword Schema),
      Entries.Sorted (b.put kind k).keywords :=
    fun kind k => hs.insert kind k
  cases h with
  | kept => exact hs
  | keyword => exact hput _ _
  | bound => exact hput _ _
  | flag => exact hs

/-- A key that stands for a kind changes the keyword of that kind only. -/
theorem Takes.keyword?_of_ne (h : Takes draft object key value b b') {kind : KeywordKind}
    (hk : kindIn? draft key ≠ some kind) : b'.keyword? kind = b.keyword? kind := by
  cases h with
  | kept => rfl
  | keyword he =>
    rw [keyword?_put, if_neg]
    rintro rfl
    exact hk (kindIn?_of_entryFor? he)
  | bound he =>
    rw [keyword?_put, if_neg]
    rintro rfl
    exact hk (kindIn?_of_entryFor? he)
  | flag => rfl

/-- Under the key of a kind stands its keyword, which writes what the member says. -/
theorem Takes.writes (h : Takes draft object key value b b') {kind : KeywordKind}
    (hk : kindIn? draft key = some kind) (hb : kind ∉ bounds) :
    ∃ k, b'.keyword? kind = some k ∧ k.Writes draft kind key
      (Json.normalizeValue draft key (reading? draft key value) value) := by
  cases h with
  | kept hnone =>
    rw [hnone] at hk
    cases hk
  | keyword he _ hw =>
    have hkind := (kindIn?_of_entryFor? he).symm.trans hk
    cases hkind
    refine ⟨_, (keyword?_put _ _ _ _).trans (if_pos rfl), ?_⟩
    rw [reading?, he]
    exact hw
  | bound he hr =>
    have hkind := (kindIn?_of_entryFor? he).symm.trans hk
    cases hkind
    exact absurd ((bounded.mem _ (entryFor?_some he).1).mpr (Or.inl hr)) hb
  | flag he hr =>
    have hkind := (kindIn?_of_entryFor? he).symm.trans hk
    cases hkind
    exact absurd ((bounded.mem _ (entryFor?_some he).1).mpr (Or.inr hr)) hb

/-! ## Bounds -/

theorem ne_of_kindIn? {kind : KeywordKind} (hb : kind ∈ bounds)
    (hk : kindIn? draft key ≠ some kind) : key ≠ boundKey kind ∧ key ≠ exclusiveKey kind := by
  obtain ⟨hbound, hexclusive⟩ := bounded.kind draft (Draft.mem_all draft) kind hb
  exact ⟨fun h => hk (h ▸ hbound), fun h => hk (h ▸ hexclusive)⟩

theorem boundOf_put (kind : KeywordKind) (limit : Limit) (b : Builder) :
    boundOf kind (b.put kind (.limit limit)) = limit := by
  rw [boundOf, keyword?_put, if_pos rfl]
  rfl

theorem limitWith_eq (site : Site) (limit : Limit) (n : Number) :
    limitWith (.only draft) site limit n =
      if site.entry.key = exclusiveKey site.entry.kind ||
          isFlagged draft site.object site.entry.kind then
        { limit with exclusive := some n }
      else { limit with inclusive := some n } := by
  have hflags : (DraftSet.only draft).intersects (.range .draft3 .draft5) =
      draft.hasFlaggedLimits := by cases draft <;> rfl
  rw [limitWith, hflags]
  rfl

/-- The key whose number is the exclusive bound. -/
def exclusiveSource (draft : Draft) (object : List (String × Json)) (kind : KeywordKind) :
    String :=
  if isFlagged draft object kind then boundKey kind else exclusiveKey kind

/-- A number under a key of a bound is put in its place. -/
theorem Takes.boundOf_eq (h : Takes draft object key value b b') {kind : KeywordKind}
    (hb : kind ∈ bounds) :
    boundOf kind b' =
      { inclusive := (if key = boundKey kind ∧ isFlagged draft object kind = false then
          value.number? else none).or (boundOf kind b).inclusive
        exclusive := (if key = exclusiveSource draft object kind then
          value.number? else none).or (boundOf kind b).exclusive } := by
  by_cases hk : kindIn? draft key = some kind
  · cases h with
    | kept hnone =>
      rw [hnone] at hk
      cases hk
    | keyword he hkind =>
      cases (kindIn?_of_entryFor? he).symm.trans hk
      exact absurd hb hkind
    | @bound n _ entry _ he hr =>
      obtain ⟨hm, hkey, hd, _⟩ := entryFor?_some he
      cases (kindIn?_of_entryFor? he).symm.trans hk
      have hne := bounded.keys _ hb
      rw [boundOf_put, limitWith_eq, ← hkey]
      rcases bounded.key _ hm hb with hbound | hexclusive
      · rw [hbound, exclusiveSource]
        cases hf : isFlagged draft object entry.kind <;> simp [hne, Json.number?]
      · have hflag := bounded.exclusive _ hm hb hexclusive draft (Draft.mem_all draft) hd
        have hfalse : isFlagged draft object entry.kind = false := by
          have hlimits : draft.hasFlaggedLimits = false := by simpa [hr] using hflag
          rw [isFlagged, hlimits, Bool.false_and]
        simp [hexclusive, exclusiveSource, hne.symm, hfalse, Json.number?]
    | flag => simp [Json.number?]
  · obtain ⟨hbound, hexclusive⟩ := ne_of_kindIn? hb hk
    have hsource : key ≠ exclusiveSource draft object kind := by
      rw [exclusiveSource]
      split
      · exact hbound
      · exact hexclusive
    simp [boundOf, h.keyword?_of_ne hk, hbound, hsource]

/-! ## The builder after all members -/

theorem TakesAll.sorted {members : List (String × Json)} (h : TakesAll draft object members b b')
    (hs : Entries.Sorted b.keywords) : Entries.Sorted b'.keywords := by
  induction h with
  | nil => exact hs
  | cons ht _ ih => exact ih (ht.sorted hs)

theorem TakesAll.extra {members : List (String × Json)} (h : TakesAll draft object members b b')
    (hn : (Entries.keys members).Nodup) (key : String) :
    Entries.get? key b'.extra = (if kindIn? draft key = none then Entries.get? key members
      else none).or (Entries.get? key b.extra) := by
  induction h with
  | nil => simp
  | @cons other value rest _ _ _ ht _ ih =>
    obtain ⟨hnew, hrest⟩ := List.nodup_cons.mp hn
    rw [ih hrest, ht.extra]
    by_cases hkey : key = other
    · subst hkey
      by_cases hk : kindIn? draft key = none <;>
        simp [Entries.get?, Entries.get?_eq_none.mpr hnew, hk]
    · simp [Entries.get?, hkey]

/-- The keyword of a kind that is no bound is that of its member. -/
theorem TakesAll.keyword? {members : List (String × Json)}
    (h : TakesAll draft object members b b') (hn : (Entries.keys members).Nodup)
    {kind : KeywordKind} (hk : kindIn? draft key = some kind) (hb : kind ∉ bounds) :
    match Entries.get? key members with
    | some value => ∃ k, b'.keyword? kind = some k ∧ k.Writes draft kind key
        (Json.normalizeValue draft key (reading? draft key value) value)
    | none => b'.keyword? kind = b.keyword? kind := by
  induction h with
  | nil => rfl
  | @cons other value rest _ _ _ ht _ ih =>
    obtain ⟨hnew, hrest⟩ := List.nodup_cons.mp hn
    have ih := ih hrest
    by_cases hkey : key = other
    · subst hkey
      rw [Entries.get?_eq_none.mpr hnew] at ih
      simp only [Entries.get?, if_true, ih]
      exact ht.writes hk hb
    · have hother : kindIn? draft other ≠ some kind := fun h =>
        hkey ((keyIn_of_kindIn? hk hb).symm.trans (keyIn_of_kindIn? h hb))
      rw [ht.keyword?_of_ne hother] at ih
      simpa [Entries.get?, hkey] using ih

/-- The number under a key. -/
def numberAt (key : String) (members : List (String × Json)) : Option Number :=
  (Entries.get? key members).bind Json.number?

theorem TakesAll.boundOf_eq {members : List (String × Json)}
    (h : TakesAll draft object members b b') (hn : (Entries.keys members).Nodup)
    {kind : KeywordKind} (hb : kind ∈ bounds) :
    boundOf kind b' =
      { inclusive := (if isFlagged draft object kind = false then
          numberAt (boundKey kind) members else none).or (boundOf kind b).inclusive
        exclusive := (numberAt (exclusiveSource draft object kind) members).or
          (boundOf kind b).exclusive } := by
  induction h with
  | nil => simp [numberAt]
  | @cons other value rest _ _ _ ht _ ih =>
    obtain ⟨hnew, hrest⟩ := List.nodup_cons.mp hn
    -- a key has its number in front, or in the rest
    have hcons : ∀ (key : String) (last : Option Number),
        (numberAt key rest).or ((if other = key then value.number? else none).or last) =
          (numberAt key ((other, value) :: rest)).or last := by
      intro key last
      by_cases hkey : other = key
      · subst hkey
        simp [numberAt, Entries.get?, Entries.get?_eq_none.mpr hnew]
      · simp [numberAt, Entries.get?, hkey, Ne.symm hkey]
    rw [ih hrest, ht.boundOf_eq hb, hcons]
    cases isFlagged draft object kind with
    | true => simp
    | false => simpa using hcons (boundKey kind) _

/-- Every keyword is a bound, or writes a value under a key of its own kind. -/
structure Owned (draft : Draft) (b : Builder) : Prop where
  bound : ∀ {kind k}, kind ∈ bounds → b.keyword? kind = some k → k = .limit (boundOf kind b)
  writes : ∀ {kind k}, kind ∉ bounds → b.keyword? kind = some k →
    ∃ key normal, kindIn? draft key = some kind ∧ k.Writes draft kind key normal

theorem Takes.owned (h : Takes draft object key value b b') (ho : Owned draft b) :
    Owned draft b' where
  bound := by
    intro kind k hb hk
    by_cases hkind : kindIn? draft key = some kind
    · cases h with
      | kept => exact ho.bound hb hk
      | keyword he hplain =>
        cases (kindIn?_of_entryFor? he).symm.trans hkind
        exact absurd hb hplain
      | bound he =>
        cases (kindIn?_of_entryFor? he).symm.trans hkind
        rw [keyword?_put, if_pos rfl] at hk
        rw [boundOf_put, Option.some.inj hk]
      | flag => exact ho.bound hb hk
    · rw [h.keyword?_of_ne hkind] at hk
      rw [ho.bound hb hk, boundOf, boundOf, h.keyword?_of_ne hkind]
  writes := by
    intro kind k hb hk
    by_cases hkind : kindIn? draft key = some kind
    · obtain ⟨k', hk', hw⟩ := h.writes hkind hb
      cases hk.symm.trans hk'
      exact ⟨key, _, hkind, hw⟩
    · rw [h.keyword?_of_ne hkind] at hk
      exact ho.writes hb hk

theorem TakesAll.owned {members : List (String × Json)} (h : TakesAll draft object members b b')
    (ho : Owned draft b) : Owned draft b' := by
  induction h with
  | nil => exact ho
  | cons ht _ ih => exact ih (ht.owned ho)

theorem TakesAll.takes {members : List (String × Json)} (h : TakesAll draft object members b b')
    (hm : (key, value) ∈ members) : ∃ b₁ b₂, Takes draft object key value b₁ b₂ := by
  induction h with
  | nil => cases hm
  | cons ht _ ih =>
    rcases List.mem_cons.mp hm with heq | hm
    · cases heq
      exact ⟨_, _, ht⟩
    · exact ih hm

/-- Under a key of a bound stands a number, or a flag for the number of the bound. -/
theorem Takes.of_bound (h : Takes draft object key value b b') {kind : KeywordKind}
    (hk : kindIn? draft key = some kind) (hb : kind ∈ bounds) :
    (∃ n, value = .number n ∧ reading? draft key value = some .limitValue) ∨
      ∃ x, value = .bool x ∧ reading? draft key value = some .limitFlag ∧
        (numberAt (boundKey kind) object).isSome := by
  cases h with
  | kept hnone =>
    rw [hnone] at hk
    cases hk
  | keyword he hplain =>
    cases (kindIn?_of_entryFor? he).symm.trans hk
    exact absurd hb hplain
  | bound he hr => exact Or.inl ⟨_, rfl, by rw [reading?, he, Option.map_some, hr]⟩
  | flag he hr hn =>
    cases (kindIn?_of_entryFor? he).symm.trans hk
    exact Or.inr ⟨_, rfl, by rw [reading?, he, Option.map_some, hr], hn⟩

theorem Takes.of_boundKey {kind : KeywordKind} (hb : kind ∈ bounds)
    (h : Takes draft object (boundKey kind) value b b') :
    ∃ n, value = .number n ∧ reading? draft (boundKey kind) value = some .limitValue := by
  have hk := (bounded.kind draft (Draft.mem_all draft) kind hb).1
  rcases h.of_bound hk hb with hnumber | ⟨x, _, hr, _⟩
  · exact hnumber
  · obtain ⟨entry, he, hflag⟩ := Option.map_eq_some_iff.mp hr
    obtain ⟨hm, hkey, _⟩ := entryFor?_some he
    cases (kindIn?_of_entryFor? he).symm.trans hk
    exact absurd (hkey.symm.trans (bounded.flag entry hm hflag)) (bounded.keys _ hb)

theorem Takes.of_exclusiveKey {kind : KeywordKind} (hb : kind ∈ bounds)
    (h : Takes draft object (exclusiveKey kind) value b b') :
    if draft.hasFlaggedLimits then
      ∃ x, value = .bool x ∧ reading? draft (exclusiveKey kind) value = some .limitFlag ∧
        (numberAt (boundKey kind) object).isSome
    else ∃ n, value = .number n ∧
      reading? draft (exclusiveKey kind) value = some .limitValue := by
  have hk := (bounded.kind draft (Draft.mem_all draft) kind hb).2
  have hflag : ∀ {reading}, reading? draft (exclusiveKey kind) value = some reading →
      (reading = .limitFlag ↔ draft.hasFlaggedLimits) := by
    intro reading hr
    obtain ⟨entry, he, rfl⟩ := Option.map_eq_some_iff.mp hr
    obtain ⟨hm, hkey, hd, _⟩ := entryFor?_some he
    cases (kindIn?_of_entryFor? he).symm.trans hk
    exact bounded.exclusive entry hm hb hkey draft (Draft.mem_all draft) hd
  rcases h.of_bound hk hb with ⟨n, hv, hr⟩ | ⟨x, hv, hr, hn⟩
  · rw [if_neg fun hd => by simpa using (hflag hr).mpr hd]
    exact ⟨n, hv, hr⟩
  · rw [if_pos ((hflag hr).mp rfl)]
    exact ⟨x, hv, hr, hn⟩

end Digest

/-! ## Writing an object -/

/-- A bound is written as a number, and its exclusive form as a flag or as a number. -/
theorem Limit.form_of_mem_members {bound exclusiveKey : String} {lower : Bool} {draft : Draft}
    {l : Limit} {member : String × Json} (h : member ∈ l.members bound exclusiveKey lower draft) :
    (∃ n, member = (bound, .number n)) ∨
      if draft.hasFlaggedLimits then member = (exclusiveKey, .bool true)
      else ∃ n, member = (exclusiveKey, .number n) := by
  unfold members at h
  by_cases hd : draft.hasFlaggedLimits = true
  · rw [if_pos hd] at h ⊢
    split at h
    · split at h
      · rcases List.mem_cons.mp h with rfl | h
        · exact Or.inl ⟨_, rfl⟩
        · exact Or.inr (List.mem_singleton.mp h)
      · cases h
    · split at h
      · exact Or.inl ⟨_, List.mem_singleton.mp h⟩
      · cases h
  · rw [if_neg hd] at h ⊢
    rcases List.mem_append.mp h with h | h
    · obtain ⟨n, _, rfl⟩ := List.mem_map.mp h
      exact Or.inl ⟨n, rfl⟩
    · obtain ⟨n, _, rfl⟩ := List.mem_map.mp h
      exact Or.inr ⟨n, rfl⟩

theorem Limit.key_of_mem_members {bound exclusiveKey : String} {lower : Bool} {draft : Draft}
    {l : Limit} {member : String × Json} (h : member ∈ l.members bound exclusiveKey lower draft) :
    member.1 = bound ∨ member.1 = exclusiveKey := by
  rcases form_of_mem_members h with ⟨n, rfl⟩ | hexclusive
  · exact Or.inl rfl
  · split at hexclusive
    · exact Or.inr (congrArg Prod.fst hexclusive)
    · obtain ⟨n, rfl⟩ := hexclusive
      exact Or.inr rfl

theorem Limit.members_empty (bound exclusiveKey : String) (lower : Bool) (draft : Draft) :
    Limit.empty.members bound exclusiveKey lower draft = [] := by
  unfold members
  split <;> rfl

namespace Schema

open Catalog Digest

theorem get?_putAll (key : String) (members object : List (String × Json)) :
    Entries.get? key (putAll members object) =
      (Entries.get? key members.reverse).or (Entries.get? key object) := by
  induction members generalizing object with
  | nil => simp [putAll]
  | cons member rest ih =>
    have hput : putAll (member :: rest) object =
        putAll rest (Entries.insert member.1 member.2 object) := rfl
    rw [hput, ih, Entries.get?_insert, List.reverse_cons, Entries.get?_append, Option.or_assoc]
    by_cases hkey : key = member.1 <;> simp [Entries.get?, hkey]

theorem get?_putMissing (key : String) (members object : List (String × Json)) :
    Entries.get? key (putMissing members object) =
      (Entries.get? key object).or (Entries.get? key members) := by
  induction members generalizing object with
  | nil => simp [putMissing]
  | cons member rest ih =>
    have hput : putMissing (member :: rest) object = putMissing rest
        (if Entries.contains member.1 object then object
          else Entries.insert member.1 member.2 object) := rfl
    rw [hput, ih]
    by_cases hkey : key = member.1
    · subst hkey
      cases hget : Entries.get? member.1 object <;>
        simp [Entries.contains, Entries.get?, Entries.get?_insert, hget]
    · by_cases hc : Entries.contains member.1 object <;>
        simp [Entries.get?, Entries.get?_insert, hkey, hc]

theorem sorted_putAll {members object : List (String × Json)} (h : Entries.Sorted object) :
    Entries.Sorted (putAll members object) := by
  induction members generalizing object with
  | nil => exact h
  | cons member rest ih => exact ih (h.insert member.1 member.2)

theorem sorted_putMissing {members object : List (String × Json)} (h : Entries.Sorted object) :
    Entries.Sorted (putMissing members object) := by
  induction members generalizing object with
  | nil => exact h
  | cons member rest ih =>
    refine ih ?_
    dsimp only
    split
    · exact h
    · exact h.insert member.1 member.2

section

variable {draft : Draft} {pieces : List (KeywordKind × List (String × Json))}

/-- The members of several kinds, put in one after the other. -/
def putPieces (pieces : List (KeywordKind × List (String × Json)))
    (object : List (String × Json)) : List (String × Json) :=
  pieces.foldl (fun object piece => putAll piece.2 object) object

theorem sorted_putPieces {object : List (String × Json)} (h : Entries.Sorted object) :
    Entries.Sorted (putPieces pieces object) := by
  induction pieces generalizing object with
  | nil => exact h
  | cons piece rest ih => exact ih (sorted_putAll h)

/-- A key is written by the kind that it stands for, and by no other. -/
theorem get?_putPieces (hn : (Entries.keys pieces).Nodup)
    (hown : ∀ piece ∈ pieces, ∀ member ∈ piece.2, kindIn? draft member.1 = some piece.1)
    (key : String) (object : List (String × Json)) :
    Entries.get? key (putPieces pieces object) =
      (((kindIn? draft key).bind fun kind => Entries.get? kind pieces).bind fun members =>
        Entries.get? key members.reverse).or (Entries.get? key object) := by
  induction pieces generalizing object with
  | nil => cases kindIn? draft key <;> simp [putPieces]
  | cons piece rest ih =>
    obtain ⟨kind, members⟩ := piece
    obtain ⟨hnew, hrest⟩ := List.nodup_cons.mp hn
    have hput : putPieces ((kind, members) :: rest) object =
        putPieces rest (putAll members object) := rfl
    rw [hput, ih hrest (fun p hp => hown p (List.mem_cons_of_mem _ hp)), get?_putAll]
    by_cases hkey : kindIn? draft key = some kind
    · simp [hkey, Entries.get?, Entries.get?_eq_none.mpr hnew]
    · have hnone : Entries.get? key members.reverse = none := by
        rw [Entries.get?_eq_none]
        intro hin
        obtain ⟨member, hm, rfl⟩ := List.mem_map.mp hin
        exact hkey (hown _ List.mem_cons_self member (List.mem_reverse.mp hm))
      rw [hnone, Option.none_or]
      cases hk : kindIn? draft key with
      | none => rfl
      | some other =>
        have hne : other ≠ kind := fun h => hkey (hk.trans (congrArg some h))
        simp [Entries.get?, hne]

theorem membersIn_eq {key : String} {kind : KeywordKind} (hk : kindIn? draft key = some kind)
    (hasEnum : Bool) (keyword : Keyword (Schema × Json)) :
    membersIn draft hasEnum kind keyword = keywordMembers draft kind keyword := by
  obtain ⟨entry, he, _, rfl, hd⟩ := kindIn?_some hk
  unfold membersIn
  rw [if_neg (bounded.const entry he draft (Draft.mem_all draft) hd),
    if_pos (regular.draftsOf entry he draft (Draft.mem_all draft) hd)]

theorem keywordMembers_bound {kind : KeywordKind} (hb : kind ∈ bounds) (l : Limit) :
    keywordMembers draft kind ((Keyword.limit l).map (rendered draft)) =
      l.members (boundKey kind) (exclusiveKey kind) (kind = .minimum) draft := by
  rcases List.mem_cons.mp hb with rfl | hb
  · rfl
  · rw [List.mem_singleton.mp hb]
    rfl

/-- What is written for a kind stands under its keys. -/
theorem kindIn?_of_mem_keywordMembers {b : Builder} (ho : Owned draft b) {kind : KeywordKind}
    {k : Keyword Schema} (hk : b.keyword? kind = some k) {member : String × Json}
    (hm : member ∈ keywordMembers draft kind (k.map (rendered draft))) :
    kindIn? draft member.1 = some kind := by
  by_cases hb : kind ∈ bounds
  · obtain ⟨hbound, hexclusive⟩ := bounded.kind draft (Draft.mem_all draft) kind hb
    rw [ho.bound hb hk, keywordMembers_bound hb] at hm
    rcases Limit.key_of_mem_members hm with hkey | hkey <;> rw [hkey] <;> assumption
  · obtain ⟨key, normal, hkey, hw⟩ := ho.writes hb hk
    rw [hw] at hm
    obtain ⟨json, _, rfl⟩ := List.mem_map.mp hm
    exact hkey

section

variable {members : List (String × Json)} {b b' : Builder} {kind : KeywordKind}
  (h : TakesAll draft members members b b') (hn : (Entries.keys members).Nodup)
  (hb : kind ∈ bounds) (hempty : boundOf kind b = .empty)

include h hn hb hempty

/-- Where exclusive bounds are numbers, both bounds are written as they were read. -/
theorem get?_bound_of_numbers (hd : draft.hasFlaggedLimits = false) {key : String}
    (hkey : key = boundKey kind ∨ key = exclusiveKey kind) (lower : Bool) :
    Entries.get? key ((boundOf kind b').members (boundKey kind) (exclusiveKey kind) lower
        draft).reverse = (Entries.get? key members).bind fun value =>
      Json.normalizeValue draft key (reading? draft key value) value := by
  have hne := bounded.keys kind hb
  have hunflagged : isFlagged draft members kind = false := by rw [isFlagged, hd, Bool.false_and]
  have hlimit : boundOf kind b' = ⟨numberAt (boundKey kind) members,
      numberAt (exclusiveKey kind) members⟩ := by
    rw [h.boundOf_eq hn hb, hempty]
    simp [hunflagged, exclusiveSource, Limit.empty]
  have hnumber : ∀ key, key = boundKey kind ∨ key = exclusiveKey kind → ∀ value,
      Entries.get? key members = some value → ∃ n, value = .number n ∧
        Json.normalizeValue draft key (reading? draft key value) value = some (.number n) := by
    intro key hkey value hvalue
    obtain ⟨_, _, ht⟩ := h.takes (Entries.mem_of_get? hvalue)
    have hread : ∃ n, value = .number n ∧ reading? draft key value = some .limitValue := by
      rcases hkey with rfl | rfl
      · exact ht.of_boundKey hb
      · have hexclusive := ht.of_exclusiveKey hb
        rwa [if_neg (by simp [hd])] at hexclusive
    obtain ⟨n, rfl, hr⟩ := hread
    exact ⟨n, rfl, by simp [Json.normalizeValue, hr]⟩
  have hvalue : ((Entries.get? key members).bind fun value =>
      Json.normalizeValue draft key (reading? draft key value) value) =
      (numberAt key members).map Json.number := by
    cases hget : Entries.get? key members with
    | none => simp [numberAt, hget]
    | some value =>
      obtain ⟨n, rfl, hnormal⟩ := hnumber key hkey value hget
      simp [numberAt, hget, hnormal, Json.number?]
  rw [hvalue, hlimit, Limit.members, if_neg (by simp [hd])]
  rcases hkey with rfl | rfl <;> cases numberAt (boundKey kind) members <;>
    cases numberAt (exclusiveKey kind) members <;> simp [Entries.get?, hne, hne.symm]

/-- Where a flag makes a bound exclusive, it is written if it does. -/
theorem get?_bound_of_flags (hd : draft.hasFlaggedLimits = true) {key : String}
    (hkey : key = boundKey kind ∨ key = exclusiveKey kind) (lower : Bool) :
    Entries.get? key ((boundOf kind b').members (boundKey kind) (exclusiveKey kind) lower
        draft).reverse = (Entries.get? key members).bind fun value =>
      Json.normalizeValue draft key (reading? draft key value) value := by
  have hne := bounded.keys kind hb
  have hbound : ((Entries.get? (boundKey kind) members).bind fun value =>
      Json.normalizeValue draft (boundKey kind) (reading? draft (boundKey kind) value) value) =
      (numberAt (boundKey kind) members).map Json.number := by
    cases hget : Entries.get? (boundKey kind) members with
    | none => simp [numberAt, hget]
    | some value =>
      obtain ⟨_, _, ht⟩ := h.takes (Entries.mem_of_get? hget)
      obtain ⟨n, rfl, hr⟩ := ht.of_boundKey hb
      simp [numberAt, hget, hr, Json.number?, Json.normalizeValue]
  have hexclusive : (Entries.get? (exclusiveKey kind) members = none ∨
      ∃ x, Entries.get? (exclusiveKey kind) members = some (.bool x) ∧
        reading? draft (exclusiveKey kind) (.bool x) = some .limitFlag ∧
        (numberAt (boundKey kind) members).isSome) := by
    cases hget : Entries.get? (exclusiveKey kind) members with
    | none => exact Or.inl rfl
    | some value =>
      obtain ⟨_, _, ht⟩ := h.takes (Entries.mem_of_get? hget)
      have hflag := ht.of_exclusiveKey hb
      rw [if_pos hd] at hflag
      obtain ⟨x, rfl, hr, hsome⟩ := hflag
      exact Or.inr ⟨x, rfl, hr, hsome⟩
  have hinclusive : isFlagged draft members kind = false →
      numberAt (exclusiveKey kind) members = none →
      (boundOf kind b').members (boundKey kind) (exclusiveKey kind) lower draft =
        (numberAt (boundKey kind) members).toList.map fun n => (boundKey kind, .number n) := by
    intro hunflagged hnone
    have hlimit : boundOf kind b' = ⟨numberAt (boundKey kind) members, none⟩ := by
      rw [h.boundOf_eq hn hb, hempty]
      simp [hunflagged, exclusiveSource, hnone, Limit.empty]
    rw [hlimit]
    cases numberAt (boundKey kind) members <;> simp [Limit.members, Limit.exclusiveWins, hd]
  rcases hexclusive with hget | ⟨x, hget, hr, hsome⟩
  · rw [hinclusive (by simp [isFlagged, hget]) (by simp [numberAt, hget])]
    rcases hkey with rfl | rfl
    · rw [hbound]
      cases numberAt (boundKey kind) members <;> simp [Entries.get?]
    · rw [hget]
      cases numberAt (boundKey kind) members <;> simp [Entries.get?, hne.symm]
  · obtain ⟨n, hnumber⟩ := Option.isSome_iff_exists.mp hsome
    cases x with
    | false =>
      rw [hinclusive (by simp [isFlagged, hget, Json.bool?])
        (by simp [numberAt, hget, Json.number?]), hnumber]
      rcases hkey with rfl | rfl
      · simp [hbound, hnumber, Entries.get?]
      · simp [hget, Entries.get?, hne.symm, Json.normalizeValue, hr]
    | true =>
      have hflagged : isFlagged draft members kind = true := by
        simp [isFlagged, hd, hget, Json.bool?]
      have hlimit : boundOf kind b' = ⟨none, some n⟩ := by
        rw [h.boundOf_eq hn hb, hempty]
        simp [hflagged, exclusiveSource, hnumber, Limit.empty]
      rw [hlimit]
      rcases hkey with rfl | rfl
      · simp [Limit.members, Limit.exclusiveWins, hd, hbound, hnumber, Entries.get?, hne]
      · simp [Limit.members, Limit.exclusiveWins, hd, hget, Entries.get?, Json.normalizeValue]

end

end

/-! ## The members that a builder writes -/

/-- What the keywords of a builder write, kind by kind. -/
def piecesOf (draft : Draft) (b : Builder) : List (KeywordKind × List (String × Json)) :=
  b.keywords.map fun entry =>
    (entry.1, keywordMembers draft entry.1 (entry.2.map (rendered draft)))

theorem get?_piecesOf (draft : Draft) (b : Builder) (kind : KeywordKind) :
    Entries.get? kind (piecesOf draft b) = (b.keyword? kind).map fun k =>
      keywordMembers draft kind (k.map (rendered draft)) := by
  rw [Builder.keyword?, piecesOf]
  induction b.keywords with
  | nil => rfl
  | cons entry rest ih =>
    obtain ⟨other, k⟩ := entry
    by_cases hk : kind = other
    · subst hk
      simp [Entries.get?]
    · simpa [Entries.get?, hk] using ih

section

variable {draft : Draft} {members : List (String × Json)} {location : Location} {b : Builder}

theorem owned_new : Owned draft (.new location draft) where
  bound _ hk := by cases hk
  writes _ hk := by cases hk

/-- No kind is left out when what was read in a draft is written in it. -/
theorem renderBody_eq (ho : Owned draft b) (hn : (Entries.keys b.keywords).Nodup) :
    renderBody draft true (.object (Entries.mapValues (Keyword.map (rendered draft)) b.keywords)
      b.extra) = .object (putMissing b.extra (putPieces (piecesOf draft b) [])) := by
  have hpieces : b.keywords.map (fun entry => (entry.1, membersIn draft (Entries.contains .enum
      (Entries.mapValues (Keyword.map (rendered draft)) b.keywords)) entry.1
        (entry.2.map (rendered draft)))) = piecesOf draft b := by
    refine List.map_congr_left fun entry hentry => ?_
    obtain ⟨key, hkey⟩ : ∃ key, kindIn? draft key = some entry.1 := by
      by_cases hb : entry.1 ∈ bounds
      · exact ⟨_, (bounded.kind draft (Draft.mem_all draft) _ hb).1⟩
      · obtain ⟨key, _, hkey, _⟩ := ho.writes hb (Entries.get?_of_mem hn hentry)
        exact ⟨key, hkey⟩
    rw [membersIn_eq hkey]
  rw [renderBody, if_pos rfl, ← hpieces, putPieces, List.foldl_map, Entries.mapValues,
    List.foldl_map]

theorem nodup_keywords (h : TakesAll draft members members (.new location draft) b) :
    (Entries.keys b.keywords).Nodup :=
  Entries.nodup_of_sorted (fun kind => Nat.lt_irrefl kind.rank) (h.sorted .nil)

/-- A bound is written as it was read. -/
theorem get?_bound (h : TakesAll draft members members (.new location draft) b)
    (hn : (Entries.keys members).Nodup) {kind : KeywordKind} (hb : kind ∈ bounds) {key : String}
    (hk : kindIn? draft key = some kind) :
    Entries.get? key ((boundOf kind b).members (boundKey kind) (exclusiveKey kind)
        (kind = .minimum) draft).reverse = (Entries.get? key members).bind fun value =>
      Json.normalizeValue draft key (reading? draft key value) value := by
  obtain ⟨entry, he, rfl, rfl, _⟩ := kindIn?_some hk
  cases hd : draft.hasFlaggedLimits with
  | false => exact get?_bound_of_numbers h hn hb rfl hd (bounded.key entry he hb) _
  | true => exact get?_bound_of_flags h hn hb rfl hd (bounded.key entry he hb) _

/-- A key that is no keyword keeps its value. -/
theorem normalizeValue_of_kindIn? {key : String} (hk : kindIn? draft key = none) (value : Json) :
    Json.normalizeValue draft key (reading? draft key value) value = some value := by
  have hreading : reading? draft key value = none := by
    cases he : entryFor? draft key value with
    | none => rw [reading?, he, Option.map_none]
    | some entry =>
      rw [kindIn?_of_entryFor? he] at hk
      cases hk
  have hne : key ≠ "$schema" := by
    rintro rfl
    rw [bounded.schema draft (Draft.mem_all draft)] at hk
    cases hk
  cases value <;> simp [hreading, Json.normalizeValue, hne]

theorem get?_written (h : TakesAll draft members members (.new location draft) b)
    (hn : (Entries.keys members).Nodup) (key : String) :
    Entries.get? key (putMissing b.extra (putPieces (piecesOf draft b) [])) =
      (Entries.get? key members).bind fun value =>
        Json.normalizeValue draft key (reading? draft key value) value := by
  have ho := h.owned owned_new
  have hb := nodup_keywords h
  have hkeys : Entries.keys (piecesOf draft b) = Entries.keys b.keywords := by
    simp [piecesOf, Entries.keys]
  have hown : ∀ piece ∈ piecesOf draft b, ∀ member ∈ piece.2,
      kindIn? draft member.1 = some piece.1 := by
    intro piece hpiece member hm
    obtain ⟨⟨kind, k⟩, hk, rfl⟩ := List.mem_map.mp hpiece
    exact kindIn?_of_mem_keywordMembers ho (Entries.get?_of_mem hb hk) hm
  rw [get?_putMissing, get?_putPieces (hkeys ▸ hb) hown, h.extra hn]
  cases hk : kindIn? draft key with
  | none =>
    cases hget : Entries.get? key members with
    | none => simp [Builder.new]
    | some value =>
      have hnormal : Json.normalizeValue draft key (reading? draft key value) value =
          some value := normalizeValue_of_kindIn? hk value
      simp [Builder.new, hnormal]
  | some kind =>
    rw [Option.bind_some, get?_piecesOf]
    by_cases hbound : kind ∈ bounds
    · rw [← get?_bound h hn hbound hk]
      cases hget : b.keyword? kind with
      | none => simp [Builder.new, boundOf, hget, Limit.members_empty]
      | some k =>
        rw [ho.bound hbound hget]
        simp [Builder.new, keywordMembers_bound hbound]
    · have hkeyword := h.keyword? hn hk hbound
      cases hget : Entries.get? key members with
      | none =>
        rw [hget] at hkeyword
        have hnone : b.keyword? kind = none := hkeyword
        simp [Builder.new, hnone]
      | some value =>
        rw [hget] at hkeyword
        obtain ⟨k, hkind, hw⟩ := hkeyword
        rw [hkind, Option.map_some, Option.bind_some, hw, Option.bind_some]
        cases Json.normalizeValue draft key (reading? draft key value) value <;>
          simp [Builder.new, Entries.get?]

/-- An object that is read in a draft without a word is written in it in its normal form. -/
theorem renderBody_of_takesAll (h : TakesAll draft members members (.new location draft) b)
    (hs : Entries.Sorted members) :
    renderBody draft true (.object (Entries.mapValues (Keyword.map (rendered draft)) b.keywords)
      b.extra) = .object (Json.normalizeMembers draft members) := by
  have hn : (Entries.keys members).Nodup := Entries.nodup_of_sorted String.lt_irrefl hs
  rw [renderBody_eq (h.owned owned_new) (nodup_keywords h)]
  refine congrArg Json.object (Entries.ext_of_sorted String.lt_irrefl (fun _ _ _ => String.lt_trans)
    (sorted_putMissing (sorted_putPieces .nil)) (Json.sorted_normalizeMembers hs) fun key => ?_)
  rw [get?_written h hn, Json.get?_normalizeMembers hn]

end

end Schema
end SchemaAtlas
