import SchemaAtlas.Proofs.Graph.Reached
import SchemaAtlas.Proofs.Render.Conforming
import SchemaAtlas.Proofs.Render.Limits

/-!
# Views of one draft

A view of a schema looks a key up among the stored keywords, by the kind that the key names in
the draft, and it lists the keys that the draft is written with. A keyword may be stored and yet
not be written under a key that names it (`Keyword.Withheld`), and a constant is written as an
enumeration in drafts without constants (`Schema.StandsIn`). Otherwise the two agree.
-/

namespace SchemaAtlas

open Catalog Digest

variable {draft : Draft} {key : String} {kind : KeywordKind}

/-! ## Stored bounds -/

/-- Every bound of a node has a number. -/
def Schema.IsBounded (s : Schema) : Prop :=
  ∀ kind l, (kind, Keyword.limit l) ∈ s.keywords → l.isEmpty = false

namespace Digest

open LoadM

/-- A bound is made from a number. -/
theorem isEmpty_of_keyword {load : Loader} {active : DraftSet} {builder : Builder} {site : Site}
    {l : Limit} {s s' : Session}
    (h : Runs (keyword load active builder site) s (.ok (some (.limit l))) s') :
    l.isEmpty = false := by
  have hr : site.entry.reading = .limitValue := List.mem_singleton.mp (reading_of_keyword h)
  unfold keyword at h
  rw [hr] at h
  cases hv : site.value with
  | number n =>
    rw [hv] at h
    cases (runs_pure.mp h).1
    unfold limitWith
    dsimp only
    split <;> simp [Limit.isEmpty]
  | null | bool | string | array | object =>
    rw [hv] at h
    cases (runs_pure.mp h).1

end Digest

/-- Every bound that a load stores has a number. -/
theorem Loading.gives_isBounded : Gives Schema.IsBounded where
  boolean := fun _ _ h => nomatch h
  reference := fun _ _ h => nomatch h
  object := by
    intro load context inner object builder id s s' hr
    have hI : Preserves (nestedLoad load) context.active fun b =>
        ∀ kind l, (kind, Keyword.limit l) ∈ b.keywords → l.isEmpty = false := by
      constructor
      · intro b key site k s s' _ hk hb kind l hm
        rcases Entries.mem_insert hm with heq | hold
        · cases heq
          exact isEmpty_of_keyword hk
        · exact hb kind l hold
      · exact fun _ _ hb => hb
    have hbuilder := hI.members (fun _ _ h => absurd h List.not_mem_nil) hr
    intro kind l hm
    rw [Schema.keywords, Schema.body, keywordsRun_body hr] at hm
    exact hbuilder kind l hm

/-! ## What is not written -/

namespace Keyword

/-- A keyword that is not written under a key that names its kind in a draft: a bound that is
not set, or is not the one that a draft with flags keeps, required names when there are none,
and types when the draft has a name for none of them. -/
inductive Withheld {σ : Type} (draft : Draft) : KeywordKind → Keyword σ → String → Prop
  | inclusive {kind : KeywordKind} {l : Limit} : kind ∈ bounds →
      draft.hasFlaggedLimits = false → l.inclusive = none →
      Withheld draft kind (.limit l) (boundKey kind)
  | exclusive {kind : KeywordKind} {l : Limit} : kind ∈ bounds →
      draft.hasFlaggedLimits = false → l.exclusive = none →
      Withheld draft kind (.limit l) (exclusiveKey kind)
  | flag {kind : KeywordKind} {l : Limit} : kind ∈ bounds →
      draft.hasFlaggedLimits = true → l.exclusiveWins (kind = .minimum) = false →
      Withheld draft kind (.limit l) (exclusiveKey kind)
  | required : Withheld draft .required (.names []) "required"
  | types {set : List Shape} : (∀ shape ∈ set, shape = .any ∧ draft ≠ .draft3) →
      Withheld draft .type (.types set) "type"
  | union {set : List Shape} {schemas : List σ} : draft ≠ .draft3 →
      (∀ shape ∈ set, shape = .any) → Withheld draft .type (.union set schemas) "type"

theorem withheld_map {σ τ : Type} (f : σ → τ) {k : Keyword σ} :
    (k.map f).Withheld draft kind key ↔ k.Withheld draft kind key := by
  constructor
  · intro h
    generalize hk : k.map f = k' at h
    cases h with
    | inclusive hb hd hl => cases k <;> cases hk; exact .inclusive hb hd hl
    | exclusive hb hd hl => cases k <;> cases hk; exact .exclusive hb hd hl
    | flag hb hd hl => cases k <;> cases hk; exact .flag hb hd hl
    | required => cases k <;> cases hk; exact .required
    | types hset => cases k <;> cases hk; exact .types hset
    | union hd hset => cases k <;> cases hk; exact .union hd hset
  · intro h
    cases h with
    | inclusive hb hd hl => exact .inclusive hb hd hl
    | exclusive hb hd hl => exact .exclusive hb hd hl
    | flag hb hd hl => exact .flag hb hd hl
    | required => exact .required
    | types hset => exact .types hset
    | union hd hset => exact .union hd hset

end Keyword

/-- The keys under which a bound is written. -/
theorem Limit.mem_keys_members {l : Limit} (hl : l.isEmpty = false) {bound exclusive : String}
    (hne : bound ≠ exclusive) (lower : Bool) :
    (bound ∈ Entries.keys (l.members bound exclusive lower draft) ↔
      ¬(draft.hasFlaggedLimits = false ∧ l.inclusive = none)) ∧
    (exclusive ∈ Entries.keys (l.members bound exclusive lower draft) ↔
      if draft.hasFlaggedLimits then l.exclusiveWins lower = true else l.exclusive ≠ none) := by
  obtain ⟨i, e⟩ := l
  unfold members
  cases draft.hasFlaggedLimits with
  | false => cases i <;> cases e <;> simp [Entries.keys, hne, hne.symm]
  | true =>
    cases hw : exclusiveWins lower ⟨i, e⟩ with
    | true =>
      cases e with
      | none => simp [exclusiveWins] at hw
      | some e => simp [Entries.keys]
    | false =>
      cases i with
      | some i => simp [Entries.keys, hne.symm]
      | none => cases e <;> simp [exclusiveWins, isEmpty] at hw hl

namespace Schema

/-- A draft has a name for a type unless it is `any`, which the third draft alone names. -/
theorem renderTypes_eq_none_iff {types : List Shape} :
    renderTypes draft types = none ↔ ∀ shape ∈ types, shape = .any ∧ draft ≠ .draft3 := by
  have hnone : renderTypes draft types = none ↔
      (types.filter fun t => t ≠ .any || draft = .draft3) = [] := by
    unfold renderTypes
    cases types.filter fun t => t ≠ .any || draft = .draft3 with
    | nil => simp
    | cons first rest => cases rest <;> simp
  rw [hnone, List.filter_eq_nil_iff]
  simp

end Schema

/-- What the catalog says about the keys of kinds. -/
structure Catalog.Named : Prop where
  /-- The key that a draft writes for a kind names the kind in the draft. -/
  keyIn : ∀ draft ∈ Draft.all, ∀ kind ∈ KeywordKind.all, kind ∉ bounds →
    (draftsOf kind).contains draft → kindIn? draft (Schema.keyIn draft kind) = some kind
  enum : ∀ draft ∈ Draft.all, kindIn? draft "enum" = some .enum
  const : ∀ entry ∈ entries, entry.kind = .const → entry.reading = .json

theorem Catalog.named : Named where
  keyIn := by decide +kernel
  enum := by decide +kernel
  const := by decide +kernel

namespace Schema

variable {k : Keyword (Schema × Json)}

/-- Apart from bounds, what is withheld are empty sets of names and of types. -/
theorem withheld_iff (hb : kind ∉ bounds) : k.Withheld draft kind (keyIn draft kind) ↔
    kind = .required ∧ k = .names [] ∨ kind = .type ∧
      ((∃ set, k = .types set ∧ renderTypes draft set = none) ∨
        draft ≠ .draft3 ∧ ∃ set schemas, k = .union set schemas ∧ renderTypes draft set = none) := by
  simp only [renderTypes_eq_none_iff]
  constructor
  · intro h
    generalize keyIn draft kind = key at h
    cases h with
    | inclusive hbound => exact absurd hbound hb
    | exclusive hbound => exact absurd hbound hb
    | flag hbound => exact absurd hbound hb
    | required => exact Or.inl ⟨rfl, rfl⟩
    | types hset => exact Or.inr ⟨rfl, Or.inl ⟨_, rfl, hset⟩⟩
    | union hd hset =>
      exact Or.inr ⟨rfl, Or.inr ⟨hd, _, _, rfl, fun shape hs => ⟨hset shape hs, hd⟩⟩⟩
  · rintro (⟨rfl, rfl⟩ | ⟨rfl, ⟨set, rfl, hset⟩ | ⟨hd, set, schemas, rfl, hset⟩⟩)
    · exact .required
    · exact .types hset
    · exact .union hd fun shape hs => (hset shape hs).1

/-- A draft that knows a kind writes its keyword, bounds apart, unless it is withheld. -/
theorem keywordMembers_eq_nil (hk : k.IsCatalogued kind) (hb : kind ∉ bounds)
    (hd : (draftsOf kind).contains draft) :
    keywordMembers draft kind k = [] ↔ k.Withheld draft kind (keyIn draft kind) := by
  have htypes : ∀ types schemas, k = .union types schemas → draft ≠ .draft3 → kind = .type := by
    rintro types schemas rfl hthird
    obtain ⟨entry, he, rfl, hr⟩ := hk
    refine (regular.types entry he (List.mem_singleton.mp hr)).resolve_right fun hdisallow => ?_
    exact hthird (writable.disallow draft (Draft.mem_all draft) (hdisallow ▸ hd))
  rw [withheld_iff hb]
  unfold keywordMembers
  dsimp only
  split
  case h_2 | h_3 | h_4 | h_5 => exact absurd (by decide) hb
  case h_10 types schemas _ _ _ =>
    split
    · rename_i hthird
      simp [hthird]
    · rename_i hthird
      simp [hthird, htypes types schemas rfl hthird]
  case h_11 hunion _ _ _ _ hnames hset =>
    refine iff_of_false (List.cons_ne_nil _ _) ?_
    rintro (⟨rfl, rfl⟩ | ⟨rfl, ⟨set, rfl, -⟩ | ⟨-, set, schemas, rfl, -⟩⟩)
    · exact hnames rfl rfl
    · exact hset set rfl rfl
    · exact hunion set schemas rfl
  all_goals simp

/-- What is withheld of a bound. -/
theorem withheld_limit_iff {l : Limit} (hb : kind ∈ bounds) :
    (Keyword.limit l : Keyword (Schema × Json)).Withheld draft kind key ↔
      key = boundKey kind ∧ draft.hasFlaggedLimits = false ∧ l.inclusive = none ∨
      key = exclusiveKey kind ∧ ¬(if draft.hasFlaggedLimits then
        l.exclusiveWins (kind = .minimum) = true else l.exclusive ≠ none) := by
  constructor
  · intro h
    cases h with
    | inclusive _ hd hl => exact Or.inl ⟨rfl, hd, hl⟩
    | exclusive _ hd hl => exact Or.inr ⟨rfl, by simp [hd, hl]⟩
    | flag _ hd hl => exact Or.inr ⟨rfl, by simp [hd, hl]⟩
  · rintro (⟨rfl, hd, hl⟩ | ⟨rfl, hl⟩)
    · exact .inclusive hb hd hl
    · cases hd : draft.hasFlaggedLimits with
      | true => exact .flag hb hd (by simpa [hd] using hl)
      | false => exact .exclusive hb hd (by simpa [hd] using hl)

/-- The keys under which a draft writes a bound. -/
theorem mem_keys_bound {l : Limit} (hb : kind ∈ bounds) (hl : l.isEmpty = false) :
    key ∈ Entries.keys (l.members (boundKey kind) (exclusiveKey kind) (kind = .minimum) draft) ↔
      kindIn? draft key = some kind ∧
        ¬(Keyword.limit l : Keyword (Schema × Json)).Withheld draft kind key := by
  obtain ⟨hbound, hexclusive⟩ := @Limit.mem_keys_members draft l hl _ _ (bounded.keys kind hb)
    (kind = .minimum)
  obtain ⟨hnamed, hnamed'⟩ := bounded.kind draft (Draft.mem_all draft) kind hb
  rw [withheld_limit_iff hb]
  by_cases hkey : key = boundKey kind
  · subst hkey
    rw [hbound]
    simp [hnamed, bounded.keys kind hb]
  by_cases hkey' : key = exclusiveKey kind
  · subst hkey'
    rw [hexclusive]
    simp [hnamed', (bounded.keys kind hb).symm]
  refine iff_of_false (fun hm => ?_) fun h => ?_
  · obtain ⟨member, hmember, rfl⟩ := List.mem_map.mp hm
    exact (Limit.key_of_mem_members hmember).elim hkey hkey'
  · obtain ⟨entry, he, rfl, rfl, -⟩ := kindIn?_some h.1
    exact (bounded.key entry he hb).elim hkey hkey'

theorem fst_of_mem_keywordMembers (hb : kind ∉ bounds) {member : String × Json}
    (hm : member ∈ keywordMembers draft kind k) : member.1 = keyIn draft kind := by
  by_cases hs : kind = .schema
  · subst hs
    exact congrArg Prod.fst (List.mem_singleton.mp hm)
  · have hspecial : kind.isSpecial = false := by
      simp only [bounds, List.mem_cons, List.not_mem_nil, or_false, not_or] at hb
      simp [KeywordKind.isSpecial, hs, hb.1, hb.2]
    exact (Keyword.writtenAs_of_mem hspecial hm).1

/-- Bounds apart, a draft that knows a kind writes its keyword under the key of the kind. -/
theorem mem_keys_keywordMembers (hk : k.IsCatalogued kind) (hb : kind ∉ bounds)
    (hd : (draftsOf kind).contains draft) : key ∈ Entries.keys (keywordMembers draft kind k) ↔
      kindIn? draft key = some kind ∧ ¬k.Withheld draft kind key := by
  have hnames : kindIn? draft key = some kind ↔ keyIn draft kind = key := by
    refine ⟨fun h => keyIn_of_kindIn? h hb, ?_⟩
    rintro rfl
    exact named.keyIn draft (Draft.mem_all draft) kind (mem_all kind) hb hd
  rw [hnames]
  constructor
  · intro hm
    obtain ⟨member, hmember, rfl⟩ := List.mem_map.mp hm
    have hkey := fst_of_mem_keywordMembers hb hmember
    refine ⟨hkey.symm, ?_⟩
    rw [hkey, ← keywordMembers_eq_nil hk hb hd]
    exact List.ne_nil_of_mem hmember
  · rintro ⟨rfl, hw⟩
    rw [← keywordMembers_eq_nil hk hb hd] at hw
    obtain ⟨member, hm⟩ := List.exists_mem_of_ne_nil _ hw
    exact fst_of_mem_keywordMembers hb hm ▸ List.mem_map_of_mem hm

/-- The keys under which a draft writes a keyword: those that name its kind, unless it is
withheld, and `enum` for a constant in drafts without constants. -/
theorem mem_keys_membersIn (hk : k.IsCatalogued kind) (hl : ∀ l, k = .limit l → l.isEmpty = false)
    (hasEnum : Bool) : key ∈ Entries.keys (membersIn draft hasEnum kind k) ↔
      kindIn? draft key = some kind ∧ ¬k.Withheld draft kind key ∨
        kind = .const ∧ draft < .draft6 ∧ hasEnum = false ∧ key = "enum" := by
  have hdraft := Draft.mem_all draft
  obtain ⟨entry, he, rfl, hr⟩ := hk
  by_cases hconst : entry.kind = .const ∧ draft < .draft6
  · have hnot : kindIn? draft key ≠ some entry.kind := by
      intro hkind
      obtain ⟨other, ho, _, hsame, hd⟩ := kindIn?_some hkind
      exact bounded.const other ho draft hdraft hd (hsame ▸ hconst)
    obtain ⟨v, rfl⟩ : ∃ v, k = .json v := by
      rw [named.const entry he hconst.1] at hr
      cases k <;> simp [Keyword.readings] at hr
      exact ⟨_, rfl⟩
    obtain ⟨hkind, hlt⟩ := hconst
    rw [hkind] at hnot ⊢
    cases hasEnum <;> simp [membersIn, hlt, hnot, Entries.keys]
  · have hother : ¬(entry.kind = .const ∧ draft < .draft6 ∧ hasEnum = false ∧ key = "enum") :=
      fun h => hconst ⟨h.1, h.2.1⟩
    rw [or_iff_left hother]
    unfold membersIn
    rw [if_neg hconst]
    by_cases hd : (draftsOf entry.kind).contains draft
    · rw [if_pos hd]
      by_cases hb : entry.kind ∈ bounds
      · obtain ⟨l, rfl⟩ := Keyword.eq_limit_of_bound he hr hb
        rw [← mem_keys_bound hb (hl l rfl), ← keywordMembers_bound hb]
        rfl
      · exact mem_keys_keywordMembers ⟨entry, he, rfl, hr⟩ hb hd
    · rw [if_neg hd]
      refine iff_of_false List.not_mem_nil fun h => hd ?_
      obtain ⟨other, ho, _, hsame, happlies⟩ := kindIn?_some h.1
      exact hsame ▸ regular.draftsOf other ho draft hdraft happlies

/-! ## Views -/

/-- A view looks up the keyword of the kind that the key names. -/
theorem keywordIn?_eq (s : Schema) (draft : Draft) (key : String) :
    s.keywordIn? draft key = (kindIn? draft key).bind s.keyword? := by
  have hall : ∀ {list : List CatalogEntry}, (∀ entry ∈ list, kindIn? draft key = some entry.kind) →
      list ≠ [] → list.findSome? (fun entry => s.keyword? entry.kind) =
        (kindIn? draft key).bind s.keyword? := by
    intro list
    induction list with
    | nil => exact fun _ h => absurd rfl h
    | cons first rest ih =>
      intro hkinds _
      have hfirst := hkinds first List.mem_cons_self
      cases hk : s.keyword? first.kind with
      | some k => simp [hfirst, hk]
      | none =>
        cases rest with
        | nil => simp [hfirst, hk]
        | cons second rest =>
          rw [List.findSome?_cons, hk]
          exact ih (fun entry he => hkinds entry (List.mem_cons_of_mem _ he)) (List.cons_ne_nil _ _)
  have hmem : ∀ entry, entry ∈ (candidates key).filter (·.appliesTo draft) ↔
      entry ∈ entries ∧ entry.key = key ∧ entry.appliesTo draft := by
    intro entry
    rw [List.mem_filter, (candidates_perm key).mem_iff, List.mem_filter]
    simp [and_assoc]
  unfold keywordIn?
  by_cases hnil : (candidates key).filter (·.appliesTo draft) = []
  · have hnone : kindIn? draft key = none := by
      rw [kindIn?_eq_none]
      intro entry he hkey hd
      have hin := (hmem entry).mpr ⟨he, hkey, hd⟩
      rw [hnil] at hin
      cases hin
    rw [hnil, hnone]
    rfl
  · refine hall (fun entry hm => ?_) hnil
    obtain ⟨he, rfl, hd⟩ := (hmem entry).mp hm
    exact kindIn?_of_mem he hd

theorem mem_keys_putAll {members object : List (String × Json)} :
    key ∈ Entries.keys (putAll members object) ↔
      key ∈ Entries.keys members ∨ key ∈ Entries.keys object := by
  have hreverse : key ∈ Entries.keys members.reverse ↔ key ∈ Entries.keys members := by
    simp [Entries.keys]
  rw [← not_iff_not, not_or, ← Entries.get?_eq_none, get?_putAll, Option.or_eq_none_iff,
    Entries.get?_eq_none, Entries.get?_eq_none, hreverse]

theorem mem_keys_putPieces {pieces : List (KeywordKind × List (String × Json))}
    {object : List (String × Json)} : key ∈ Entries.keys (putPieces pieces object) ↔
      (∃ piece ∈ pieces, key ∈ Entries.keys piece.2) ∨ key ∈ Entries.keys object := by
  induction pieces generalizing object with
  | nil => simp [putPieces]
  | cons piece rest ih =>
    have hput : putPieces (piece :: rest) object = putPieces rest (putAll piece.2 object) := rfl
    rw [hput, ih, mem_keys_putAll, List.exists_mem_cons_iff, or_assoc, or_left_comm]

/-- A keyword of the kind that the key names is stored, but withheld from the draft. -/
def Withholds (s : Schema) (draft : Draft) (key : String) : Prop :=
  ∃ kind k, kindIn? draft key = some kind ∧ s.keyword? kind = some k ∧ k.Withheld draft kind key

/-- A constant takes the place of an enumeration. -/
def StandsIn (s : Schema) (draft : Draft) (key : String) : Prop :=
  key = "enum" ∧ draft < .draft6 ∧ (s.keyword? .const).isSome ∧ s.keyword? .enum = none

variable {s : Schema}

/-- The keys that a draft is written with for an object. -/
theorem mem_keysIn (ho : s.isObject = true) (hs : s.IsCatalogued) (hl : s.IsBounded) :
    key ∈ s.keysIn draft ↔
      (∃ kind k, kindIn? draft key = some kind ∧ s.keyword? kind = some k ∧
        ¬k.Withheld draft kind key) ∨ s.StandsIn draft key := by
  have hkeys : key ∈ s.keysIn draft ↔ ∃ kind k, (kind, k) ∈ s.keywords ∧
      key ∈ Entries.keys (membersIn draft (Entries.contains .enum s.keywords) kind
        (k.map (written draft))) := by
    obtain ⟨id, location, own, body⟩ := s
    cases body with
    | reference => cases ho
    | boolean => cases ho
    | object keywords extra =>
      rw [keysIn, render_of_object]
      dsimp only
      rw [mem_keys_putPieces, pieces]
      simp [Entries.keys]
  have hwritten : ∀ {kind k}, (kind, k) ∈ s.keywords →
      (key ∈ Entries.keys (membersIn draft (Entries.contains .enum s.keywords) kind
        (k.map (written draft))) ↔ kindIn? draft key = some kind ∧ ¬k.Withheld draft kind key ∨
          kind = .const ∧ draft < .draft6 ∧ Entries.contains .enum s.keywords = false ∧
            key = "enum") := by
    intro kind k hk
    obtain ⟨entry, he, hkind, hr⟩ := hs.keyword kind k hk
    rw [mem_keys_membersIn ⟨entry, he, hkind, by rwa [Keyword.readings_map]⟩, Keyword.withheld_map]
    intro l heq
    cases k <;> cases heq
    exact hl kind l hk
  rw [hkeys]
  constructor
  · rintro ⟨kind, k, hk, hm⟩
    have hstored : s.keyword? kind = some k := Entries.get?_of_mem hs.sorted.nodup hk
    rcases (hwritten hk).mp hm with ⟨hkind, hw⟩ | ⟨rfl, hd, henum, rfl⟩
    · exact Or.inl ⟨kind, k, hkind, hstored, hw⟩
    · refine Or.inr ⟨rfl, hd, by simp [hstored], ?_⟩
      simpa [Entries.contains, Schema.keyword?] using henum
  · rintro (⟨kind, k, hkind, hstored, hw⟩ | ⟨rfl, hd, hconst, henum⟩)
    · have hk : (kind, k) ∈ s.keywords := Entries.mem_of_get? hstored
      exact ⟨kind, k, hk, (hwritten hk).mpr (Or.inl ⟨hkind, hw⟩)⟩
    · obtain ⟨k, hstored⟩ := Option.isSome_iff_exists.mp hconst
      have hk : (KeywordKind.const, k) ∈ s.keywords := Entries.mem_of_get? hstored
      refine ⟨.const, k, hk, (hwritten hk).mpr (Or.inr ⟨rfl, hd, ?_, rfl⟩)⟩
      simpa [Entries.contains, Schema.keyword?] using henum

/-- A view finds a key if a keyword is stored under the kind that it names. -/
theorem isSome_keywordIn? : (s.keywordIn? draft key).isSome = true ↔
    ∃ kind k, kindIn? draft key = some kind ∧ s.keyword? kind = some k := by
  rw [keywordIn?_eq, Option.isSome_iff_exists]
  simp only [Option.bind_eq_some_iff]
  exact exists_comm

/-- A constant stands in for an enumeration only if none is stored. -/
theorem StandsIn.keywordIn? (h : s.StandsIn draft key) : s.keywordIn? draft key = none := by
  obtain ⟨rfl, -, -, henum⟩ := h
  rw [keywordIn?_eq, named.enum draft (Draft.mem_all draft)]
  exact henum

/-- A key that a view finds and does not list is one of a withheld keyword; one that it lists
and does not find is that of an enumeration that a constant stands in for. -/
theorem view_cases (ho : s.isObject = true) (hs : s.IsCatalogued) (hl : s.IsBounded) :
    ((s.keywordIn? draft key).isSome = true ∧ key ∉ s.keysIn draft ↔ s.Withholds draft key) ∧
      (s.keywordIn? draft key = none ∧ key ∈ s.keysIn draft ↔ s.StandsIn draft key) := by
  rw [mem_keysIn ho hs hl]
  refine ⟨⟨?_, ?_⟩, ?_, fun h => ⟨h.keywordIn?, Or.inr h⟩⟩
  · rintro ⟨hfound, hlisted⟩
    obtain ⟨kind, k, hkind, hk⟩ := isSome_keywordIn?.mp hfound
    refine ⟨kind, k, hkind, hk, ?_⟩
    by_contra hw
    exact hlisted (Or.inl ⟨kind, k, hkind, hk, hw⟩)
  · rintro ⟨kind, k, hkind, hk, hw⟩
    have hfound : (s.keywordIn? draft key).isSome = true :=
      isSome_keywordIn?.mpr ⟨kind, k, hkind, hk⟩
    refine ⟨hfound, ?_⟩
    rintro (⟨kind', k', hkind', hk', hw'⟩ | hstands)
    · cases hkind.symm.trans hkind'
      cases hk.symm.trans hk'
      exact hw' hw
    · rw [hstands.keywordIn?] at hfound
      cases hfound
  · rintro ⟨hnone, ⟨kind, k, hkind, hk, -⟩ | hstands⟩
    · have hfound := isSome_keywordIn?.mpr ⟨kind, k, hkind, hk⟩
      rw [hnone] at hfound
      cases hfound
    · exact hstands

end Schema

open Schema

/-- For an object that a loaded schema leads to, a view finds just the keys that it lists, unless
a keyword under the key is withheld from the draft, which the view finds and does not list, or a
constant stands in for an enumeration, which it lists and does not find. -/
theorem view_agrees_iff {st : Store} {given : Schema → Prop} {s t : Schema} (h : Gave st given)
    (hs : given s) (ht : st.Reaches s t) (ho : t.isObject = true) (draft : Draft) (key : String) :
    (((t.keywordIn? draft key).isSome = true ↔ key ∈ t.keysIn draft) ↔
      ¬(t.Withholds draft key ∨ t.StandsIn draft key)) ∧
    ((t.keywordIn? draft key).isSome = true ∧ key ∉ t.keysIn draft ↔ t.Withholds draft key) ∧
    (t.keywordIn? draft key = none ∧ key ∈ t.keysIn draft ↔ t.StandsIn draft key) := by
  obtain ⟨hwithheld, hstands⟩ := @view_cases draft key _ ho
    (h.reached Loading.gives_isCatalogued s hs t ht) (h.reached Loading.gives_isBounded s hs t ht)
  refine ⟨?_, hwithheld, hstands⟩
  rw [← hwithheld, ← hstands, ← Option.not_isSome_iff_eq_none]
  tauto

/-- A schema with a bound from below, and no exclusive one. -/
def Request.atLeastFive : Request :=
  .named ⟨"http", some "e.com", .segments ["r.json"], none, none⟩
    (.object [("minimum", .number (.integer 5))])

/-- A bound is found and listed under its own key. -/
theorem view_agrees_atLeastFive : ∃ s w',
    Request.atLeastFive.run .standard .empty = (.ok s, w') ∧ s.isObject = true ∧
      s.keysIn .draft7 = ["minimum"] ∧ (s.keywordIn? .draft7 "minimum").isSome = true ∧
      ¬(s.Withholds .draft7 "minimum" ∨ s.StandsIn .draft7 "minimum") := by
  have hcheck : (Request.atLeastFive.run .standard .empty).1.toOption.any (fun s =>
      s.isObject && (s.keysIn .draft7 = ["minimum"] &&
        (s.keywordIn? .draft7 "minimum").isSome)) = true := by
    decide +kernel
  obtain ⟨s, w', hr, hs⟩ := Request.exists_of_any_run hcheck
  simp only [Bool.and_eq_true, decide_eq_true_eq] at hs
  obtain ⟨ho, hkeys, hfound⟩ := hs
  have hgave := Gave.request (w := .empty) Request.atLeastFive .standard (.nothing Store.empty)
    fun _ _ h => by cases h
  have hgiven : False ∨ (Request.atLeastFive.run .standard .empty).1 = .ok s ∨
      ∃ uri, (Request.atLeastFive.run .standard .empty).2.cache.get? uri = some s :=
    Or.inr (Or.inl (congrArg Prod.fst hr))
  refine ⟨s, w', hr, ho, hkeys, hfound, ?_⟩
  rw [← (view_agrees_iff hgave hgiven .refl ho .draft7 "minimum").1, hfound, hkeys]
  simp

/-- Under the key of the exclusive bound a view finds the bound, which is not listed there. -/
theorem view_disagrees_atLeastFive : ∃ s w',
    Request.atLeastFive.run .standard .empty = (.ok s, w') ∧ s.isObject = true ∧
      (s.keywordIn? .draft7 "exclusiveMinimum").isSome = true ∧
      "exclusiveMinimum" ∉ s.keysIn .draft7 := by
  have hcheck : (Request.atLeastFive.run .standard .empty).1.toOption.any (fun s =>
      s.isObject && ((s.keywordIn? .draft7 "exclusiveMinimum").isSome &&
        !(s.keysIn .draft7).contains "exclusiveMinimum")) = true := by
    decide +kernel
  obtain ⟨s, w', hr, hs⟩ := Request.exists_of_any_run hcheck
  simp only [Bool.and_eq_true, Bool.not_eq_true', List.contains_eq_mem, decide_eq_false_iff_not]
    at hs
  exact ⟨s, w', hr, hs.1, hs.2.1, hs.2.2⟩

end SchemaAtlas
