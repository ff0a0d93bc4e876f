import SchemaAtlas.Proofs.Loading.Identifier
import SchemaAtlas.Proofs.Render.Limits
import SchemaAtlas.Schema.Access

/-!
# Counts

Six keywords count characters, elements or members. They are read from numbers, which are kept as
integers of 64 bits or as floating point numbers, and the exact value decides: a natural number of
64 bits is the count, anything else is reported. The one number for which this fails lies at the
end of the range, where the greatest count rounds up to `2 ^ 64` as a floating point number. What
is counted is said without floating point numbers by `Number.count?_eq_some_iff`, and what becomes
of it in an object by `Digest.countsExactly_iff`.
-/

namespace SchemaAtlas

/-! ## Numbers -/

namespace Binary64

theorem unitsOfOne_pos : 0 < unitsOfOne := Nat.two_pow_pos _

theorem unitsOfOne_eq : Nat.pow 2 1074 = unitsOfOne := by decide +kernel

variable {x : Binary64} {q : Int}

/-- A floating point number is a given integer. -/
theorem value_eq_iff : (Number.float x).value = q ↔ x.units = q * unitsOfOne := by
  have hpos : (unitsOfOne : ℚ) ≠ 0 := Nat.cast_ne_zero.mpr unitsOfOne_pos.ne'
  rw [Number.value, div_eq_iff hpos]
  exact_mod_cast Iff.rfl

theorem isWhole_iff : x.isWhole = true ↔ ∃ q : Int, (Number.float x).value = q := by
  rw [isWhole, unitsOfOne_eq, beq_iff_eq, ← Int.dvd_iff_emod_eq_zero, dvd_iff_exists_eq_mul_left]
  simp only [value_eq_iff]

theorem truncate_eq (h : (Number.float x).value = q) : x.truncate = q := by
  rw [truncate, unitsOfOne_eq, value_eq_iff.mp h]
  exact Int.mul_tdiv_cancel q (Int.natCast_ne_zero.mpr unitsOfOne_pos.ne')

theorem le_iff_of_units {y : Binary64} {p : Int} (hx : x.units = q * unitsOfOne)
    (hy : y.units = p * unitsOfOne) : x.le y = true ↔ q ≤ p := by
  rw [le, hx, hy, decide_eq_true_eq]
  exact Int.mul_le_mul_right (Int.natCast_pos.mpr unitsOfOne_pos)

theorem value_of_natural (m e : Nat) : (Number.float ⟨false, m, e⟩).value = (m * 2 ^ e : Nat) := by
  have hexponent : ((e : Int) - leastExponent).toNat = e + (-leastExponent).toNat := by
    simp only [leastExponent]
    omega
  have hunits : units ⟨false, m, e⟩ = ((m * 2 ^ e : Nat) : Int) * unitsOfOne := by
    rw [units_of_natural, hexponent, Nat.pow_add, ← Nat.mul_assoc, unitsOfOne, Nat.cast_mul]
  exact (value_eq_iff.mpr hunits).trans (Int.cast_natCast _)

theorem units_zero : (zero false).units = 0 := by
  rw [zero, units_of_natural, Nat.zero_mul, Nat.cast_zero]

theorem units_limit : (ofNat (Nat.pow 2 64)).units = (2 ^ 64 : Int) * unitsOfOne := by
  rw [units_ofNat (by decide), show roundToBits (Nat.pow 2 64) = 2 ^ 64 by decide]
  push_cast
  rfl

end Binary64

namespace Number

/-- A number as it is kept: integers have 64 bits, with a sign or without. -/
def IsHeld : Number → Prop
  | .integer i => -2 ^ 63 ≤ i ∧ i < 2 ^ 64
  | .float _ => True

/-- The exact value of a number is a natural number of 64 bits. -/
def IsCount (n : Number) (k : Nat) : Prop := n.value = k ∧ k < 2 ^ 64

variable {n : Number}

/-- Numerals are read as numbers that can be kept. -/
theorem isHeld_of_value? {numeral : Numeral} (h : numeral.value? = some n) : n.IsHeld := by
  have hword := Numeral.accumulate_lt 0 (by decide) numeral.whole
  unfold Numeral.value? at h
  generalize Numeral.accumulate 0 numeral.whole = found at h hword
  obtain ⟨significand, dropped⟩ := found
  have hsmall : significand < 2 ^ 64 := hword
  dsimp only at h
  split at h
  · split at h
    · cases h
      exact ⟨by omega, by omega⟩
    · split at h
      · cases h
        trivial
      · split at h
        · rename_i hsigned
          cases h
          have hsigned : significand ≤ 2 ^ 63 := hsigned
          exact ⟨by omega, by omega⟩
        · cases h
          trivial
  · obtain ⟨x, -, rfl⟩ := Option.map_eq_some_iff.mp h
    trivial

theorem ofNumber_eq_integer_iff : Shape.ofNumber n = .integer ↔ ∃ q : Int, n.value = q := by
  cases n with
  | integer i => exact ⟨fun _ => ⟨i, rfl⟩, fun _ => rfl⟩
  | float x =>
    rw [← Binary64.isWhole_iff]
    by_cases hx : x.isWhole <;> simp [Shape.ofNumber, hx]

/-- A number that is an integer is a count up to `2 ^ 64`; this one is counted as the number
before it. -/
theorem count?_of_value {q : Int} (hn : n.IsHeld) (hq : n.value = q) :
    n.count? = if 0 ≤ q ∧ q ≤ 2 ^ 64 then some (min q.toNat (2 ^ 64 - 1)) else none := by
  cases n with
  | integer i =>
    have heq : i = q := Int.cast_injective hq
    obtain ⟨-, hlt⟩ := hn
    subst heq
    by_cases h0 : 0 ≤ i
    · rw [count?, if_pos h0, if_pos ⟨h0, by omega⟩]
      congr 1
      omega
    · rw [count?, if_neg h0, if_neg fun h => h0 h.1]
  | float x =>
    have hunits := Binary64.value_eq_iff.mp hq
    have hzero : (Binary64.zero false).units = (0 : Int) * Binary64.unitsOfOne :=
      Binary64.units_zero.trans (Int.zero_mul _).symm
    have hwhole : x.isWhole = true := Binary64.isWhole_iff.mpr ⟨q, hq⟩
    simp only [count?, Bool.and_eq_true, hwhole, and_true, Binary64.le_iff_of_units hzero hunits,
      Binary64.le_iff_of_units hunits Binary64.units_limit, Binary64.truncate_eq hq]
    rfl

theorem count?_of_not_integer (h : ¬∃ q : Int, n.value = q) : n.count? = none := by
  cases n with
  | integer i => exact (h ⟨i, rfl⟩).elim
  | float x =>
    rw [← Binary64.isWhole_iff] at h
    simp [count?, h]

/-- What is counted is exact, but for one number. -/
theorem count?_eq_some_iff (hn : n.IsHeld) {k : Nat} :
    n.count? = some k ↔ n.IsCount k ∨ n.value = 2 ^ 64 ∧ k = 2 ^ 64 - 1 := by
  by_cases h : ∃ q : Int, n.value = q
  · obtain ⟨q, hq⟩ := h
    have hcount : n.IsCount k ↔ q = k ∧ k < 2 ^ 64 := by
      rw [IsCount, hq]
      exact_mod_cast Iff.rfl
    have hlimit : n.value = 2 ^ 64 ↔ q = 2 ^ 64 := by
      rw [hq]
      exact_mod_cast Iff.rfl
    rw [count?_of_value hn hq, hcount, hlimit]
    split
    · simp only [Option.some.injEq]
      omega
    · simp only [reduceCtorEq, false_iff]
      omega
  · rw [count?_of_not_integer h]
    refine iff_of_false (fun hnone => nomatch hnone) ?_
    rintro (⟨hk, -⟩ | ⟨hlimit, -⟩)
    · exact h ⟨k, by rw [hk, Int.cast_natCast]⟩
    · exact h ⟨2 ^ 64, by rw [hlimit]; norm_num⟩

theorem count?_eq_none_iff (hn : n.IsHeld) :
    n.count? = none ↔ (∀ k, ¬n.IsCount k) ∧ n.value ≠ 2 ^ 64 := by
  simp only [Option.eq_none_iff_forall_ne_some, ne_eq, count?_eq_some_iff hn, not_or, not_and]
  exact ⟨fun h => ⟨fun k => (h k).1, fun hlimit => (h _).2 hlimit rfl⟩,
    fun h k => ⟨h.1 k, fun hlimit => (h.2 hlimit).elim⟩⟩

theorem not_isCount_of_limit (h : n.value = 2 ^ 64) (k : Nat) : ¬n.IsCount k := by
  rintro ⟨hk, hlt⟩
  have heq : k = 2 ^ 64 := by
    rw [h] at hk
    exact_mod_cast hk.symm
  omega

end Number

/-! ## The catalog -/

namespace Catalog

/-- The kinds of keywords that are counts. -/
def counts : List KeywordKind :=
  [.minLength, .maxLength, .minItems, .maxItems, .minProperties, .maxProperties]

/-- The entry of a kind of counts. -/
def countEntry (kind : KeywordKind) : CatalogEntry :=
  ⟨kind.key, kind, .integer, draftsOf kind, .nonNegativeInteger⟩

/-- The key of a kind of counts has no other entry, and the kind has no other key. -/
theorem candidates_count : ∀ kind ∈ counts, candidates kind.key = [countEntry kind] := by
  decide

theorem key_of_count : ∀ entry ∈ entries, entry.kind ∈ counts → entry.key = entry.kind.key := by
  decide

theorem applicable_count {kind : KeywordKind} (hk : kind ∈ counts) {active : DraftSet}
    (ha : (draftsOf kind).intersects active = true) :
    applicable kind.key active = [countEntry kind] := by
  rw [applicable, candidates_count kind hk]
  exact List.filter_cons_of_pos ha

end Catalog

/-! ## Reading -/

/-- One issue has been recorded in a session, about a place, and nothing else has changed. -/
def Session.Reports (s s' : Session) (location : Location) : Prop :=
  ∃ severity kind message, s' = s.record severity kind location.document location.path message

namespace Digest

open LoadM Catalog

variable {kind : KeywordKind} {active : DraftSet} {n : Number} {load : Loader}
  {object : List (String × Json)} {builder : Builder} {s : Session}

/-- A whole number under the key of a count is left to the reading of counts. -/
theorem member_of_whole (hk : kind ∈ counts) (ha : (draftsOf kind).intersects active = true)
    (hn : Shape.ofNumber n = .integer) :
    member load active object kind.key (.number n) builder =
      tryCandidates load active object (builder.location.child kind.key) (.number n) builder
        [countEntry kind] := by
  have hmatching : [countEntry kind].filter (·.expects.accepts (Shape.of (.number n))) =
      [countEntry kind] := by
    rw [Shape.of, hn]
    rfl
  simp only [member, applicable_count hk ha, hmatching, List.isEmpty_cons, Bool.false_eq_true,
    if_false]

/-- A number with a fraction under the key of a count is reported for its shape. -/
theorem member_of_fraction (hk : kind ∈ counts) (ha : (draftsOf kind).intersects active = true)
    (hn : Shape.ofNumber n ≠ .integer) :
    member load active object kind.key (.number n) builder = do
      malformed .typeMismatch (builder.location.child kind.key)
        s!"'{kind.key}' expects {Shape.integer}, found {Shape.ofNumber n}"
      return builder := by
  have hmatching : [countEntry kind].filter (·.expects.accepts (Shape.of (.number n))) = [] := by
    have hmem := Shape.of_number n
    rw [Shape.of] at hmem ⊢
    rcases List.mem_pair.mp hmem with h | h
    · exact (hn h).elim
    · rw [h]
      rfl
  simp only [member, applicable_count hk ha, hmatching, List.isEmpty_cons, Bool.false_eq_true,
    if_false, List.isEmpty_nil, if_true]
  rfl

/-- What is counted becomes the keyword. -/
theorem runs_member_of_count (hk : kind ∈ counts) (ha : (draftsOf kind).intersects active = true)
    {k : Nat} (hn : n.count? = some k) (load : Loader) (object : List (String × Json))
    (builder : Builder) (s : Session) :
    Runs (member load active object kind.key (.number n) builder) s
      (.ok (builder.put kind (.count k))) s := by
  have hwhole : Shape.ofNumber n = .integer := by
    by_contra hfraction
    rw [Number.ofNumber_eq_integer_iff] at hfraction
    cases hn.symm.trans (Number.count?_of_not_integer hfraction)
  rw [member_of_whole hk ha hwhole]
  refine runs_bind_ok.mpr ⟨some (.count k), s, ?_, runs_pure.mpr ⟨rfl, rfl⟩⟩
  change Runs (count _ n) s (.ok (some (.count k))) s
  rw [count, hn]
  exact runs_pure.mpr ⟨rfl, rfl⟩

theorem runs_count_of_none (hn : n.count? = none) (site : Site) (s : Session) :
    ∃ s', Runs (count site n) s (.ok none) s' ∧ s.Reports s' site.location := by
  rw [count, hn]
  exact ⟨_, runs_bind_ok.mpr ⟨(), _, runs_malformed.mpr ⟨rfl, rfl⟩, runs_pure.mpr ⟨rfl, rfl⟩⟩,
    _, _, _, rfl⟩

/-- What is not counted is reported once, and nothing is made of it. -/
theorem runs_member_of_none (hk : kind ∈ counts) (ha : (draftsOf kind).intersects active = true)
    (hn : n.count? = none) (load : Loader) (object : List (String × Json)) (builder : Builder)
    (s : Session) :
    ∃ s', Runs (member load active object kind.key (.number n) builder) s (.ok builder) s' ∧
      s.Reports s' (builder.location.child kind.key) := by
  by_cases hwhole : Shape.ofNumber n = .integer
  · obtain ⟨s', hrun, hreports⟩ := runs_count_of_none hn
      { entry := countEntry kind, value := .number n, object,
        location := builder.location.child kind.key } s
    rw [member_of_whole hk ha hwhole]
    exact ⟨s', runs_bind_ok.mpr ⟨none, s', hrun, runs_pure.mpr ⟨rfl, rfl⟩⟩, hreports⟩
  · rw [member_of_fraction hk ha hwhole]
    exact ⟨_, runs_bind_ok.mpr ⟨(), _, runs_malformed.mpr ⟨rfl, rfl⟩, runs_pure.mpr ⟨rfl, rfl⟩⟩,
      _, _, _, rfl⟩

/-- A member of another key does not change what was counted. -/
theorem keyword?_of_other {key : String} {value : Json} {after : Builder} {s s' : Session}
    (hk : kind ∈ counts) (hkey : key ≠ kind.key)
    (h : Runs (member load active object key value builder) s (.ok after) s') :
    after.keyword? kind = builder.keyword? kind := by
  refine keyword?_of_member (fun entry he hkind => ?_) h
  obtain ⟨hentry, heq⟩ := mem_applicable he
  subst hkind
  exact hkey (heq.symm.trans (key_of_count entry hentry hk))

/-- The members of other keys do not change what was counted. -/
theorem keyword?_of_others {list : List (String × Json)} {after : Builder} {s s' : Session}
    (hk : kind ∈ counts) (hother : ∀ entry ∈ list, entry.1 ≠ kind.key)
    (h : Runs (members load active object list builder) s (.ok after) s') :
    after.keyword? kind = builder.keyword? kind := by
  induction list generalizing builder s with
  | nil =>
    cases (runs_pure.mp h).1
    rfl
  | cons entry rest ih =>
    obtain ⟨next, s₁, hm, h⟩ := runs_bind_ok.mp h
    rw [ih (fun e he => hother e (List.mem_cons_of_mem _ he)) h]
    exact keyword?_of_other hk (hother entry List.mem_cons_self) hm

/-- After all members of an object, the keyword is what was counted at its key. -/
theorem keyword?_of_members {list : List (String × Json)} {after : Builder} {s s' : Session}
    (hk : kind ∈ counts) (ha : (draftsOf kind).intersects active = true)
    (hs : (Entries.keys list).Nodup) (hm : (kind.key, .number n) ∈ list)
    (hb : builder.keyword? kind = none)
    (h : Runs (members load active object list builder) s (.ok after) s') :
    after.keyword? kind = n.count?.map .count := by
  induction list generalizing builder s with
  | nil => cases hm
  | cons entry rest ih =>
    obtain ⟨hfirst, hrest⟩ := List.nodup_cons.mp hs
    obtain ⟨next, s₁, hentry, hafter⟩ := runs_bind_ok.mp h
    rcases List.mem_cons.mp hm with heq | hm
    · subst heq
      have hothers : ∀ e ∈ rest, e.1 ≠ kind.key := by
        intro e he heq
        have hkey : e.1 ∈ Entries.keys rest := List.mem_map_of_mem he
        exact hfirst (heq ▸ hkey)
      rw [keyword?_of_others hk hothers hafter]
      cases hn : n.count? with
      | some k =>
        cases ((runs_member_of_count hk ha hn load object builder s).unique hentry).1
        exact (Entries.get?_insert ..).trans (if_pos rfl)
      | none =>
        obtain ⟨_, hrun, -⟩ := runs_member_of_none hk ha hn load object builder s
        cases (hrun.unique hentry).1
        exact hb
    · have hlater : kind.key ∈ Entries.keys rest := List.mem_map_of_mem hm
      have hkey : entry.1 ≠ kind.key := by
        intro heq
        rw [← heq] at hlater
        exact hfirst hlater
      exact ih hrest hm ((keyword?_of_other hk hkey hentry).trans hb) hafter

/-! ## Exactness -/

/-- What a number is to lead to under the key of a count: a natural number of 64 bits becomes the
keyword as it is, and for any other number one issue is recorded and nothing else. -/
def CountsExactly (kind : KeywordKind) (n : Number) (builder after : Builder) (s s' : Session) :
    Prop :=
  (∀ k, n.IsCount k → after = builder.put kind (.count k) ∧ s' = s) ∧
    ((∀ k, ¬n.IsCount k) → after = builder ∧ s.Reports s' (builder.location.child kind.key))

/-- Recording an issue changes a session. -/
theorem not_reports_self (s : Session) (location : Location) : ¬s.Reports s location := by
  rintro ⟨severity, kind, message, h⟩
  have hissues := congrArg (fun s : Session => s.report.issues.length) h
  simp [Session.record, Report.record] at hissues

/-- What is counted is exact unless it is the limit. -/
theorem countsExactly_of_some {k : Nat} (hn : n.IsHeld) (hcount : n.count? = some k)
    (builder : Builder) (s : Session) :
    CountsExactly kind n builder (builder.put kind (.count k)) s s ↔ n.value ≠ 2 ^ 64 := by
  constructor
  · rintro ⟨-, hreports⟩ hlimit
    exact not_reports_self s _ (hreports (Number.not_isCount_of_limit hlimit)).2
  · intro hlimit
    have hexact : n.IsCount k :=
      ((Number.count?_eq_some_iff hn).mp hcount).resolve_right fun h => hlimit h.1
    refine ⟨fun other hother => ?_, fun hnone => (hnone k hexact).elim⟩
    have heq : other = k := by exact_mod_cast hother.1.symm.trans hexact.1
    rw [heq]
    exact ⟨rfl, rfl⟩

theorem keyword_exact_iff (hn : n.IsHeld) :
    (∀ l : Keyword Schema, n.count?.map .count = some l ↔ ∃ k, l = .count k ∧ n.IsCount k) ↔
      n.value ≠ 2 ^ 64 := by
  constructor
  · intro hexact hlimit
    have hcount : n.count? = some (2 ^ 64 - 1) :=
      (Number.count?_eq_some_iff hn).mpr (Or.inr ⟨hlimit, rfl⟩)
    obtain ⟨k, -, hk⟩ := (hexact _).mp (congrArg (Option.map Keyword.count) hcount)
    exact Number.not_isCount_of_limit hlimit k hk
  · intro hlimit l
    simp only [Option.map_eq_some_iff, Number.count?_eq_some_iff hn, hlimit, false_and, or_false]
    exact ⟨fun ⟨k, hk, hl⟩ => ⟨k, hl.symm, hk⟩, fun ⟨k, hl, hk⟩ => ⟨k, hk, hl.symm⟩⟩

/-- Counts are read exactly, unless the number is `2 ^ 64`, which is taken for the number before
it. So they are in the keywords of an object. -/
theorem countsExactly_iff (hk : kind ∈ counts) (ha : (draftsOf kind).intersects active = true)
    (hn : n.IsHeld) (load : Loader) (object : List (String × Json)) :
    (∀ builder s, ∃ after s',
      Runs (member load active object kind.key (.number n) builder) s (.ok after) s' ∧
        (CountsExactly kind n builder after s s' ↔ n.value ≠ 2 ^ 64) ∧
        (n.value = 2 ^ 64 → after = builder.put kind (.count (2 ^ 64 - 1)) ∧ s' = s)) ∧
    ∀ location draft s after s', (Entries.keys object).Nodup → (kind.key, .number n) ∈ object →
      Runs (members load active object object (.new location draft)) s (.ok after) s' →
        ((∀ l, after.keyword? kind = some l ↔ ∃ k, l = .count k ∧ n.IsCount k) ↔
          n.value ≠ 2 ^ 64) := by
  constructor
  · intro builder s
    cases hcount : n.count? with
    | some k =>
      refine ⟨_, s, runs_member_of_count hk ha hcount load object builder s,
        countsExactly_of_some hn hcount builder s, fun hlimit => ?_⟩
      obtain ⟨-, rfl⟩ := ((Number.count?_eq_some_iff hn).mp hcount).resolve_left
        (Number.not_isCount_of_limit hlimit k)
      exact ⟨rfl, rfl⟩
    | none =>
      obtain ⟨hnone, hlimit⟩ := (Number.count?_eq_none_iff hn).mp hcount
      obtain ⟨s', hrun, hreports⟩ := runs_member_of_none hk ha hcount load object builder s
      have hexact : CountsExactly kind n builder builder s s' :=
        ⟨fun k h => (hnone k h).elim, fun _ => ⟨rfl, hreports⟩⟩
      exact ⟨builder, s', hrun, iff_of_true hexact hlimit, fun h => (hlimit h).elim⟩
  · intro location draft s after s' hs hm h
    rw [keyword?_of_members hk ha hs hm rfl h]
    exact keyword_exact_iff hn

/-- The greatest floating point number below `2 ^ 64`. -/
def justBelow : Number := .float ⟨false, 2 ^ 53 - 1, 11⟩

/-- The greatest floating point number that is a count is read as it is. -/
theorem countsExactly_of_justBelow : KeywordKind.maxItems ∈ counts ∧
    (draftsOf .maxItems).intersects .all = true ∧ justBelow.IsHeld ∧ justBelow.value ≠ 2 ^ 64 ∧
    justBelow.IsCount 18446744073709549568 ∧ ∃ after s',
      Runs (members (fun _ _ => pure none) .all [("maxItems", .number justBelow)]
        [("maxItems", .number justBelow)] (.new default .draft7)) default (.ok after) s' ∧
      s' = default ∧ after.keyword? .maxItems = some (.count 18446744073709549568) := by
  have hk : KeywordKind.maxItems ∈ counts := by decide
  have ha : (draftsOf .maxItems).intersects .all = true := by decide
  have hvalue : justBelow.value = 18446744073709549568 := by
    rw [justBelow, show (11 : Int) = (11 : Nat) from rfl, Binary64.value_of_natural]
    norm_num
  have hcount : justBelow.IsCount 18446744073709549568 := ⟨by rw [hvalue]; norm_num, by norm_num⟩
  have hlimit : justBelow.value ≠ 2 ^ 64 := by
    rw [hvalue]
    norm_num
  obtain ⟨hstep, hobject⟩ := countsExactly_iff (n := justBelow) hk ha trivial (fun _ _ => pure none)
    [("maxItems", .number justBelow)]
  obtain ⟨after, s', hrun, hexact, -⟩ := hstep (.new default .draft7) default
  have hmembers : Runs (members (fun _ _ => pure none) .all [("maxItems", .number justBelow)]
      [("maxItems", .number justBelow)] (.new default .draft7)) default (.ok after) s' :=
    runs_bind_ok.mpr ⟨after, s', hrun, runs_pure.mpr ⟨rfl, rfl⟩⟩
  have hread := hobject default .draft7 default after s' (by decide) List.mem_cons_self hmembers
  exact ⟨hk, ha, trivial, hlimit, hcount, after, s', hmembers,
    ((hexact.mpr hlimit).1 _ hcount).2, (hread.mpr hlimit _).mpr ⟨_, rfl, hcount⟩⟩

/-- A document with one number under the key of a count, as a numeral is read. -/
def numbered (numeral : String) : Json :=
  .object [("minLength", (Json.read numeral).getD .null)]

/-- The number `2 ^ 64` is no count, but is read as one without an issue. -/
theorem counts_limit : ∃ n, (Json.read "18446744073709551616").bind Json.number? = some n ∧
    n.IsHeld ∧ n.value = 2 ^ 64 ∧ (∀ k, ¬n.IsCount k) ∧
    (((ExceptT.run (Workspace.readReporting .standard
        ⟨"http", some "e.com", .segments ["r.json"], none, none⟩
        (numbered "18446744073709551616"))).run .empty).1.toOption.map fun (s, report) =>
          (s.count? .minLength, report.issues.length)) = some (some (2 ^ 64 - 1), 0) := by
  have hvalue : (Number.float ⟨false, 2 ^ 52, 12⟩).value = 2 ^ 64 := by
    rw [show (12 : Int) = (12 : Nat) from rfl, Binary64.value_of_natural]
    norm_num
  exact ⟨.float ⟨false, 2 ^ 52, 12⟩, by decide +kernel, trivial, hvalue,
    Number.not_isCount_of_limit hvalue, by decide +kernel⟩

end Digest
end SchemaAtlas
