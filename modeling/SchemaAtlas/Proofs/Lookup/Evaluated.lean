import SchemaAtlas.Proofs.Lookup.Declared

/-!
# Paths as JSON pointers

By the rules of JSON pointers (RFC 6901) a segment names an element of an array only if it is
zero, or digits of which the first is not zero. `Lookup.navigate` also takes an index with zeros in
front or with a plus sign. `Lookup.navigate_eq_evaluate_iff` says that it follows these rules
otherwise, and that padded indices are the only way in which two paths lead to one position.
-/

namespace SchemaAtlas

/-! ## Indices -/

theorem digit_bounds {c : Char} (h : c.isDigit = true) : 48 ≤ c.toNat ∧ c.toNat ≤ 57 := by
  simp only [Char.isDigit, Bool.and_eq_true, decide_eq_true_eq] at h
  exact h

theorem digitChar_of_digit {c : Char} (h : c.isDigit = true) :
    (c.toNat - '0'.toNat).digitChar = c := by
  have hbounds := digit_bounds h
  have hzero : '0'.toNat = 48 := rfl
  apply Char.toNat_inj.mp
  rw [Nat.toNat_digitChar_of_lt_ten (by omega)]
  omega

/-- Digits behind a number extend its decimal form. -/
theorem toDigits_ofDigitChars {cs : List Char} (h : cs.all Char.isDigit = true) {n : Nat}
    (hn : 0 < n) : Nat.toDigits 10 (Nat.ofDigitChars 10 cs n) = Nat.toDigits 10 n ++ cs := by
  induction cs generalizing n with
  | nil => rw [Nat.ofDigitChars_nil, List.append_nil]
  | cons c cs ih =>
    obtain ⟨hc, hcs⟩ := Bool.and_eq_true_iff.mp (List.all_cons ▸ h)
    have hbounds := digit_bounds hc
    have hzero : '0'.toNat = 48 := rfl
    have hlt : c.toNat - '0'.toNat < 10 := by omega
    rw [Nat.ofDigitChars_cons, ih hcs (by omega), ← Nat.toDigits_append_toDigits (by decide) hn hlt,
      Nat.toDigits_of_lt_base hlt, digitChar_of_digit hc, List.append_assoc, List.singleton_append]

namespace Json

/-- The index that a segment is: zero, or digits of which the first is not zero. -/
def arrayIndex? (segment : String) : Option Nat :=
  match segment.toList with
  | [] => none
  | c :: rest =>
    if c = '0' then
      if rest.isEmpty then some 0 else none
    else if (c :: rest).all Char.isDigit then some (Nat.ofDigitChars 10 (c :: rest) 0)
    else none

theorem toList_toString (i : Nat) : (toString i).toList = Nat.toDigits 10 i := Nat.toList_repr

/-- A text of digits without a zero in front is the decimal form of its number. -/
theorem toDigits_of_digits {c : Char} {rest : List Char} (hc : c ≠ '0')
    (h : (c :: rest).all Char.isDigit = true) :
    Nat.toDigits 10 (Nat.ofDigitChars 10 (c :: rest) 0) = c :: rest := by
  obtain ⟨hdigit, hrest⟩ := Bool.and_eq_true_iff.mp (List.all_cons ▸ h)
  have hbounds := digit_bounds hdigit
  have hzero : '0'.toNat = 48 := rfl
  have hne : c.toNat ≠ 48 := fun heq => hc (Char.toNat_inj.mp heq)
  have hlt : c.toNat - '0'.toNat < 10 := by omega
  rw [Nat.ofDigitChars_cons, Nat.mul_zero, Nat.zero_add, toDigits_ofDigitChars hrest (by omega),
    Nat.toDigits_of_lt_base hlt, digitChar_of_digit hdigit, List.singleton_append]

/-- The decimal form of a number that is not zero has no zero in front. -/
theorem head?_toDigits {i : Nat} (hi : 0 < i) : (Nat.toDigits 10 i).head? ≠ some '0' := by
  induction i using Nat.strongRecOn with
  | _ i ih =>
    rw [Nat.toDigits_eq_if (by decide)]
    split
    · intro h
      exact hi.ne' (Nat.digitChar_eq_zero.mp (Option.some.inj h))
    · rename_i hten
      obtain ⟨c, rest, hl⟩ := List.exists_cons_of_ne_nil
        (Nat.toDigits_ne_nil : Nat.toDigits 10 (i / 10) ≠ [])
      have hrest := ih (i / 10) (by omega) (by omega)
      rw [hl] at hrest ⊢
      exact hrest

/-- An index is the decimal form of a number. -/
theorem arrayIndex?_eq_some_iff {segment : String} {i : Nat} :
    arrayIndex? segment = some i ↔ segment = toString i := by
  constructor
  · intro h
    apply String.toList_injective
    rw [toList_toString]
    unfold arrayIndex? at h
    split at h
    · cases h
    · rename_i c rest hl
      rw [hl]
      split at h
      · rename_i hc
        split at h
        · rename_i hrest
          cases h
          rw [hc, List.isEmpty_iff.mp hrest]
          rfl
        · cases h
      · rename_i hc
        split at h
        · rename_i hall
          cases h
          exact (toDigits_of_digits hc hall).symm
        · cases h
  · rintro rfl
    obtain ⟨c, rest, hl⟩ := List.exists_cons_of_ne_nil
      (Nat.toDigits_ne_nil : Nat.toDigits 10 i ≠ [])
    have hvalue : Nat.ofDigitChars 10 (c :: rest) 0 = i := hl ▸ Nat.ofDigitChars_ten_toDigits
    have hdigits : (c :: rest).all Char.isDigit = true := by
      rw [← hl, List.all_eq_true]
      exact fun c hc => Nat.isDigit_of_mem_toDigits (by decide) (by decide) hc
    simp only [arrayIndex?, toList_toString, hl]
    split
    · rename_i hc
      have hi : i = 0 := by
        by_contra hne
        exact head?_toDigits (Nat.pos_of_ne_zero hne) (by rw [hl, hc]; rfl)
      subst hi
      cases hl
      rfl
    · rw [hvalue]

/-- A plus sign, or a zero with something behind it. -/
def isPadded (segment : String) : Bool :=
  match segment.toList with
  | [] => false
  | c :: rest => decide (c = '+') || (decide (c = '0') && !rest.isEmpty)

theorem arrayIndex?_of_padded {segment : String} (h : isPadded segment = true) :
    arrayIndex? segment = none := by
  unfold isPadded at h
  split at h
  · cases h
  · rename_i c rest hl
    rw [arrayIndex?, hl]
    simp only [Bool.or_eq_true, decide_eq_true_eq, Bool.and_eq_true, Bool.not_eq_true'] at h
    rcases h with rfl | ⟨rfl, hrest⟩
    · rfl
    · simp [hrest]

theorem index?_of_not_plus {c : Char} {rest : List Char} {segment : String}
    (hl : segment.toList = c :: rest) (hc : c ≠ '+') :
    Lookup.index? segment =
      if (c :: rest).all Char.isDigit then
        (some (Nat.ofDigitChars 10 (c :: rest) 0)).filter fun i => decide (i < Nat.pow 2 64)
      else none := by
  unfold Lookup.index?
  rw [hl]
  split
  · rename_i heq
    exact absurd (List.cons.inj heq).1 hc
  · rw [Nat.ofDigitChars_eq_foldl]
    by_cases hall : (c :: rest).all Char.isDigit = true
    · simp only [hall, Option.filter_some, decide_eq_true_eq, List.isEmpty_cons, Bool.not_true,
        Bool.or_self, Bool.false_eq_true, if_false, if_true]
      rfl
    · simp [hall]

/-- Without padding a segment is read as an index exactly if it is one, of at most 64 bits. -/
theorem index?_of_not_padded {segment : String} (h : isPadded segment = false) :
    Lookup.index? segment = (arrayIndex? segment).filter fun i => decide (i < Nat.pow 2 64) := by
  unfold isPadded at h
  split at h
  · rename_i hl
    simp [Lookup.index?, arrayIndex?, hl]
  · rename_i c rest hl
    simp only [Bool.or_eq_false_iff, decide_eq_false_iff_not, Bool.and_eq_false_imp,
      decide_eq_true_eq, Bool.not_eq_false'] at h
    obtain ⟨hplus, hzero⟩ := h
    rw [index?_of_not_plus hl hplus, arrayIndex?, hl]
    by_cases hc : c = '0'
    · subst hc
      rw [List.isEmpty_iff.mp (hzero rfl)]
      rfl
    · by_cases hall : (c :: rest).all Char.isDigit = true
      · simp only [hc, hall, if_false, if_true]
      · simp only [hc, hall, if_false]
        rfl

/-! ## Positions -/

/-- A step from a value to a value inside it. -/
inductive Turn where
  | member (name : String)
  | element (index : Nat)
  deriving DecidableEq, Repr

/-- The segment of a step. -/
def Turn.segment : Turn → String
  | .member name => name
  | .element index => toString index

/-- The value one step below another. -/
def below? : Turn → Json → Option Json
  | .member name, .object members => Entries.get? name members
  | .element index, .array elements => elements[index]?
  | _, _ => none

/-- The value at a position. -/
def follow? (turns : List Turn) (value : Json) : Option Json :=
  turns.foldlM (fun value turn => below? turn value) value

/-- The step that navigation takes for a segment. -/
def turn? (segment : String) : Json → Option Turn
  | .object _ => some (.member segment)
  | .array _ => (Lookup.index? segment).map .element
  | _ => none

/-- The position to which navigation follows a path, if there is a value. -/
def address? : List String → Json → Option (List Turn)
  | [], _ => some []
  | segment :: path, value =>
    (turn? segment value).bind fun turn =>
      (below? turn value).bind fun next => (address? path next).map (turn :: ·)

/-- The value at a path by the rules of JSON pointers. -/
def evaluate : List String → Json → Option Json
  | [], value => some value
  | segment :: path, .object members => (Entries.get? segment members).bind (evaluate path)
  | segment :: path, .array elements =>
    (arrayIndex? segment).bind fun index => elements[index]?.bind (evaluate path)
  | _ :: _, _ => none

/-- Whether an array is entered by a padded index. -/
def isPaddedAt (segment : String) : Json → Bool
  | .array _ => isPadded segment
  | _ => false

/-- A path leads through an array by a padded index. -/
def PassesPadded (path : List String) (value : Json) : Prop :=
  ∃ before segment after elements, path = before ++ segment :: after ∧
    value.at? before = some (.array elements) ∧ isPadded segment = true

variable {segment : String} {path : List String} {value next : Json} {turn : Turn}

theorem step?_eq (segment : String) (value : Json) :
    Lookup.step? segment value = (turn? segment value).bind fun turn => below? turn value := by
  cases value with
  | array elements =>
    rw [Lookup.step?, turn?, Option.bind_map]
    rfl
  | _ => rfl

/-- A step is taken for its own segment. -/
theorem turn?_segment (hs : value.all isStored = true) (h : below? turn value = some next) :
    turn? turn.segment value = some turn := by
  cases turn with
  | member name =>
    cases value with
    | object members => rfl
    | _ => cases h
  | element index =>
    cases value with
    | array elements =>
      have hlength : elements.length ≤ Nat.pow 2 64 := by simpa [isStored] using all_self hs
      have hlt : index < elements.length := (List.getElem?_eq_some_iff.mp h).1
      rw [turn?, Turn.segment, Lookup.index?_toString (by omega)]
      rfl
    | _ => cases h

/-- A segment is that of its step unless it is a padded index. -/
theorem segment_eq_iff (hturn : turn? segment value = some turn) :
    turn.segment = segment ↔ isPaddedAt segment value = false := by
  cases value with
  | object members =>
    cases hturn
    exact iff_of_true rfl rfl
  | array elements =>
    obtain ⟨index, hi, rfl⟩ := Option.map_eq_some_iff.mp hturn
    rw [Turn.segment, isPaddedAt]
    constructor
    · intro heq
      by_contra hpadded
      have hnone := arrayIndex?_of_padded (by simpa using hpadded)
      rw [arrayIndex?_eq_some_iff.mpr heq.symm] at hnone
      cases hnone
    · intro hplain
      rw [index?_of_not_padded hplain] at hi
      exact (arrayIndex?_eq_some_iff.mp (Option.filter_eq_some_iff.mp hi).1).symm
  | null | bool | number | string => cases hturn

/-- One step of a pointer is one step of navigation, unless the segment is a padded index. -/
theorem evaluate_cons (hs : value.all isStored = true) (segment : String) (path : List String) :
    evaluate (segment :: path) value =
      if isPaddedAt segment value then none
      else (Lookup.step? segment value).bind (evaluate path) := by
  cases value with
  | object members => rfl
  | array elements =>
    cases hpadded : isPadded segment with
    | true =>
      rw [evaluate, arrayIndex?_of_padded hpadded]
      simp [isPaddedAt, hpadded]
    | false =>
      have hlength : elements.length ≤ Nat.pow 2 64 := by simpa [isStored] using all_self hs
      simp only [isPaddedAt, hpadded, Bool.false_eq_true, if_false, evaluate, Lookup.step?,
        index?_of_not_padded hpadded]
      cases arrayIndex? segment with
      | none => rfl
      | some index =>
        by_cases hlt : index < Nat.pow 2 64
        · rw [Option.filter_some, if_pos (by simpa using hlt)]
          rfl
        · rw [Option.filter_some, if_neg (by simpa using hlt), Option.bind_some,
            List.getElem?_eq_none (by omega)]
          rfl
  | null | bool | number | string => rfl

theorem isPaddedAt_eq_true_iff :
    isPaddedAt segment value = true ↔
      ∃ elements, value = .array elements ∧ isPadded segment = true := by
  cases value with
  | array elements => simp [isPaddedAt]
  | _ => simp [isPaddedAt]

theorem not_passesPadded_nil (value : Json) : ¬ PassesPadded [] value := by
  rintro ⟨before, segment, after, elements, hpath, -⟩
  cases before <;> cases hpath

theorem passesPadded_cons :
    PassesPadded (segment :: path) value ↔
      isPaddedAt segment value = true ∨
        ∃ next, Lookup.step? segment value = some next ∧ PassesPadded path next := by
  constructor
  · rintro ⟨before, segment', after, elements, hpath, hat, hpadded⟩
    cases before with
    | nil =>
      cases hpath
      cases hat
      exact Or.inl hpadded
    | cons first before =>
      cases hpath
      rw [at?_cons] at hat
      obtain ⟨next, hstep, hat⟩ := Option.bind_eq_some_iff.mp hat
      exact Or.inr ⟨next, hstep, before, segment', after, elements, rfl, hat, hpadded⟩
  · rintro (h | ⟨next, hstep, before, segment', after, elements, rfl, hat, hpadded⟩)
    · obtain ⟨elements, rfl, hpadded⟩ := isPaddedAt_eq_true_iff.mp h
      exact ⟨[], segment, path, elements, rfl, rfl, hpadded⟩
    · refine ⟨segment :: before, segment', after, elements, rfl, ?_, hpadded⟩
      rw [at?_cons, hstep]
      exact hat

/-- A pointer has the value to which navigation leads, if no index on the way is padded. -/
theorem evaluate_eq_some_iff (hs : value.all isStored = true) {found : Json} :
    evaluate path value = some found ↔
      value.at? path = some found ∧ ¬ PassesPadded path value := by
  induction path generalizing value with
  | nil => exact ⟨fun h => ⟨h, not_passesPadded_nil value⟩, fun h => h.1⟩
  | cons segment path ih =>
    rw [evaluate_cons hs, at?_cons, passesPadded_cons]
    cases hpadded : isPaddedAt segment value with
    | true => simp
    | false =>
      cases hstep : Lookup.step? segment value with
      | none => simp
      | some next =>
        have hnext := ih (Lookup.all_step? hs hstep)
        simpa using hnext

/-- Navigation leads to the value at its position. -/
theorem at?_eq (path : List String) (value : Json) :
    value.at? path = (address? path value).bind fun turns => follow? turns value := by
  induction path generalizing value with
  | nil => rfl
  | cons segment path ih =>
    rw [at?_cons, step?_eq, address?]
    cases turn? segment value with
    | none => rfl
    | some turn =>
      cases hbelow : below? turn value with
      | none => simp [hbelow]
      | some next =>
        simp only [Option.bind_some, hbelow, ih, Option.bind_map]
        congr 1
        funext turns
        simp [follow?, hbelow]

variable {turns : List Turn}

theorem address?_cons (h : address? (segment :: path) value = some turns) :
    ∃ turn next rest, turn? segment value = some turn ∧ below? turn value = some next ∧
      address? path next = some rest ∧ turns = turn :: rest := by
  rw [address?] at h
  obtain ⟨turn, hturn, h⟩ := Option.bind_eq_some_iff.mp h
  obtain ⟨next, hnext, h⟩ := Option.bind_eq_some_iff.mp h
  obtain ⟨rest, hrest, rfl⟩ := Option.map_eq_some_iff.mp h
  exact ⟨turn, next, rest, hturn, hnext, hrest, rfl⟩

theorem stored_below? (hs : value.all isStored = true) (h : below? turn value = some next) :
    next.all isStored = true := by
  have hstep := step?_eq turn.segment value
  rw [turn?_segment hs h, Option.bind_some, h] at hstep
  exact Lookup.all_step? hs hstep

/-- The segments of a position lead to the position. -/
theorem address?_segments (hs : value.all isStored = true)
    (h : address? path value = some turns) :
    address? (turns.map Turn.segment) value = some turns := by
  induction path generalizing value turns with
  | nil =>
    cases h
    rfl
  | cons segment path ih =>
    obtain ⟨turn, next, rest, _, hnext, hrest, rfl⟩ := address?_cons h
    rw [List.map_cons, address?, turn?_segment hs hnext, Option.bind_some, hnext,
      Option.bind_some, ih (stored_below? hs hnext) hrest, Option.map_some]

/-- A path that leads to a position consists of the segments of the position exactly if none of
its indices is padded. -/
theorem segments_eq_iff (h : address? path value = some turns) :
    turns.map Turn.segment = path ↔ ¬ PassesPadded path value := by
  induction path generalizing value turns with
  | nil =>
    cases h
    exact iff_of_true rfl (not_passesPadded_nil value)
  | cons segment path ih =>
    obtain ⟨turn, next, rest, hturn, hnext, hrest, rfl⟩ := address?_cons h
    have hstep : Lookup.step? segment value = some next := by
      rw [step?_eq, hturn]
      exact hnext
    rw [List.map_cons, List.cons_eq_cons, segment_eq_iff hturn, ih hrest, passesPadded_cons,
      hstep]
    simp

end Json

namespace Lookup

open Json

/-- Navigation finds the value at the path, in whatever scopes. -/
theorem navigate_map_snd (keys : List String) (location : Location) (value : Json)
    (path : List String) :
    (navigate keys location value path).map Prod.snd = value.at? path := by
  induction path generalizing location value with
  | nil => rfl
  | cons segment path ih =>
    rw [navigate, Json.at?_cons]
    cases step? segment value with
    | none => rfl
    | some next => exact ih _ _

/-- Navigation agrees with the evaluation of a path as a pointer unless it finds a value for a
padded index. Only by such indices two paths lead to one position, and a path with one is never the
only path to its position. -/
theorem navigate_eq_evaluate_iff (keys : List String) (location : Location) {value : Json}
    (hs : value.all isStored = true) (path : List String) :
    ((navigate keys location value path).map Prod.snd = evaluate path value ↔
        ¬ ((navigate keys location value path).isSome ∧ PassesPadded path value)) ∧
      (navigate keys location value path).map Prod.snd =
        (address? path value).bind (fun turns => follow? turns value) ∧
      ∀ turns, address? path value = some turns →
        (PassesPadded path value ↔
          ∃ other ≠ path, ¬ PassesPadded other value ∧ address? other value = some turns) := by
  have hsome : (navigate keys location value path).isSome = (value.at? path).isSome := by
    rw [← navigate_map_snd keys location, Option.isSome_map]
  rw [hsome, navigate_map_snd]
  refine ⟨?_, at?_eq path value, fun turns hturns => ?_⟩
  · have hiff : ∀ found, evaluate path value = some found ↔
        value.at? path = some found ∧ ¬ PassesPadded path value :=
      fun _ => evaluate_eq_some_iff hs
    cases hat : value.at? path with
    | none =>
      have hnone : evaluate path value = none :=
        Option.eq_none_iff_forall_ne_some.mpr fun found h => by
          rw [hiff, hat] at h
          cases h.1
      simp [hnone]
    | some found =>
      rw [eq_comm, hiff, hat]
      simp
  · rw [← not_iff_comm.mp (segments_eq_iff hturns).symm]
    constructor
    · intro hne
      refine ⟨turns.map Turn.segment, hne, ?_, address?_segments hs hturns⟩
      exact (segments_eq_iff (address?_segments hs hturns)).mp rfl
    · rintro ⟨other, hne, hplain, hother⟩ hpath
      exact hne (((segments_eq_iff hother).mpr hplain).symm.trans hpath)

/-- A document with one element below a member. -/
def single : Json := .object [("items", .array [.object [("type", .string "string")]])]

/-- An index with a zero in front is no index of a pointer, but navigation finds the element, which
has a path of its own. -/
theorem navigate_padded :
    (navigate ["$id"] (.ofDocument default) single ["items", "00"]).map Prod.snd =
        some (.object [("type", .string "string")]) ∧
      Json.evaluate ["items", "00"] single = none ∧
      Json.address? ["items", "00"] single = Json.address? ["items", "0"] single ∧
      (navigate ["$id"] (.ofDocument default) single ["items", "00"]).map Prod.snd ≠
        Json.evaluate ["items", "00"] single := by
  have hfound : (navigate ["$id"] (.ofDocument default) single ["items", "00"]).map Prod.snd =
      some (.object [("type", .string "string")]) := rfl
  have hnone : Json.evaluate ["items", "00"] single = none := rfl
  refine ⟨hfound, hnone, by decide +kernel, ?_⟩
  rw [hfound, hnone]
  exact Option.some_ne_none _

/-- The element has one pointer, with which navigation agrees. -/
theorem navigate_eq_evaluate_single :
    single.all Json.isStored = true ∧ ¬ Json.PassesPadded ["items", "0"] single ∧
      (navigate ["$id"] (.ofDocument default) single ["items", "0"]).map Prod.snd =
        Json.evaluate ["items", "0"] single ∧
      Json.PassesPadded ["items", "00"] single := by
  have hstored : single.all Json.isStored = true := by decide +kernel
  have haddress : Json.address? ["items", "0"] single =
      some [.member "items", .element 0] := by decide +kernel
  have hplain : ¬ Json.PassesPadded ["items", "0"] single :=
    (Json.segments_eq_iff haddress).mp (by decide)
  obtain ⟨hagrees, -, -⟩ :=
    navigate_eq_evaluate_iff ["$id"] (.ofDocument default) hstored ["items", "0"]
  obtain ⟨-, -, hpadded⟩ :=
    navigate_eq_evaluate_iff ["$id"] (.ofDocument default) hstored ["items", "00"]
  have haddress' : Json.address? ["items", "00"] single =
      some [.member "items", .element 0] := by decide +kernel
  exact ⟨hstored, hplain, hagrees.mpr fun h => hplain h.2,
    (hpadded _ haddress').mpr ⟨_, by decide, hplain, haddress⟩⟩

end Lookup

end SchemaAtlas
