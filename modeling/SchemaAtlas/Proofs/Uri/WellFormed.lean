import SchemaAtlas.Proofs.Pointer.Derived
import SchemaAtlas.Proofs.Uri.Marks

/-!
# Well-formed URIs

A URI is kept in parts. That its written form can be taken apart again depends on which signs
the parts are free of, and on the first sign of a path that stands without an authority. What
the reader gives is well-formed in this sense, and so is every URI made from others
(`Produced.wellFormed`).
-/

namespace SchemaAtlas

/-- The signs that a segment is free of. -/
def Uri.segmentMarks : List Char := ['/', '?', '#']

open Uri (marks segmentMarks)

/-- A path after this authority. Without an authority an opaque path does not start with a
slash, and one of segments is not empty and has no segment that is a point, which stands in
front of two slashes. -/
def UriPath.WellFormed (authority : Option String) : UriPath → Prop
  | .opaqueText text =>
    authority = none ∧ Lacks text.toList ['?', '#'] ∧ text.toList.head? ≠ some '/'
  | .segments list =>
    (∀ segment ∈ list, Lacks segment.toList segmentMarks) ∧
      (authority = none → list ≠ [] ∧ "." ∉ list)

namespace Uri

structure WellFormed (uri : Uri) : Prop where
  scheme : Lacks uri.scheme.toList [':', '|']
  authority : ∀ authority ∈ uri.authority, Lacks authority.toList marks
  path : uri.path.WellFormed uri.authority
  query : ∀ query ∈ uri.query, '#' ∉ query.toList

variable {cls : SchemeClass} {parts : Parts} {uri base : Uri} {cs : List Char}

/-! ## Parts -/

theorem query_plain (parts : Parts) (cls : SchemeClass) :
    ∀ query ∈ parts.queryText cls, '#' ∉ query.toList := by
  intro query hquery
  obtain ⟨cs, -, rfl⟩ := Option.map_eq_some_iff.mp hquery
  rw [String.toList_ofList]
  have hlacks : Lacks (Percent.encodeChars (isQueryEscaped cls.isSpecial) cs) ['#'] := by
    refine Percent.lacks_encodeChars (by decide) fun c _ hsign => ?_
    rw [List.mem_singleton.mp hsign]
    cases cls <;> rfl
  exact fun hmem => hlacks '#' hmem List.mem_cons_self

theorem body_plain (cs : List Char) : Lacks (Parts.of cs).body ['?', '#'] := by
  intro c hc hsign
  have hkept := List.mem_takeWhile_imp hc
  rcases List.mem_cons.mp hsign with rfl | hsign
  · exact absurd hkept (by decide)
  · rw [List.mem_singleton.mp hsign] at hkept
    exact absurd hkept (by decide)

/-- What is not kept in lower case becomes a letter. -/
theorem toLower_cases (c : Char) :
    c.toLower = c ∨ 97 ≤ c.toLower.toNat ∧ c.toLower.toNat ≤ 122 := by
  unfold Char.toLower
  split
  · rename_i h
    have hfirst : 65 ≤ c.val.toNat := UInt32.le_iff_toNat_le.mp h.1
    have hlast : c.val.toNat ≤ 90 := UInt32.le_iff_toNat_le.mp h.2
    have hsum : (c.val + ('a'.val - 'A'.val)).toNat = (c.val.toNat + 32) % 2 ^ 32 :=
      UInt32.toNat_add ..
    refine Or.inr ?_
    change 97 ≤ (c.val + ('a'.val - 'A'.val)).toNat ∧ (c.val + ('a'.val - 'A'.val)).toNat ≤ 122
    omega
  · exact Or.inl rfl

theorem scheme_plain {scheme : String} {rest : List Char}
    (h : splitScheme? cs = some (scheme, rest)) : Lacks scheme.toList [':', '|'] := by
  have hlower : ∀ c : Char, c.toLower ∈ [':', '|'] → isSchemeChar c = false := by
    intro c hc
    have hother : [':', '|'].all fun sign =>
        !isSchemeChar sign && (sign.toNat < 97 || 122 < sign.toNat) := by decide
    have hplain := List.all_eq_true.mp hother _ hc
    simp only [Bool.and_eq_true, Bool.not_eq_true', Bool.or_eq_true, decide_eq_true_eq] at hplain
    rcases toLower_cases c with heq | hletter
    · rw [heq] at hplain
      exact hplain.1
    · omega
  unfold splitScheme? at h
  simp only at h
  repeat' split at h
  all_goals cases h
  rw [String.toList_ofList]
  intro c hc hsign
  obtain ⟨d, hd, rfl⟩ := List.mem_map.mp hc
  cases (List.mem_takeWhile_imp hd).symm.trans (hlower d hsign)

/-! ## Segments -/

/-- A segment that the reader adds to a path. -/
def IsSegment (segment : String) : Prop :=
  Lacks segment.toList segmentMarks ∧ segment ≠ "."

theorem isSegment_empty : IsSegment "" := ⟨by decide, by decide⟩

theorem encodeChars_eq_point {escaped : Char → Bool}
    (h : Percent.encodeChars escaped cs = ['.']) : cs = ['.'] := by
  obtain ⟨rest, rfl, hrest⟩ := head?_encodeChars (by decide) (by decide) (h ▸ List.head?_cons)
  rw [h] at hrest
  have hnone := List.flatMap_eq_nil_iff.mp (List.cons.inj hrest).2.symm
  rw [List.eq_nil_iff_forall_not_mem.mpr fun c hc => encodeChar_ne_nil escaped c (hnone c hc)]

theorem isSegment_encoded {segment : List Char} (hslash : '/' ∉ segment)
    (hpoint : isSingleDot segment = false) :
    IsSegment (String.ofList (Percent.encodeChars isPathEscaped segment)) := by
  constructor
  · rw [String.toList_ofList]
    refine Percent.lacks_encodeChars (by decide) fun c hc hsign => ?_
    have hall : segmentMarks.all fun c => c == '/' || isPathEscaped c := by decide
    rcases Bool.or_eq_true_iff.mp (List.all_eq_true.mp hall c hsign) with heq | hescaped
    · exact absurd (beq_iff_eq.mp heq ▸ hc) hslash
    · exact hescaped
  · intro heq
    have hchars := congrArg String.toList heq
    rw [String.toList_ofList] at hchars
    rw [encodeChars_eq_point hchars] at hpoint
    exact absurd hpoint (by decide)

theorem isSegment_drive {letter sign : Char} (h : isDriveLetter [letter, sign] = true) :
    IsSegment (String.ofList [letter, ':']) := by
  have halpha : letter.isAlpha = true := (Bool.and_eq_true_iff.mp h).1
  have hletter : letter ∉ segmentMarks := by
    intro hmem
    have hall : segmentMarks.all (! ·.isAlpha) = true := by decide
    have hother := List.all_eq_true.mp hall letter hmem
    rw [halpha] at hother
    cases hother
  constructor
  · rw [String.toList_ofList, lacks_cons]
    exact ⟨hletter, by decide⟩
  · intro heq
    have hchars := congrArg String.toList heq
    rw [String.toList_ofList] at hchars
    cases hchars

theorem mem_shorten {path : List String} {segment : String} (h : segment ∈ shorten cls path) :
    segment ∈ path := by
  unfold shorten at h
  split at h
  · exact h
  · exact (List.dropLast_sublist path).subset h

theorem mem_appendSegment {path : List String} {written : List Char} {last : Bool}
    (hslash : '/' ∉ written) {segment : String}
    (h : segment ∈ appendSegment cls path written last) : segment ∈ path ∨ IsSegment segment := by
  have happend : ∀ {path' : List String} {added : String}, (∀ s ∈ path', s ∈ path) →
      IsSegment added → segment ∈ path' ++ [added] → segment ∈ path ∨ IsSegment segment := by
    intro path' added hpath hadded hmem
    rcases List.mem_append.mp hmem with hmem | hmem
    · exact Or.inl (hpath _ hmem)
    · rw [List.mem_singleton.mp hmem]
      exact Or.inr hadded
  unfold appendSegment at h
  split at h
  · split at h
    · exact happend (fun _ => mem_shorten) isSegment_empty h
    · exact Or.inl (mem_shorten h)
  · rename_i hpoint
    split at h
    · split at h
      · exact happend (fun _ => id) isSegment_empty h
      · exact Or.inl h
    · rename_i hpoint
      have hencoded := isSegment_encoded hslash (Bool.eq_false_iff.mpr hpoint)
      split at h
      · split at h
        · rename_i hdrive
          rw [List.mem_singleton.mp h]
          exact Or.inr (isSegment_drive (Bool.and_eq_true_iff.mp hdrive).2)
        · exact happend (fun _ => id) hencoded h
      · exact happend (fun _ => id) hencoded h

theorem appendSegment_last_ne_nil (cls : SchemeClass) (path : List String)
    (written : List Char) : appendSegment cls path written true ≠ [] := by
  unfold appendSegment
  repeat' split
  all_goals simp_all

theorem splitSegments_ne_nil (cls : SchemeClass) (cs : List Char) :
    splitSegments cls cs ≠ [] := by
  cases cs with
  | nil => exact List.cons_ne_nil _ _
  | cons c rest =>
    rw [splitSegments]
    repeat' split
    all_goals exact List.cons_ne_nil _ _

theorem slash_not_mem_of_mem_splitSegments {written : List Char}
    (h : written ∈ splitSegments cls cs) : '/' ∉ written := by
  have hslash : isSlash cls '/' = true := rfl
  induction cs generalizing written with
  | nil =>
    rw [List.mem_singleton.mp h]
    exact List.not_mem_nil
  | cons c rest ih =>
    rw [splitSegments] at h
    split at h
    · rcases List.mem_cons.mp h with rfl | h
      · exact List.not_mem_nil
      · exact ih h
    · rename_i hc
      have hne : '/' ≠ c := by
        rintro rfl
        exact hc hslash
      split at h
      · rw [List.mem_singleton.mp h, List.mem_singleton]
        exact hne
      · rename_i heq
        rcases List.mem_cons.mp h with rfl | h
        · refine List.not_mem_cons_of_ne_of_not_mem hne (ih ?_)
          rw [heq]
          exact List.mem_cons_self
        · refine ih ?_
          rw [heq]
          exact List.mem_cons_of_mem _ h

theorem mem_appendSegments {path : List String} {written : List (List Char)}
    (hslash : ∀ segment ∈ written, '/' ∉ segment) {segment : String}
    (h : segment ∈ appendSegments cls path written) : segment ∈ path ∨ IsSegment segment := by
  induction written generalizing path with
  | nil => exact Or.inl h
  | cons first rest ih =>
    have hfirst := hslash first List.mem_cons_self
    cases rest with
    | nil => exact mem_appendSegment hfirst h
    | cons next rest =>
      rcases ih (fun s hs => hslash s (List.mem_cons_of_mem _ hs)) h with h | h
      · exact mem_appendSegment hfirst h
      · exact Or.inr h

theorem appendSegments_ne_nil {path : List String} {written : List (List Char)}
    (h : written ≠ []) : appendSegments cls path written ≠ [] := by
  induction written generalizing path with
  | nil => exact absurd rfl h
  | cons first rest ih =>
    cases rest with
    | nil => exact appendSegment_last_ne_nil cls path first
    | cons next rest => exact ih (List.cons_ne_nil _ _)

theorem mem_withoutLeadingEmpty {path : List String} {segment : String}
    (h : segment ∈ withoutLeadingEmpty path) : segment ∈ path ∨ IsSegment segment := by
  unfold withoutLeadingEmpty at h
  split at h
  · rw [List.mem_singleton.mp h]
    exact Or.inr isSegment_empty
  · exact Or.inl ((List.dropWhile_sublist _).subset h)

theorem withoutLeadingEmpty_ne_nil (path : List String) : withoutLeadingEmpty path ≠ [] := by
  unfold withoutLeadingEmpty
  split
  · exact List.cons_ne_nil _ _
  · assumption

theorem mem_pathFrom {start : List String} {segment : String}
    (h : segment ∈ pathFrom cls start cs) : segment ∈ start ∨ IsSegment segment := by
  have hslash : ∀ written ∈ splitSegments cls cs, '/' ∉ written :=
    fun _ => slash_not_mem_of_mem_splitSegments
  unfold pathFrom at h
  simp only at h
  split at h
  · rcases mem_withoutLeadingEmpty h with h | h
    · exact mem_appendSegments hslash h
    · exact Or.inr h
  · exact mem_appendSegments hslash h

theorem pathFrom_ne_nil (cls : SchemeClass) (start : List String) (cs : List Char) :
    pathFrom cls start cs ≠ [] := by
  unfold pathFrom
  simp only
  split
  · exact withoutLeadingEmpty_ne_nil _
  · exact appendSegments_ne_nil (splitSegments_ne_nil cls cs)

theorem lacks_pathFrom {start : List String}
    (h : ∀ segment ∈ start, Lacks segment.toList segmentMarks) :
    ∀ segment ∈ pathFrom cls start cs, Lacks segment.toList segmentMarks :=
  fun segment hmem => (mem_pathFrom hmem).elim (h segment) And.left

theorem lacks_pathAfterAuthority :
    ∀ segment ∈ pathAfterAuthority cls cs, Lacks segment.toList segmentMarks := by
  unfold pathAfterAuthority
  split
  · split
    · rintro segment (_ | ⟨_, ⟨⟩⟩)
      exact lacks_nil _
    · exact nofun
  · exact lacks_pathFrom nofun

/-- A path that the reader extends. -/
theorem wellFormed_pathFrom {authority : Option String} {start : List String}
    (h : ∀ segment ∈ start, Lacks segment.toList segmentMarks ∧
      (authority = none → segment ≠ ".")) :
    (UriPath.segments (pathFrom cls start cs)).WellFormed authority := by
  refine ⟨fun segment hmem => ?_, fun hnone => ⟨pathFrom_ne_nil _ _ _, fun hmem => ?_⟩⟩
  · exact (mem_pathFrom hmem).elim (fun hmem => (h segment hmem).1) And.left
  · exact (mem_pathFrom hmem).elim (fun hmem => (h "." hmem).2 hnone rfl) fun h => h.2 rfl

theorem WellFormed.segment (h : uri.WellFormed) : ∀ segment ∈ uri.path.list,
    Lacks segment.toList segmentMarks ∧ (uri.authority = none → segment ≠ ".") := by
  obtain ⟨scheme, authority, path, query, fragment⟩ := uri
  cases path with
  | opaqueText => rintro segment ⟨⟩
  | segments list =>
    refine fun segment hmem => ⟨h.path.1 segment hmem, ?_⟩
    rintro hnone rfl
    exact (h.path.2 hnone).2 hmem

/-! ## Authorities -/

theorem lacks_splitUser (cls : SchemeClass) (cs : List Char) :
    Lacks (splitUser cls cs).1.toList marks := by
  have hencode : ∀ cs : List Char, Lacks (String.ofList (Percent.encodeChars isUserEscaped
      cs)).toList marks := by
    intro cs
    rw [String.toList_ofList]
    refine Percent.lacks_encodeChars (List.Subset.refl _) fun c _ hmark => ?_
    have hall : marks.all isUserEscaped = true := by decide
    exact List.all_eq_true.mp hall c hmark
  unfold splitUser
  simp only
  split
  · split
    · exact lacks_nil _
    · exact lacks_nil _
  · simp only
    split
    · split
      · exact lacks_nil _
      · rw [String.toList_append, lacks_append]
        exact ⟨hencode _, by decide⟩
    · simp only [String.toList_append, lacks_append]
      exact ⟨⟨⟨hencode _, by decide⟩, hencode _⟩, by decide⟩

end Uri

end SchemaAtlas
