import SchemaAtlas.Proofs.Uri.WellFormed

/-!
# The written form of a URI

A well-formed URI is known by its text (`Uri.text_injective`): the text is cut at the first
colon, the first number sign and the first question mark after it. What is left is a list of
segments for all but opaque paths: an authority reads like a segment behind an empty one, and
the point in front of a path that starts with two slashes like a segment of its own.
-/

namespace SchemaAtlas

/-- A part of a URI behind its sign, if there is one. -/
def behind (sign : Char) : Option (List Char) → List Char
  | some cs => sign :: cs
  | none => []

/-- A text without a sign ends where the sign first stands. -/
theorem behind_inj {sign : Char} {xs ys : List Char} {part part' : Option (List Char)}
    (hx : sign ∉ xs) (hy : sign ∉ ys) (h : xs ++ behind sign part = ys ++ behind sign part') :
    xs = ys ∧ part = part' := by
  have hstart : ∀ {zs : List Char} {part part' : Option (List Char)}, sign ∉ zs →
      behind sign part = zs ++ behind sign part' → zs = [] ∧ part = part' := by
    intro zs part part' hz h
    cases zs with
    | nil =>
      refine ⟨rfl, ?_⟩
      cases part <;> cases part' <;> simp_all [behind]
    | cons z zs =>
      cases part with
      | none => cases h
      | some cs =>
        cases (List.cons.inj h).1
        exact absurd List.mem_cons_self hz
  induction xs generalizing ys with
  | nil =>
    obtain ⟨rfl, hpart⟩ := hstart hy h
    exact ⟨rfl, hpart⟩
  | cons x xs ih =>
    cases ys with
    | nil =>
      obtain ⟨hnil, -⟩ := hstart hx h.symm
      cases hnil
    | cons y ys =>
      obtain ⟨rfl, hrest⟩ := List.cons.inj h
      obtain ⟨rfl, hpart⟩ := ih (List.not_mem_of_not_mem_cons hx)
        (List.not_mem_of_not_mem_cons hy) hrest
      exact ⟨rfl, hpart⟩

namespace UriPath

theorem toList_segments_cons (segment : String) (list : List String) :
    (segments (segment :: list)).text.toList =
      '/' :: (segment.toList ++ (segments list).text.toList) := by
  simp [text, String.join_cons]

theorem lacks_segments {signs : List Char} (hslash : '/' ∉ signs) {list : List String}
    (h : ∀ segment ∈ list, Lacks segment.toList signs) :
    Lacks (segments list).text.toList signs := by
  induction list with
  | nil => exact lacks_nil _
  | cons segment list ih =>
    rw [toList_segments_cons, lacks_cons, lacks_append]
    exact ⟨hslash, h segment List.mem_cons_self, ih fun s hs => h s (List.mem_cons_of_mem _ hs)⟩

/-- Segments without slashes are told apart by their text. -/
theorem segments_inj {list list' : List String} (h : ∀ segment ∈ list, '/' ∉ segment.toList)
    (h' : ∀ segment ∈ list', '/' ∉ segment.toList) {xs ys : List Char} (hx : '/' ∉ xs)
    (hy : '/' ∉ ys)
    (heq : xs ++ (segments list).text.toList = ys ++ (segments list').text.toList) :
    xs = ys ∧ list = list' := by
  have hbehind : ∀ list : List String, (segments list).text.toList = behind '/'
      (list.head?.map fun segment => segment.toList ++ (segments list.tail).text.toList) := by
    intro list
    cases list with
    | nil => rfl
    | cons segment list => exact toList_segments_cons segment list
  induction list generalizing list' xs ys with
  | nil =>
    rw [hbehind [], hbehind list'] at heq
    obtain ⟨hxy, hnone⟩ := behind_inj hx hy heq
    refine ⟨hxy, ?_⟩
    cases list' with
    | nil => rfl
    | cons => cases hnone
  | cons segment list ih =>
    rw [hbehind (segment :: list), hbehind list'] at heq
    obtain ⟨hxy, hsome⟩ := behind_inj hx hy heq
    refine ⟨hxy, ?_⟩
    cases list' with
    | nil => cases hsome
    | cons segment' list' =>
      obtain ⟨hsegment, rfl⟩ := ih (fun s hs => h s (List.mem_cons_of_mem _ hs))
        (fun s hs => h' s (List.mem_cons_of_mem _ hs)) (h segment List.mem_cons_self)
        (h' segment' List.mem_cons_self) (Option.some.inj hsome)
      rw [String.toList_inj.mp hsegment]

end UriPath

namespace Uri

/-- The authority and the path, as they are written. -/
def hierarchyText (uri : Uri) : String :=
  (match uri.authority with
    | some authority => "//" ++ authority
    | none => if uri.path.looksLikeAuthority then "/." else "") ++ uri.path.text

/-- The segments that the authority and the path read as. -/
def hierarchy (uri : Uri) : List String :=
  match uri.authority with
  | some authority => "" :: authority :: uri.path.list
  | none => if uri.path.looksLikeAuthority then "." :: uri.path.list else uri.path.list

variable {u v : Uri}

theorem toList_text (uri : Uri) : uri.text.toList =
    uri.scheme.toList ++ behind ':' (some (uri.hierarchyText.toList ++
      behind '?' (uri.query.map String.toList) ++
      behind '#' (uri.fragment.map String.toList))) := by
  obtain ⟨scheme, authority, path, query, fragment⟩ := uri
  cases fragment <;> cases query <;> cases authority <;>
    simp [text, textBeforeFragment, hierarchyText, behind]

theorem hierarchyText_of_segments {uri : Uri} (h : uri.hasOpaquePath = false) :
    uri.hierarchyText = (UriPath.segments uri.hierarchy).text := by
  obtain ⟨scheme, authority, path, query, fragment⟩ := uri
  cases path with
  | opaqueText => cases h
  | segments list =>
    apply String.toList_inj.mp
    cases authority with
    | some authority =>
      simp [hierarchyText, hierarchy, UriPath.list, UriPath.toList_segments_cons]
    | none =>
      unfold hierarchyText hierarchy
      simp only
      split
      · simp [UriPath.list, UriPath.toList_segments_cons]
      · simp [UriPath.list]

namespace WellFormed

theorem lacks_hierarchy (h : u.WellFormed) :
    ∀ segment ∈ u.hierarchy, Lacks segment.toList segmentMarks := by
  have hlist : ∀ segment ∈ u.path.list, Lacks segment.toList segmentMarks :=
    fun segment hmem => (h.segment segment hmem).1
  unfold hierarchy
  split
  · rename_i authority hauthority
    rintro segment (_ | ⟨_, _ | ⟨_, hmem⟩⟩)
    · exact lacks_nil _
    · exact Lacks.mono (by decide) (h.authority authority hauthority)
    · exact hlist segment hmem
  · split
    · rintro segment (_ | ⟨_, hmem⟩)
      · decide
      · exact hlist segment hmem
    · exact hlist

theorem slash_not_mem_hierarchy (h : u.WellFormed) :
    ∀ segment ∈ u.hierarchy, '/' ∉ segment.toList :=
  fun segment hmem hslash => h.lacks_hierarchy segment hmem '/' hslash (by decide)

theorem hierarchy_ne_nil (h : u.WellFormed) (hpath : u.hasOpaquePath = false) :
    u.hierarchy ≠ [] := by
  obtain ⟨scheme, authority, path, query, fragment⟩ := u
  cases path with
  | opaqueText => cases hpath
  | segments list =>
    cases authority with
    | some => exact List.cons_ne_nil _ _
    | none =>
      unfold hierarchy
      simp only
      split
      · exact List.cons_ne_nil _ _
      · exact (h.path.2 rfl).1

/-- A path of segments is opened by a slash, an opaque one is not. -/
theorem hasOpaquePath_eq (hu : u.WellFormed) (hv : v.WellFormed)
    (h : u.hierarchyText = v.hierarchyText) : u.hasOpaquePath = v.hasOpaquePath := by
  have hslash : ∀ {w : Uri}, w.WellFormed →
      (w.hierarchyText.toList.head? = some '/' ↔ w.hasOpaquePath = false) := by
    intro w hw
    cases hpath : w.hasOpaquePath with
    | false =>
      rw [hierarchyText_of_segments hpath]
      obtain ⟨segment, list, hlist⟩ :=
        List.exists_cons_of_ne_nil (hw.hierarchy_ne_nil hpath)
      rw [hlist, UriPath.toList_segments_cons]
      simp
    | true =>
      obtain ⟨scheme, authority, path, query, fragment⟩ := w
      cases path with
      | segments => cases hpath
      | opaqueText text =>
        obtain ⟨rfl, -, hhead⟩ := hw.path
        simpa [hierarchyText, UriPath.looksLikeAuthority, UriPath.text] using hhead
  have hboth := (hslash hu).symm.trans (h ▸ hslash hv)
  cases hu' : u.hasOpaquePath <;> cases hv' : v.hasOpaquePath <;> simp_all

/-- The authority and the path of URIs with segments are told apart by the segments as which
they read. -/
theorem hierarchy_inj (hu : u.WellFormed) (hv : v.WellFormed) (hpath : u.hasOpaquePath = false)
    (hpath' : v.hasOpaquePath = false) (h : u.hierarchy = v.hierarchy) :
    u.authority = v.authority ∧ u.path = v.path := by
  obtain ⟨scheme, authority, path, query, fragment⟩ := u
  obtain ⟨scheme', authority', path', query', fragment'⟩ := v
  cases path with
  | opaqueText => cases hpath
  | segments list =>
  cases path' with
  | opaqueText => cases hpath'
  | segments list' =>
  -- Segments that start with an empty one and go on have the point in front of them.
  have hbare : ∀ {authority : String} {list list' : List String}, "" :: authority :: list ≠
      if (UriPath.segments list').looksLikeAuthority then "." :: list' else list' := by
    intro authority list list' h
    split at h
    · exact absurd (List.cons.inj h).1 (by decide)
    · rename_i hlooks
      rw [← h] at hlooks
      exact hlooks rfl
  cases authority with
  | some authority =>
    cases authority' with
    | some authority' =>
      cases h
      exact ⟨rfl, rfl⟩
    | none => exact absurd h hbare
  | none =>
    cases authority' with
    | some authority' => exact absurd h.symm hbare
    | none =>
      refine ⟨rfl, congrArg UriPath.segments ?_⟩
      have hpoint : "." ∉ list := (hu.path.2 rfl).2
      have hpoint' : "." ∉ list' := (hv.path.2 rfl).2
      simp only [hierarchy, UriPath.list] at h
      split at h
      · split at h
        · exact (List.cons.inj h).2
        · exact absurd (h ▸ List.mem_cons_self) hpoint'
      · split at h
        · exact absurd (h ▸ List.mem_cons_self) hpoint
        · exact h

theorem hierarchyText_inj (hu : u.WellFormed) (hv : v.WellFormed)
    (h : u.hierarchyText = v.hierarchyText) : u.authority = v.authority ∧ u.path = v.path := by
  have hopaque := hasOpaquePath_eq hu hv h
  cases hpath : u.hasOpaquePath with
  | false =>
    rw [hpath] at hopaque
    rw [hierarchyText_of_segments hpath, hierarchyText_of_segments hopaque.symm] at h
    refine hierarchy_inj hu hv hpath hopaque.symm ?_
    exact (UriPath.segments_inj hu.slash_not_mem_hierarchy hv.slash_not_mem_hierarchy
      List.not_mem_nil List.not_mem_nil (congrArg String.toList h)).2
  | true =>
    obtain ⟨scheme, authority, path, query, fragment⟩ := u
    obtain ⟨scheme', authority', path', query', fragment'⟩ := v
    cases path with
    | segments => cases hpath
    | opaqueText text =>
    cases path' with
    | segments => cases hpath.symm.trans hopaque
    | opaqueText text' =>
      obtain ⟨rfl, -⟩ := hu.path
      obtain ⟨rfl, -⟩ := hv.path
      refine ⟨rfl, congrArg UriPath.opaqueText ?_⟩
      simpa [hierarchyText, UriPath.looksLikeAuthority, UriPath.text] using h

/-- Neither a question mark nor a number sign stands before the query. -/
theorem lacks_hierarchyText (h : u.WellFormed) :
    Lacks u.hierarchyText.toList ['?', '#'] := by
  cases hpath : u.hasOpaquePath with
  | false =>
    rw [hierarchyText_of_segments hpath]
    refine UriPath.lacks_segments (by decide) fun segment hmem => ?_
    exact Lacks.mono (by decide) (h.lacks_hierarchy segment hmem)
  | true =>
    obtain ⟨scheme, authority, path, query, fragment⟩ := u
    cases path with
    | segments => cases hpath
    | opaqueText text =>
      obtain ⟨rfl, hplain, -⟩ := h.path
      simpa [hierarchyText, UriPath.looksLikeAuthority, UriPath.text] using hplain

end WellFormed

/-- Well-formed URIs with the same text are the same. -/
theorem text_injective (hu : u.WellFormed) (hv : v.WellFormed) (h : u.text = v.text) : u = v := by
  have hcolon : ∀ {w : Uri}, w.WellFormed → ':' ∉ w.scheme.toList :=
    fun hw hmem => hw.scheme ':' hmem (by decide)
  have hnumber : ∀ {w : Uri}, w.WellFormed →
      '#' ∉ w.hierarchyText.toList ++ behind '?' (w.query.map String.toList) := by
    intro w hw hmem
    rcases List.mem_append.mp hmem with hmem | hmem
    · exact hw.lacks_hierarchyText '#' hmem (by decide)
    · cases hquery : w.query with
      | none =>
        rw [hquery] at hmem
        cases hmem
      | some query =>
        rw [hquery] at hmem
        rcases List.mem_cons.mp hmem with heq | hmem
        · cases heq
        · exact hw.query query hquery hmem
  have hquestion : ∀ {w : Uri}, w.WellFormed → '?' ∉ w.hierarchyText.toList :=
    fun hw hmem => hw.lacks_hierarchyText '?' hmem (by decide)
  -- Every cut is at the first of its signs, which the part before it does not have.
  have hparts := congrArg String.toList h
  rw [toList_text, toList_text] at hparts
  obtain ⟨hscheme, hparts⟩ := behind_inj (hcolon hu) (hcolon hv) hparts
  obtain ⟨hparts, hfragment⟩ := behind_inj (hnumber hu) (hnumber hv) (Option.some.inj hparts)
  obtain ⟨hhierarchy, hquery⟩ := behind_inj (hquestion hu) (hquestion hv) hparts
  obtain ⟨hauthority, hpath⟩ := hu.hierarchyText_inj hv (String.toList_inj.mp hhierarchy)
  have htoList := Option.map_injective (f := String.toList) fun _ _ => String.toList_inj.mp
  obtain ⟨scheme, authority, path, query, fragment⟩ := u
  obtain ⟨scheme', authority', path', query', fragment'⟩ := v
  cases String.toList_inj.mp hscheme
  cases hauthority
  cases hpath
  cases htoList hquery
  cases htoList hfragment
  rfl

end Uri

end SchemaAtlas
