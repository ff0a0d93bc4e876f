import SchemaAtlas.Proofs.Merge.Kept
import SchemaAtlas.Proofs.Uri.Produced
import SchemaAtlas.Proofs.Uri.Written

/-!
# The names of merges

A merge is named by the digest of the texts of both URIs with a bar between them. The texts are
told apart by what URIs can hold, but a bar may stand in a path, a query or a fragment as well,
so that one text may be that of two pairs: then the base of one pair is that of the other with a
bar and more behind it, and this stands in front of a bar in the other override. The names of
two merges agree for the same pair and for such pairs, and for no others (`mergeName_eq_iff`).
-/

namespace SchemaAtlas

namespace Uri

variable {uri base override base' override' : Uri}

/-- A bar stands in the path, the query or the fragment. -/
def HasBar (uri : Uri) : Prop :=
  '|' ∈ uri.path.text.toList ∨ (∃ query ∈ uri.query, '|' ∈ query.toList) ∨
    ∃ fragment ∈ uri.fragment, '|' ∈ fragment.toList

theorem WellFormed.bar_mem_path (h : uri.WellFormed)
    (hbar : '|' ∈ uri.hierarchyText.toList) : '|' ∈ uri.path.text.toList := by
  unfold hierarchyText at hbar
  rw [String.toList_append] at hbar
  refine (List.mem_append.mp hbar).resolve_left fun hfront => ?_
  split at hfront
  · rename_i authority hauthority
    rw [String.toList_append] at hfront
    rcases List.mem_append.mp hfront with hmem | hmem
    · exact absurd hmem (by decide)
    · exact h.authority authority hauthority '|' hmem (by decide)
  · split at hfront
    · exact absurd hfront (by decide)
    · exact absurd hfront (by decide)

/-- A bar is in none of the other parts. -/
theorem WellFormed.hasBar (h : uri.WellFormed) (hbar : '|' ∈ uri.text.toList) : uri.HasBar := by
  have hbehind : ∀ {sign : Char} {part : Option String}, '|' ≠ sign →
      '|' ∈ behind sign (part.map String.toList) → ∃ text ∈ part, '|' ∈ text.toList := by
    intro sign part hsign hmem
    cases part with
    | none => cases hmem
    | some text => exact ⟨text, rfl, (List.mem_cons.mp hmem).resolve_left hsign⟩
  rw [toList_text] at hbar
  rcases List.mem_append.mp hbar with hscheme | hrest
  · exact absurd hscheme fun hmem => h.scheme '|' hmem (by decide)
  rcases List.mem_append.mp ((List.mem_cons.mp hrest).resolve_left (by decide)) with
    hrest | hfragment
  · rcases List.mem_append.mp hrest with hhierarchy | hquery
    · exact Or.inl (h.bar_mem_path hhierarchy)
    · exact Or.inr (Or.inl (hbehind (by decide) hquery))
  · exact Or.inr (Or.inr (hbehind (by decide) hfragment))

/-- Two texts with a sign between them are cut at the same place or at different ones. -/
theorem append_cons_cases {sign : Char} {xs ys xs' ys' : List Char}
    (h : xs ++ sign :: ys = xs' ++ sign :: ys') : xs = xs' ∧ ys = ys' ∨
      (∃ between, xs = xs' ++ sign :: between ∧ ys' = between ++ sign :: ys) ∨
      ∃ between, xs' = xs ++ sign :: between ∧ ys = between ++ sign :: ys' := by
  rcases List.append_eq_append_iff.mp h with ⟨more, hmore, hrest⟩ | ⟨more, hmore, hrest⟩
  · cases more with
    | nil => exact Or.inl ⟨(hmore.trans (List.append_nil xs)).symm, (List.cons.inj hrest).2⟩
    | cons c between =>
      obtain ⟨rfl, hys⟩ := List.cons.inj hrest
      exact Or.inr (Or.inr ⟨between, hmore, hys⟩)
  · cases more with
    | nil => exact Or.inl ⟨hmore.trans (List.append_nil xs'), (List.cons.inj hrest).2.symm⟩
    | cons c between =>
      obtain ⟨rfl, hys⟩ := List.cons.inj hrest
      exact Or.inr (Or.inl ⟨between, hmore, hys⟩)

/-- The second pair has its bar earlier: the first base is the second one with a bar and more
behind it, and this makes up the second override with a bar and the first one. -/
def Shifts (base override base' override' : Uri) : Prop :=
  ∃ between : String, base.text = base'.text ++ "|" ++ between ∧
    override'.text = between ++ "|" ++ override.text

theorem mergeText_eq_iff : mergeText base override = mergeText base' override' ↔
    base.text = base'.text ∧ override.text = override'.text ∨
      Shifts base override base' override' ∨ Shifts base' override' base override := by
  have hchars : ∀ base override : Uri, (mergeText base override).toList =
      base.text.toList ++ '|' :: override.text.toList := by
    intro base override
    simp [mergeText]
  have hshifts : ∀ {b o b' o' : Uri} {between : List Char},
      b.text.toList = b'.text.toList ++ '|' :: between →
      o'.text.toList = between ++ '|' :: o.text.toList → Shifts b o b' o' := by
    intro b o b' o' between hb ho
    refine ⟨String.ofList between, String.toList_inj.mp ?_, String.toList_inj.mp ?_⟩
    · simpa using hb
    · simpa using ho
  constructor
  · intro h
    have hlists := congrArg String.toList h
    rw [hchars, hchars] at hlists
    rcases append_cons_cases hlists with ⟨hb, ho⟩ | ⟨between, hb, ho⟩ | ⟨between, hb, ho⟩
    · exact Or.inl ⟨String.toList_inj.mp hb, String.toList_inj.mp ho⟩
    · exact Or.inr (Or.inl (hshifts hb ho))
    · exact Or.inr (Or.inr (hshifts hb ho))
  · rintro (⟨hb, ho⟩ | ⟨between, hb, ho⟩ | ⟨between, hb, ho⟩)
    · rw [mergeText, mergeText, hb, ho]
    · simp only [mergeText, hb, ho, String.append_assoc]
    · simp only [mergeText, hb, ho, String.append_assoc]

/-- Where the bar may stand earlier, the base and the other override have one of their own. -/
theorem Shifts.hasBar (h : Shifts base override base' override') (hbase : base.WellFormed)
    (hover : override'.WellFormed) : base.HasBar ∧ override'.HasBar := by
  obtain ⟨between, hb, ho⟩ := h
  constructor
  · refine hbase.hasBar ?_
    rw [hb]
    simp
  · refine hover.hasBar ?_
    rw [ho]
    simp

end Uri

open Uri (Produced Shifts)

namespace Merge

variable {base override R : Schema} {path : Pointer} {s s' : MergeState}

theorem urn_inj {kind : String} {c d : Checksum} : c.urn kind = d.urn kind ↔ c = d := by
  refine ⟨fun h => ?_, fun h => h ▸ rfl⟩
  have htext : kind ++ ":" ++ c.hex = kind ++ ":" ++ d.hex :=
    UriPath.opaqueText.inj (congrArg Uri.path h)
  obtain ⟨hex⟩ := c
  obtain ⟨hex'⟩ := d
  have hchars := congrArg String.toList htext
  simp only [String.toList_append, List.append_cancel_left_eq] at hchars
  rw [String.toList_inj.mp hchars]

/-- The root of a document with the name of a merge is known by this name. -/
theorem uri_ofDocument_mergeName (base override : Uri) :
    (Location.ofDocument (mergeName base override)).uri = mergeName base override := by
  have hfragment : (mergeName base override).fragment = none := rfl
  have hnormal : (mergeName base override).normalized = mergeName base override :=
    Uri.normalized_of_fragment_ne (by rw [hfragment]; exact nofun)
  have hblank : ' ' ∉ ("merge" ++ ":" ++
      (Checksum.ofText (mergeText base override)).hex).toList := by
    rw [String.toList_append, List.mem_append]
    rintro (hmem | hmem)
    · exact absurd hmem (by decide)
    · obtain ⟨n, hn⟩ := Uri.mem_hex hmem
      exact (by decide : ∀ n : Fin 16, ' ' ≠ Nat.digitChar n.val) n hn
  have hkept : (mergeName base override).withoutFragment = mergeName base override := by
    have htext := Uri.dropTrailingBlanks_eq_self fun hlast =>
      hblank (List.mem_of_getLast? hlast)
    simp only [mergeName, Checksum.urn, Uri.withoutFragment, htext]
  rw [Location.ofDocument, Location.uri, hnormal, hfragment]
  exact hkept

/-- The sides of which a merge makes a node of its own. -/
structure Combines (base override : Schema) : Prop where
  base_reference : base.isReference = false
  override_reference : override.isReference = false
  base_boolean : base.boolean? ≠ some false
  override_boolean : override.boolean? = none

theorem mergeAt_of_combines (h : Combines base override) (path : Pointer) :
    mergeAt path base override =
      combine base (base.body.map (withMerger merging)) path override := by
  rw [mergeAt_eq, step, h.base_reference, h.override_reference, Bool.or_false,
    if_neg Bool.false_ne_true, h.override_boolean]
  cases hbase : base.boolean? with
  | none => rfl
  | some value =>
    cases value with
    | true => rfl
    | false => exact absurd hbase h.base_boolean

theorem location_of_combine {body : Body (Schema × Merger)}
    (h : Gives (combine base body path override) s R s') :
    R.location = Location.ofDocument (mergeName base.uri override.uri) := by
  rw [combine_eq] at h
  obtain ⟨builder, s₁, hmembers, hbuild⟩ := gives_bind.mp h
  have hlocation : builder.location = (start base override).location := holds_of_mergeMembers
    (P := fun b => b.location = (start base override).location) (fun _ _ _ _ hb => hb) rfl
    hmembers
  obtain ⟨extra, hextra⟩ := exists_foldl_putExtra override.extra builder
  rw [hextra] at hbuild
  obtain ⟨rfl, -⟩ := gives_onStore.mp hbuild
  exact hlocation

/-- The node that a merge makes is known by the name of the merge. -/
theorem uri_of_mergeAt (h : Combines base override) (path : Pointer) (s : MergeState) :
    ((mergeAt path base override).run s).1.uri = mergeName base.uri override.uri := by
  have hlocation : ((mergeAt path base override).run s).1.location =
      Location.ofDocument (mergeName base.uri override.uri) := by
    rw [mergeAt_of_combines h]
    exact location_of_combine rfl
  rw [Schema.uri, hlocation, uri_ofDocument_mergeName]

end Merge

open Merge (Combines mergeAt)

/-- Where the digest tells texts apart, the merges of two pairs of URIs have the same name just if
the pairs are the same or have the bar at different places of one text. Then a base and the
override of the other pair have a bar of their own. The nodes that merges make are known by the
names of their merges. -/
theorem mergeName_eq_iff {base override base' override' : Uri} (hb : Produced base)
    (ho : Produced override) (hb' : Produced base') (ho' : Produced override')
    (hdigest : Checksum.ofText (mergeText base override) =
        Checksum.ofText (mergeText base' override') →
      mergeText base override = mergeText base' override') :
    (mergeName base override = mergeName base' override' ↔
      base = base' ∧ override = override' ∨ Shifts base override base' override' ∨
        Shifts base' override' base override) ∧
    (mergeName base override = mergeName base' override' →
      base = base' ∧ override = override' ∨ base.HasBar ∧ override'.HasBar ∨
        base'.HasBar ∧ override.HasBar) ∧
    ∀ {s t s' t' : Schema}, Combines s t → Combines s' t' → s.uri = base → t.uri = override →
      s'.uri = base' → t'.uri = override' → ∀ path st path' st',
      (((mergeAt path s t).run st).1.uri = ((mergeAt path' s' t').run st').1.uri ↔
        mergeName base override = mergeName base' override') := by
  have htext : base.text = base'.text ∧ override.text = override'.text ↔
      base = base' ∧ override = override' := by
    refine ⟨fun h => ⟨?_, ?_⟩, ?_⟩
    · exact Uri.text_injective hb.wellFormed hb'.wellFormed h.1
    · exact Uri.text_injective ho.wellFormed ho'.wellFormed h.2
    · rintro ⟨rfl, rfl⟩
      exact ⟨rfl, rfl⟩
  have hname : mergeName base override = mergeName base' override' ↔
      base = base' ∧ override = override' ∨ Shifts base override base' override' ∨
        Shifts base' override' base override := by
    rw [← htext, ← Uri.mergeText_eq_iff, mergeName, mergeName, Merge.urn_inj]
    exact ⟨hdigest, congrArg Checksum.ofText⟩
  refine ⟨hname, fun h => ?_, ?_⟩
  · rcases hname.mp h with hsame | hshift | hshift
    · exact Or.inl hsame
    · exact Or.inr (Or.inl (hshift.hasBar hb.wellFormed ho'.wellFormed))
    · exact Or.inr (Or.inr (hshift.hasBar hb'.wellFormed ho.wellFormed))
  · rintro s t s' t' h h' rfl rfl rfl rfl path st path' st'
    rw [Merge.uri_of_mergeAt h, Merge.uri_of_mergeAt h']

/-- Without bars the name tells which side is the base. -/
theorem mergeName_swapped : ∃ a b, Uri.read "http://e.com/a.json" = .ok a ∧
    Uri.read "http://e.com/b.json" = .ok b ∧ a ≠ b ∧ mergeName a b ≠ mergeName b a := by
  have hreadA : Uri.read "http://e.com/a.json" =
      .ok ⟨"http", some "e.com", .segments ["a.json"], none, none⟩ := rfl
  have hreadB : Uri.read "http://e.com/b.json" =
      .ok ⟨"http", some "e.com", .segments ["b.json"], none, none⟩ := rfl
  refine ⟨_, _, hreadA, hreadB, by decide, fun h => ?_⟩
  have ha := Produced.read hreadA
  have hb := Produced.read hreadB
  have hnames := (mergeName_eq_iff ha hb hb ha fun hdigest =>
    absurd hdigest (by decide +kernel)).2.1
  rcases hnames h with ⟨hsame, -⟩ | ⟨hbar, -⟩ | ⟨hbar, -⟩
  · exact absurd hsame (by decide)
  · exact absurd hbar (by simp [Uri.HasBar, UriPath.text])
  · exact absurd hbar (by simp [Uri.HasBar, UriPath.text])

/-- A bar in a path is read as the one between the URIs. -/
theorem mergeName_barred : ∃ base override base' override',
    Uri.read "http://e.com/a|http://e.com/b" = .ok base ∧
    Uri.read "http://e.com/c" = .ok override ∧
    Uri.read "http://e.com/a" = .ok base' ∧
    Uri.read "http://e.com/b|http://e.com/c" = .ok override' ∧
    base ≠ base' ∧ override ≠ override' ∧
    mergeText base override = mergeText base' override' ∧
    mergeName base override = mergeName base' override' := by
  refine ⟨⟨"http", some "e.com", .segments ["a|http:", "", "e.com", "b"], none, none⟩,
    ⟨"http", some "e.com", .segments ["c"], none, none⟩,
    ⟨"http", some "e.com", .segments ["a"], none, none⟩,
    ⟨"http", some "e.com", .segments ["b|http:", "", "e.com", "c"], none, none⟩,
    rfl, rfl, rfl, rfl, by decide, by decide, ?_, ?_⟩
  · decide
  · exact congrArg (fun text => (Checksum.ofText text).urn "merge") (by decide)

end SchemaAtlas
