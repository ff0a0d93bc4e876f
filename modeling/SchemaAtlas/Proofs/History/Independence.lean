import SchemaAtlas.Proofs.History.Abreast
import SchemaAtlas.Proofs.Loading.Commit
import SchemaAtlas.Proofs.Loading.Documents

/-!
# Loads after other loads

The cache that calls leave behind covers all that it has, if the documents never change and their
identifiers are found where they are declared. So what loads without it loads with it too; and what loads with it loads without
it, unless a reference is refused that the cache would have answered.
-/

namespace SchemaAtlas

/-! ## Documents -/

/-- Documents as a policy reads them. -/
def Policy.shelf (policy : Policy) (source : Uri → Option Json) : Shelf := fun uri =>
  (source uri).map (policy.openAs uri)

theorem Documents.mem_of_find? {d : Documents} {uri : Uri} {document : Json}
    (h : d.find? uri = some document) :
    (uri.withoutFragment, document) ∈ d.available ++ d.loaded := by
  rcases Option.or_eq_some_iff.mp h with hl | ⟨-, hf⟩
  · exact List.mem_append_right _ (Entries.mem_of_get? hl)
  · obtain ⟨found, hfound, rfl⟩ := Option.map_eq_some_iff.mp hf
    obtain ⟨document, hd, rfl⟩ := Option.map_eq_some_iff.mp hfound
    exact List.mem_append_left _ (Entries.mem_of_get? hd)

/-- Whether documents make an orderly shelf can be told from each of them. -/
theorem Documents.orderly_shelf {policy : Policy} {d : Documents}
    (h : ∀ entry ∈ d.available ++ d.loaded,
      (policy.openAs entry.1 entry.2).isOrderly = true ∧ entry.2.all Json.namesDependencies = true) :
    (policy.shelf d.find?).Orderly := by
  have hentry : ∀ {uri : Uri} {document : OpenDocument},
      policy.shelf d.find? uri.withoutFragment = some document →
      document = policy.openAs uri.withoutFragment document.document ∧
        (uri.withoutFragment, document.document) ∈ d.available ++ d.loaded := by
    intro uri document hs
    obtain ⟨value, hv, rfl⟩ := Option.map_eq_some_iff.mp hs
    have hm := mem_of_find? hv
    rw [Uri.withoutFragment_idem] at hm
    exact ⟨rfl, hm⟩
  refine ⟨fun {uri document} hs => ?_, fun {uri document} hs => ?_, fun {uri document} hs => ?_⟩
  · obtain ⟨value, -, rfl⟩ := Option.map_eq_some_iff.mp hs
    rfl
  · obtain ⟨heq, hm⟩ := hentry hs
    have hroot : document.uri.withoutFragment = document.uri := by
      rw [heq]
      exact Uri.withoutFragment_idem uri
    refine OpenDocument.orderly_of_isOrderly hroot ?_
    rw [heq]
    exact (h _ hm).1
  · exact (h _ (hentry hs).2).2

theorem Shelf.at?_normalized (shelf : Shelf) (uri : Uri) :
    shelf.at? uri.normalized = shelf.at? uri := by
  have hfind : ∀ document : OpenDocument, document.find? uri.normalized = document.find? uri := by
    intro document
    unfold OpenDocument.find? OpenDocument.locate Lookup.locate
    rw [Uri.normalized_of_fragment_ne (Uri.normalized_fragment_ne uri)]
  rw [at?, Uri.withoutFragment_normalized]
  simp only [hfind]
  rfl

/-! ## Caches -/

namespace Cache

theorem contains_insert_iff {uri other : Uri} {schema : Schema} {c : Cache} :
    (c.insert uri schema).contains other = true ↔
      other.normalized = uri.normalized ∨ c.contains other = true := by
  rw [contains, get?_insert]
  split
  · rename_i heq
    simp [heq]
  · rename_i hne
    simp [hne, contains]

/-- What a cache has after a table was added. -/
theorem of_contains_insertAll {table : List (Uri × Schema)} {other : Uri} {c : Cache}
    (h : (c.insertAll table).contains other = true) :
    (∃ uri, Entries.contains uri table = true ∧ other.normalized = uri.normalized) ∨
      c.contains other = true := by
  induction table generalizing c with
  | nil => exact Or.inr h
  | cons entry rest ih =>
    obtain ⟨key, schema⟩ := entry
    rcases ih h with ⟨uri, hu, heq⟩ | hc
    · refine Or.inl ⟨uri, ?_, heq⟩
      by_cases hkey : uri = key
      · simp [Entries.contains, Entries.get?, hkey]
      · simpa [Entries.contains, Entries.get?, hkey] using hu
    · rcases contains_insert_iff.mp hc with heq | hc
      · exact Or.inl ⟨key, by simp [Entries.contains, Entries.get?], heq⟩
      · exact Or.inr hc

theorem contains_insertAll_of_mem {table : List (Uri × Schema)} {uri : Uri} {c : Cache}
    (h : Entries.contains uri table = true) : (c.insertAll table).contains uri = true := by
  induction table generalizing c with
  | nil => cases h
  | cons entry rest ih =>
    obtain ⟨key, schema⟩ := entry
    by_cases hkey : uri = key
    · subst hkey
      exact @contains_insertAll rest uri _ (contains_insert_iff.mpr (Or.inl rfl))
    · exact ih (by simpa [Entries.contains, Entries.get?, hkey] using h)

end Cache

theorem Workspace.isOk_conclude {uri : Uri} {outcome : Except Stop (Option Schema)} {s : Session} :
    (conclude uri outcome s).1.isOk = true ↔
      (∃ schema, outcome = .ok (some schema)) ∧ s.report.hasErrors = false := by
  unfold conclude
  rcases outcome with (_ | _) | _ | schema
  · simp [Except.isOk, Except.toBool]
  · simp [Except.isOk, Except.toBool]
  · simp [Except.isOk, Except.toBool]
  · cases herrors : s.report.hasErrors <;> simp [Except.isOk, Except.toBool]

/-! ## Loads -/

namespace Load

open Loading Session

/-- A load that a URI asks for with a cache, when the documents are those of a source. -/
structure Serves (policy : Policy) (source : Uri → Option Json) (c : Cache) (uri : Uri) (l : Load) :
    Prop where
  begins : l.Begins
  policy : l.policy = policy
  asked : l.uri = uri.normalized
  root : l.documentUri = uri.withoutFragment
  cache : l.workspace.cache = c
  documents : l.workspace.documents.find? = source

variable {policy : Policy} {source : Uri → Option Json} {c c' : Cache} {uri : Uri} {l l₀ : Load}

namespace Serves

variable (h : l.Serves policy source c uri)

include h

theorem base : l.uri.withoutFragment = uri.withoutFragment := by
  rw [h.asked, Uri.withoutFragment_normalized]

theorem remote? : l.session.remote? = policy.shelf source := by
  rw [← h.policy, ← h.documents]
  exact h.begins.remote?_eq

theorem shelf_eq : policy.shelf source uri.withoutFragment = some l.context := by
  rw [Policy.shelf, ← h.documents, ← h.root, Documents.find?, h.begins.loaded, Load.context, h.policy]
  rfl

theorem has : (policy.shelf source).Has l.context := by
  have huri : l.context.uri = uri.withoutFragment := h.root
  exact ⟨by rw [huri, Uri.withoutFragment_idem], by rw [huri]; exact h.shelf_eq⟩

theorem on : l.session.On (policy.shelf source) policy l.context where
  has := h.has
  inside := ⟨l.library, ⟨h.has, h.remote?⟩, l.inside⟩
  policy := by
    rw [l.session_eq]
    exact h.policy
  numbered := by
    rw [l.session_eq]
    intro entry he
    cases he

theorem session_cache : l.session.cache = c := by
  rw [l.session_eq]
  exact h.cache

theorem report : l.session.report.hasErrors = false := by
  obtain ⟨document, s, hopens, hsession⟩ := h.begins.opens
  rw [hsession]
  exact hopens.hasErrors

theorem holds (hshelf : (policy.shelf source).Orderly) {start : Position}
    (hstart : l.start? = some start) :
    start.context = l.context ∧ (policy.shelf source).Holds start := by
  obtain ⟨found, hlocate, rfl⟩ := Option.map_eq_some_iff.mp hstart
  exact ⟨rfl, (hshelf.holds_of_locate h.has hlocate).2⟩

/-- The position that the URI names is the one that the load begins with. -/
theorem start?_of_at? {p : Position} (hat : (policy.shelf source).at? uri = some p) :
    l.start? = some p := by
  rw [← Shelf.at?_normalized, Shelf.at?, ← h.asked] at hat
  rw [h.base, h.shelf_eq, Option.bind_some, OpenDocument.find?] at hat
  split at hat
  · rename_i location value hlocate
    split at hat
    · cases hat
      rw [start?, hlocate]
      rfl
    · cases hat
  · cases hat

theorem at?_of_start? {start : Position}
    (hstart : l.start? = some start) (haccepts : start.context.accepts start.value = true) :
    (policy.shelf source).at? uri = some start := by
  obtain ⟨found, hlocate, rfl⟩ := Option.map_eq_some_iff.mp hstart
  rw [← Shelf.at?_normalized, Shelf.at?, ← h.asked, h.base, h.shelf_eq, Option.bind_some,
    OpenDocument.find?, hlocate]
  exact if_pos haccepts

end Serves

theorem start?_eq (h₀ : l₀.Serves policy source c' uri) (h : l.Serves policy source c uri) :
    l₀.start? = l.start? := by
  have hcontext : l₀.context = l.context := Option.some.inj (h₀.shelf_eq.symm.trans h.shelf_eq)
  rw [start?, start?, hcontext, h₀.asked, h.asked]

/-- A load that succeeds leaves a cache that covers all that it has. -/
theorem Serves.grounded (hshelf : (policy.shelf source).Orderly) (h : l.Serves policy source c uri)
    (hground : c.Grounded (policy.shelf source) policy) (hok : l.run.1.isOk = true) :
    l.run.2.cache.Grounded (policy.shelf source) policy ∧ l.run.2.cache.contains uri = true := by
  obtain ⟨⟨schema, report⟩, hrun⟩ : ∃ result, l.run.1 = .ok result := by
    cases hr : l.run.1 with
    | ok result => exact ⟨result, rfl⟩
    | error failure =>
      rw [hr] at hok
      cases hok
  obtain ⟨found, s, hlocate, hr, rfl, herrors, hafter⟩ := run_ok hrun
  have hframe : Frame l.session s := (framed_loadNode _).frame hr
  have hcache : s.cache = c := hframe.cache.trans h.session_cache
  rw [hafter]
  dsimp only
  rw [hcache, h.asked]
  generalize hc' : (c.insertAll s.built).insert uri.normalized schema = c'
  have hasked : ∀ {other : Uri}, other.normalized = uri.normalized → c'.contains other = true := by
    intro other heq
    rw [← hc', Cache.contains_insert_iff, Uri.normalized_idem]
    exact Or.inl heq
  have hbuilt : ∀ {other : Uri}, Entries.contains other s.built = true → c'.contains other = true := by
    intro other hk
    rw [← hc', Cache.contains_insert_iff]
    exact Or.inr (Cache.contains_insertAll_of_mem hk)
  have hkept : ∀ other, c.contains other = true → c'.contains other = true := by
    intro other hk
    rw [← hc', Cache.contains_insert_iff]
    exact Or.inr (Cache.contains_insertAll hk)
  refine ⟨?_, hasked rfl⟩
  have hidle : l.session.inProgress = [] := by rw [l.session_eq]; rfl
  have hnothing : l.session.built = [] := by rw [l.session_eq]; rfl
  have hbanked : s.Banked c' := by
    refine ⟨fun {other} hf => ?_, herrors⟩
    rcases Bool.or_eq_true_iff.mp hf with hk | hk
    · rcases Bool.or_eq_true_iff.mp hk with hk | hk
      · rw [hframe.inProgress h.on.numbered, hidle] at hk
        cases hk
      · exact hbuilt hk
    · exact hkept other (hcache ▸ hk)
  have hstart : l.start? = some ⟨l.context, found.1, found.2⟩ := by rw [start?, hlocate]; rfl
  have hsurveyed : l.session.Surveyed (policy.shelf source) c'
      (Position.Read (policy.shelf source) policy c') := by
    refine ⟨fun {other} hk => ?_, fun hk => ?_⟩
    · rw [Session.knows, hidle, hnothing] at hk
      cases hk
    · rw [hnothing] at hk
      cases hk
  obtain ⟨hafter, hfound⟩ := surveys_loadNode hshelf marks_read _
    (p := ⟨l.context, found.1, found.2⟩) (h.holds hshelf hstart).2 h.on hsurveyed hr hbanked
  obtain ⟨hcovered, hread⟩ := hfound (by simp)
  have hat := h.at?_of_start? hstart hcovered.accepted
  intro other hk
  rw [← hc', Cache.contains_insert_iff, Uri.normalized_idem] at hk
  rcases hk with heq | hk
  · refine ⟨_, ?_, hcovered, hread⟩
    rw [← Shelf.at?_normalized, heq, Shelf.at?_normalized]
    exact hat
  · rcases Cache.of_contains_insertAll hk with ⟨key, hkey, heq⟩ | hk
    · obtain ⟨p, hp, hpcovered⟩ := hafter.mapped (Bool.or_eq_true_iff.mpr (Or.inr hkey))
      refine ⟨p, ?_, hpcovered, hafter.marked hkey hp⟩
      rw [← Shelf.at?_normalized, heq, Shelf.at?_normalized]
      exact hp
    · obtain ⟨p, hp, hpcovered, hpread⟩ := hground hk
      exact ⟨p, hp, hpcovered.mono hkept, hpread.mono hkept⟩

/-- What succeeds with an empty cache succeeds with one that covers what it has. -/
theorem Serves.accompanies (hshelf : (policy.shelf source).Orderly)
    (hground : c.Grounded (policy.shelf source) policy) (h₀ : l₀.Serves policy source .empty uri)
    (h : l.Serves policy source c uri) (hok : l₀.run.1.isOk = true) : l.run.1.isOk = true := by
  cases hstart : l₀.start? with
  | none =>
    rw [run, Option.map_eq_none_iff.mp hstart] at hok
    cases hok
  | some start =>
    have hstart' := (start?_eq h₀ h).symm.trans hstart
    obtain ⟨r₀, s, -, hx, hrun₀⟩ := h₀.begins.settles hstart
    obtain ⟨r, t, hends, hy, hrun⟩ := h.begins.settles hstart'
    obtain ⟨hcontext, hholds⟩ := h.holds hshelf hstart'
    rw [hrun₀, Workspace.isOk_conclude] at hok
    obtain ⟨⟨schema, rfl⟩, herrors⟩ := hok
    have hsame : l₀.context = l.context := Option.some.inj (h₀.shelf_eq.symm.trans h.shelf_eq)
    have hbegin : Abreast (policy.shelf source) policy c start.context l₀.session l.session := by
      rw [hcontext]
      refine ⟨⟨?_, ?_, h.report⟩, hsame ▸ h₀.on, h.on, h₀.session_cache, h.session_cache, ?_, ?_, ?_⟩ <;>
        rw [l₀.session_eq, l.session_eq]
      · exact Or.inl
      · exact Or.inl
      · rfl
      · exact Or.inl
      · exact Or.inl
    rcases (accompanies_loadNode hshelf hground _ _ hholds).keeps hbegin (hx _ (Nat.le_refl _))
      herrors (hy _ (Nat.le_refl _)) with ⟨e, rfl, rfl⟩ | ⟨found, rfl, hend, hsome⟩
    · exact absurd rfl hends
    · cases hsome
      rw [hrun, Workspace.isOk_conclude]
      exact ⟨⟨_, rfl⟩, hend.report⟩

/-- What a cache covers loads without it, or a reference is refused. -/
theorem Serves.repeats (hshelf : (policy.shelf source).Orderly)
    (hground : c'.Grounded (policy.shelf source) policy) (hu : c'.contains uri = true)
    (h : l.Serves policy source c uri) :
    l.run.1.isOk = true ∨ ∃ report, l.run.1 = .error (.loading report) ∧
      ∃ issue ∈ report.issues, isRefusal issue.kind := by
  obtain ⟨p, hat, hcovered, -⟩ := hground hu
  have hstart := h.start?_of_at? hat
  obtain ⟨hcontext, hholds⟩ := h.holds hshelf hstart
  obtain ⟨r, t, hends, hr, hrun⟩ := h.begins.settles hstart
  have hon : l.session.On (policy.shelf source) policy p.context := hcontext ▸ h.on
  rw [hrun]
  rcases repeats_loadNode hshelf hground _ hholds hcovered hon (hr _ (Nat.le_refl _)) with
    ⟨e, rfl, rfl | ⟨hrefused, -⟩⟩ | ⟨schema, rfl, hadds⟩
  · exact absurd rfl hends
  · cases e with
    | fatal => exact Or.inr ⟨t.report, rfl, hrefused⟩
    | exhausted => exact absurd rfl hends
  · exact Or.inl (Workspace.isOk_conclude.mpr ⟨⟨schema, rfl⟩, hadds.report h.report⟩)

end Load

/-! ## Calls -/

namespace Request

variable {policy : Policy} {source : Uri → Option Json} {w w₀ : Workspace} {c : Cache} {uri : Uri}

/-- A URI is answered from the cache, or there is no document for it, or it starts a load. -/
theorem ofUri_cases (policy : Policy) (uri : Uri) (w : Workspace) :
    (w.cache.contains uri = true ∧ ∃ schema, (ofUri uri).run policy w = (.ok schema, w)) ∨
      w.documents.find? uri.withoutFragment = none ∧ ((ofUri uri).run policy w).1.isOk = false ∨
      ∃ l : Load, (ofUri uri).run policy w = (l.run.1.map Prod.fst, l.run.2) ∧
        l.Serves policy w.documents.find? w.cache uri := by
  have hkey : w.cache.contains uri.normalized = w.cache.contains uri := by
    rw [Cache.contains, Cache.get?, Uri.normalized_idem]
    rfl
  cases hl : (ofUri uri).load? policy w with
  | none =>
    have hrun : (ofUri uri).run policy w = _ := runs_loadUri_of_none hl
    cases hc : w.cache.get? uri.normalized with
    | some schema =>
      rw [hc] at hrun
      exact Or.inl ⟨by rw [← hkey, Cache.contains, hc]; rfl, schema, hrun⟩
    | none =>
      have hmiss : w.cache.contains uri.normalized = false := by rw [Cache.contains, hc]; rfl
      rw [hc] at hrun
      refine Or.inr (Or.inl ⟨?_, by rw [hrun]; rfl⟩)
      simp only [load?, hmiss, Bool.false_eq_true, if_false, Uri.withoutFragment_normalized] at hl
      split at hl
      · cases hl
      · rename_i hloaded
        rw [Documents.find?, hloaded, Option.map_eq_none_iff.mp hl]
        rfl
  | some l =>
    refine Or.inr (Or.inr ⟨l, run_of_load? hl, ?_⟩)
    have hbegins := begins_of_load? hl
    simp only [load?, Uri.withoutFragment_normalized] at hl
    split at hl
    · cases hl
    · split at hl
      · cases hl
        exact ⟨hbegins, rfl, rfl, rfl, rfl, rfl⟩
      · rename_i hloaded
        obtain ⟨found, hf, rfl⟩ := Option.map_eq_some_iff.mp hl
        exact ⟨hbegins, rfl, rfl, rfl, rfl, Documents.find?_of_fetch? hloaded hf⟩

theorem isOk_map (l : Load) : (l.run.1.map Prod.fst).isOk = l.run.1.isOk := by
  cases l.run.1 <;> rfl

end Request

/-- The caches that calls for URIs leave behind, one call after the other and all of them with
success, while the documents are those of a source. -/
inductive Cache.History (policy : Policy) (source : Uri → Option Json) : Cache → Prop
  | start : History policy source .empty
  | call {w : Workspace} (uri : Uri) : History policy source w.cache → w.documents.find? = source →
      ((Request.ofUri uri).run policy w).1.isOk = true →
      History policy source ((Request.ofUri uri).run policy w).2.cache

namespace Request

variable {policy : Policy} {source : Uri → Option Json} {w w₀ : Workspace} {c : Cache} {uri : Uri}

/-- A call that succeeds leaves a cache that has what it was asked for. -/
theorem grounded_of_call (hshelf : (policy.shelf source).Orderly)
    (hground : w.cache.Grounded (policy.shelf source) policy) (hw : w.documents.find? = source)
    (hok : ((ofUri uri).run policy w).1.isOk = true) :
    ((ofUri uri).run policy w).2.cache.Grounded (policy.shelf source) policy ∧
      ((ofUri uri).run policy w).2.cache.contains uri = true := by
  rcases ofUri_cases policy uri w with ⟨hcontains, schema, hrun⟩ | ⟨-, hfails⟩ | ⟨l, hrun, hserves⟩
  · rw [hrun]
    exact ⟨hground, hcontains⟩
  · cases hok.symm.trans hfails
  · rw [hrun, isOk_map] at hok
    rw [hrun]
    exact (hw ▸ hserves).grounded hshelf hground hok

end Request

theorem Cache.History.grounded {policy : Policy} {source : Uri → Option Json} {c : Cache}
    (hshelf : (policy.shelf source).Orderly) (h : History policy source c) :
    c.Grounded (policy.shelf source) policy := by
  induction h with
  | start =>
    intro uri hk
    cases hk
  | call uri _ hw hok ih => exact (Request.grounded_of_call hshelf ih hw hok).1

namespace Request

/-- Calls that succeeded before take nothing away from a call, and what they add to it are references
that it would have refused. -/
theorem run_of_history {policy : Policy} {source : Uri → Option Json} {w w₀ : Workspace}
    (hshelf : (policy.shelf source).Orderly) (hhistory : Cache.History policy source w.cache)
    (hw : w.documents.find? = source) (hempty : w₀.cache = .empty)
    (hw₀ : w₀.documents.find? = source) (uri : Uri) :
    (((ofUri uri).run policy w₀).1.isOk = true → ((ofUri uri).run policy w).1.isOk = true) ∧
      (((ofUri uri).run policy w).1.isOk = true → ((ofUri uri).run policy w₀).1.isOk = true ∨
        ∃ report, ((ofUri uri).run policy w₀).1 = .error (.loading report) ∧
          ∃ issue ∈ report.issues, Loading.isRefusal issue.kind) := by
  have hground : w.cache.Grounded (policy.shelf source) policy := hhistory.grounded hshelf
  constructor
  · intro hok
    rcases ofUri_cases policy uri w₀ with ⟨hcontains, -⟩ | ⟨-, hfails⟩ | ⟨l₀, hrun₀, hserves₀⟩
    · rw [hempty] at hcontains
      cases hcontains
    · cases hok.symm.trans hfails
    · rw [hrun₀, isOk_map] at hok
      rw [hempty, hw₀] at hserves₀
      rcases ofUri_cases policy uri w with ⟨-, schema, hrun⟩ | ⟨hnone, -⟩ | ⟨l, hrun, hserves⟩
      · rw [hrun]
        rfl
      · rw [hw] at hnone
        have hsome := hserves₀.shelf_eq
        rw [Policy.shelf, hnone] at hsome
        cases hsome
      · rw [hrun, isOk_map]
        rw [hw] at hserves
        exact hserves₀.accompanies hshelf hground hserves hok
  · intro hok
    obtain ⟨hafter, hcontains⟩ := grounded_of_call hshelf hground hw hok
    obtain ⟨p, hat, -⟩ := hafter hcontains
    rcases ofUri_cases policy uri w₀ with ⟨hcontains, -⟩ | ⟨hnone, -⟩ | ⟨l₀, hrun₀, hserves₀⟩
    · rw [hempty] at hcontains
      cases hcontains
    · rw [hw₀] at hnone
      rw [Shelf.at?, Policy.shelf, hnone] at hat
      cases hat
    · rw [hw₀] at hserves₀
      rw [hrun₀, isOk_map]
      rcases hserves₀.repeats hshelf hafter hcontains with hrun | ⟨report, hrun, hrefused⟩
      · exact Or.inl hrun
      · exact Or.inr ⟨report, by rw [hrun]; rfl, hrefused⟩

end Request

/-! ## Histories that count -/

/-- The documents of a workspace with the cache that a call leaves. -/
def Workspace.after (policy : Policy) (uri : Uri) (w : Workspace) : Workspace :=
  { w with cache := ((Request.ofUri uri).run policy w).2.cache }

theorem Cache.history_after {policy : Policy} {uri : Uri} {w : Workspace} (hempty : w.cache = .empty)
    (hok : ((Request.ofUri uri).run policy w).1.isOk = true) :
    History policy w.documents.find? (w.after policy uri).cache := by
  have hstart : History policy w.documents.find? w.cache := by
    rw [hempty]
    exact .start
  exact .call uri hstart rfl hok

/-- The workspace after calls for URIs, one after the other. -/
def Workspace.afterCalls (policy : Policy) (calls : List Uri) (w : Workspace) : Workspace :=
  calls.foldl (fun w uri => ((Request.ofUri uri).run policy w).2) w

theorem Workspace.find?_afterCalls (policy : Policy) (calls : List Uri) (w : Workspace) :
    (w.afterCalls policy calls).documents.find? = w.documents.find? := by
  induction calls generalizing w with
  | nil => rfl
  | cons uri rest ih => exact (ih _).trans (Request.find?_ofUri policy uri w)

/-- Calls in one workspace that all succeed leave a cache with a history. -/
theorem Cache.history_afterCalls {policy : Policy} {w : Workspace} (hempty : w.cache = .empty)
    {calls : List Uri} (hok : ∀ before uri, before ++ [uri] <+: calls →
      ((Request.ofUri uri).run policy (w.afterCalls policy before)).1.isOk = true) :
    History policy w.documents.find? (w.afterCalls policy calls).cache := by
  induction calls using List.reverseRecOn with
  | nil =>
    change History policy w.documents.find? w.cache
    rw [hempty]
    exact .start
  | append_singleton before uri ih =>
    have hbefore := ih fun earlier other h => hok earlier other (h.trans (List.prefix_append _ _))
    rw [Workspace.afterCalls, List.foldl_append]
    exact .call uri hbefore (Workspace.find?_afterCalls policy before w)
      (hok before uri (List.prefix_refl _))

namespace Request

/-- A policy that follows one reference in a row. -/
def tight : Policy := { Policy.standard with maxHops := 1 }

def page (name : String) (fragment : Option String) : Uri :=
  ⟨"http", some "e.com", .segments [name], none, fragment⟩

/-- A chain of two references, in a document that declares its own URI and a name. -/
def chained : Workspace :=
  { Workspace.empty with
    documents := .ofList [
      (page "r.json" none, .object [
        ("$id", .string "r.json"),
        ("definitions", .object [
          ("a", .object [("$ref", .string "#/definitions/b")]),
          ("b", .object [("$ref", .string "#c")]),
          ("c", .object [("$id", .string "#c")])])])] }

/-- The second of two references is refused unless it was followed before. -/
theorem run_of_chained :
    (tight.shelf chained.documents.find?).Orderly ∧
    Cache.History tight chained.documents.find?
      (chained.after tight (page "r.json" (some "/definitions/b"))).cache ∧
    ((ofUri (page "r.json" (some "/definitions/a"))).run tight
      (chained.after tight (page "r.json" (some "/definitions/b")))).1.isOk = true ∧
    ∃ report, ((ofUri (page "r.json" (some "/definitions/a"))).run tight chained).1 =
      .error (.loading report) ∧ ∃ issue ∈ report.issues, Loading.isRefusal issue.kind := by
  have hshelf : (tight.shelf chained.documents.find?).Orderly :=
    Documents.orderly_shelf (by decide +kernel)
  have hhistory : Cache.History tight chained.documents.find?
      (chained.after tight (page "r.json" (some "/definitions/b"))).cache :=
    Cache.history_after rfl (by decide +kernel)
  have hok : ((ofUri (page "r.json" (some "/definitions/a"))).run tight
      (chained.after tight (page "r.json" (some "/definitions/b")))).1.isOk = true := by
    decide +kernel
  have hfails : ((ofUri (page "r.json" (some "/definitions/a"))).run tight chained).1.isOk = false := by
    decide +kernel
  refine ⟨hshelf, hhistory, hok, ?_⟩
  rcases (run_of_history hshelf hhistory rfl rfl rfl (page "r.json" (some "/definitions/a"))).2 hok with
    hstart | hrefused
  · cases hfails.symm.trans hstart
  · exact hrefused

/-- A schema that declares the URI of a document that does not exist. -/
def declaring : Workspace :=
  { Workspace.empty with
    documents := .ofList [
      (page "r.json" none, .object [
        ("definitions", .object [
          ("a", .object [("$id", .string "other.json")])])])] }

/-- A document that takes an identifier for itself which is the URI of another one. -/
def shadowing : Workspace :=
  { Workspace.empty with
    documents := .ofList [
      (page "v.json" none, .object [
        ("foo", .object [("$id", .string "x.json")]),
        ("definitions", .object [("a", .object [("$ref", .string "r.json")])])]),
      (page "r.json" none, .object [
        ("properties", .object [("z", .object [("$ref", .string "x.json")])])]),
      (page "x.json" none, .object [
        ("definitions", .object [
          ("a", .object []),
          ("b", .object [("$ref", .string "#/definitions/a")]),
          ("c", .object [("$ref", .string "#/definitions/b")])])]),
      (page "u.json" none, .object [
        ("properties", .object [
          ("p", .object [("$ref", .string "r.json")]),
          ("q", .object [("$ref", .string "x.json#/definitions/b")])])])] }

/-- A call can need the calls before it, for its references or for its own URI, and it can fail
because of them. -/
theorem depends_on_history :
    (Cache.History tight chained.documents.find?
        (chained.after tight (page "r.json" (some "/definitions/b"))).cache ∧
      ((ofUri (page "r.json" (some "/definitions/a"))).run tight
        (chained.after tight (page "r.json" (some "/definitions/b")))).1.isOk = true ∧
      ((ofUri (page "r.json" (some "/definitions/a"))).run tight chained).1.isOk = false) ∧
    (Cache.History .standard declaring.documents.find?
        (declaring.after .standard (page "r.json" none)).cache ∧
      ((ofUri (page "other.json" none)).run .standard
        (declaring.after .standard (page "r.json" none))).1.isOk = true ∧
      ((ofUri (page "other.json" none)).run .standard declaring).1.isOk = false) ∧
    Cache.History tight shadowing.documents.find?
        (shadowing.after tight (page "v.json" none)).cache ∧
      ((ofUri (page "u.json" none)).run tight
        (shadowing.after tight (page "v.json" none))).1.isOk = false ∧
      ((ofUri (page "u.json" none)).run tight shadowing).1.isOk = true := by
  refine ⟨⟨Cache.history_after rfl ?_, ?_, ?_⟩, ⟨Cache.history_after rfl ?_, ?_, ?_⟩, Cache.history_after rfl ?_, ?_, ?_⟩ <;>
  decide +kernel

end Request
end SchemaAtlas
