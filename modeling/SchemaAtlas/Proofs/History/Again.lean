import SchemaAtlas.Proofs.History.Covered
import SchemaAtlas.Proofs.History.Pursuit

/-!
# Reading again what a cache covers

The keywords of an object that a cache has were read by some load, which came to positions that
the cache covers only. So whoever reads the object again comes to nothing but such positions, and
reads them all: `repeats_loadNode` says that it ends without an error and with no new node that
the cache lacks, unless it refuses a reference because it does not look it up in the cache.
-/

namespace SchemaAtlas

section

variable (shelf : Shelf) (policy : Policy) (c : Cache)

/-- A position whose keywords, if it is an object, were read by a load that came to covered
positions only. -/
def Position.Read (p : Position) : Prop :=
  ∀ members, p.members? = some members → ∃ steps s builder s', s.On shelf policy p.context ∧
    s.Mapped shelf c ∧
    Runs (Loading.keywordsRun (Loading.loadNode steps) p.context p.inner members) s
      (.ok builder) s' ∧ s'.Banked c

/-- The URIs in a cache name covered positions that were read. -/
def Cache.Grounded : Prop :=
  ∀ {uri}, c.contains uri = true →
    ∃ p, shelf.at? uri = some p ∧ p.Covered c ∧ p.Read shelf policy c

end

namespace Session

variable {shelf : Shelf} {policy : Policy} {context : OpenDocument} {c c' : Cache}
variable {s s₁ s' : Session} {uri : Uri}

theorem Banked.mono (h : s.Banked c) (hc : ∀ uri, c.contains uri = true → c'.contains uri = true) :
    s.Banked c' :=
  ⟨fun hf => hc _ (h.finds hf), h.report⟩

theorem Mapped.mono (h : s.Mapped shelf c)
    (hc : ∀ uri, c.contains uri = true → c'.contains uri = true) : s.Mapped shelf c' := by
  intro uri hk
  obtain ⟨p, hat, hcovered⟩ := h hk
  exact ⟨p, hat, hcovered.mono hc⟩

/-- No node was finished but under URIs in a cache, and no error was recorded. -/
structure Adds (c : Cache) (s s' : Session) : Prop where
  built : ∀ {uri}, Entries.contains uri s'.built = true →
    Entries.contains uri s.built = true ∨ c.contains uri = true
  report : s.report.hasErrors = false → s'.report.hasErrors = false

theorem Adds.refl (s : Session) : Adds c s s := ⟨Or.inl, id⟩

theorem Adds.of_steady (h : Steady s s') : Adds c s s' where
  built := fun hk => Or.inl (h.idle.alike.built ▸ hk)
  report := fun hs => h.report.trans hs

theorem Adds.trans (h : Adds c s s₁) (h' : Adds c s₁ s') : Adds c s s' where
  built := fun hk => (h'.built hk).elim h.built Or.inr
  report := fun hs => h'.report (h.report hs)

theorem Adds.finish (h : Adds c s s') {schema : Schema} {uris : List Uri}
    (hu : ∀ uri ∈ uris, c.contains uri = true) : Adds c s (s'.finish schema uris) where
  built := by
    intro uri hk
    rcases Entries.contains_putNew_iff.mp hk with hk | hk
    · exact Or.inr (hu uri hk)
    · exact h.built hk
  report := h.report

/-- Following a reference adds the URI. -/
theorem Adds.follow (h : Adds c (s.beginResolving uri) s') (schema : Schema)
    (hu : c.contains uri = true) : Adds c s ((s'.endResolving uri).finish schema [uri]) where
  built := (h.finish fun _ hm => List.mem_singleton.mp hm ▸ hu).built
  report := h.report

theorem Adds.leave {uris : List Uri} {schema : Schema} (h : Adds c (s.enter uris) s')
    (hu : ∀ uri ∈ uris, c.contains uri = true) : Adds c s (s'.leave schema uris) where
  built := (h.finish hu).built
  report := h.report

/-- A session out of steps, or one that refused a reference and lacks a URI of a cache. -/
def Cut (c : Cache) (e : Stop) (s : Session) : Prop :=
  e = .exhausted ∨ (∃ issue ∈ s.report.issues, Loading.isRefusal issue.kind) ∧
    ∃ uri, c.contains uri = true ∧ s.cache.contains uri = false

end Session

theorem Position.Read.mono {shelf : Shelf} {policy : Policy} {c c' : Cache} {p : Position}
    (h : p.Read shelf policy c) (hc : ∀ uri, c.contains uri = true → c'.contains uri = true) :
    p.Read shelf policy c' := by
  intro members hm
  obtain ⟨steps, s, builder, s', hon, hmapped, hr, hbanked⟩ := h members hm
  exact ⟨steps, s, builder, s', hon, hmapped.mono hc, hr, hbanked.mono hc⟩

namespace Loading

open LoadM Session

variable {shelf : Shelf} {policy : Policy} {context : OpenDocument} {c : Cache}
variable {load : NodeLoader} {p q : Position} {uri : Uri} {hops : Nat} {s t t' : Session}

theorem marks_read : Marks shelf policy c (Position.Read shelf policy c) where
  plain := by
    intro p hnone members hm
    cases hnone.symm.trans hm
  object := by
    intro p members steps s builder s' hm hon hmapped hr hbanked members' hm'
    cases hm.symm.trans hm'
    exact ⟨steps, s, builder, s', hon, hmapped, hr, hbanked⟩

theorem marks_trivial : Marks shelf policy c fun _ => True := ⟨fun _ => trivial, fun _ _ _ _ _ => trivial⟩

/-! ## Repeating -/

/-- A loader that reads again what a cache covers, as far as it is let. -/
def Repeats (shelf : Shelf) (policy : Policy) (c : Cache) (load : NodeLoader) : Prop :=
  ∀ {p hops t r t'}, shelf.Holds p → p.Covered c → t.On shelf policy p.context →
    Runs (load p.location p.value hops) t r t' →
    (∃ e, r = .error e ∧ t'.Cut c e) ∨ ∃ schema, r = .ok (some schema) ∧ Adds c t t'

theorem Repeats.chase (hshelf : shelf.Orderly) (hl : Framed load) (hload : Repeats shelf policy c load)
    (hon : t.On shelf policy context) (hat : shelf.at? uri = some q) (hq : q.Covered c)
    {origin : Location} {r : Except Stop Schema} (h : ChaseRun load origin uri hops t r t') :
    (∃ e, r = .error e ∧ t'.Cut c e) ∨ ∃ target, r = .ok target ∧ Adds c t t' := by
  obtain ⟨t₁, t₂, hsteady, hr, rfl⟩ := chase_cases hshelf hl hon hat h
  obtain ⟨hholds, -⟩ := hshelf.holds_of_at? hat
  rcases hload hholds hq ((hon.frame hsteady.frame).push hholds.toHas) hr with ⟨e, he, hcut⟩ | ⟨schema, hok, hadds⟩
  · left
    cases r with
    | ok target => cases he
    | error e' =>
      cases he
      exact ⟨e, rfl, hcut⟩
  · right
    cases r with
    | error e => cases hok
    | ok target =>
      have hall := (Adds.of_steady hsteady).trans ⟨hadds.built, hadds.report⟩
      exact ⟨target, rfl, hall.built, hall.report⟩

theorem Repeats.link (hshelf : shelf.Orderly) (hground : c.Grounded shelf policy) (hl : Framed load)
    (hload : Repeats shelf policy c load) (hon : t.On shelf policy context)
    (hu : c.contains uri = true) {draft : Draft} {location : Location}
    {r : Except Stop (Option Schema)} (h : LinkRun load draft location uri hops t r t') :
    (∃ e, r = .error e ∧ t'.Cut c e) ∨ ∃ schema, r = .ok (some schema) ∧ Adds c t t' := by
  obtain ⟨q, hat, hcovered, -⟩ := hground hu
  cases h with
  | found => exact Or.inr ⟨_, rfl, Or.inl, id⟩
  | refused hf hrefuses =>
    refine Or.inl ⟨_, rfl, Or.inr ⟨⟨_, List.mem_append_right _ (List.mem_singleton.mpr rfl),
      hrefuses.isRefusal⟩, uri, hu, ?_⟩⟩
    exact (Bool.or_eq_false_iff.mp hf).2
  | followed _ _ _ hchase heq =>
    subst heq
    rcases hload.chase hshelf hl (hon.beginResolving uri) hat hcovered hchase with
      ⟨e, he, -⟩ | ⟨target, htarget, hadds⟩
    · cases he
    · have hfollowed := hadds.follow target hu
      cases htarget
      exact Or.inr ⟨_, rfl, hfollowed.built, hfollowed.report⟩
  | ends _ _ _ hchase =>
    rcases hload.chase hshelf hl (hon.beginResolving uri) hat hcovered hchase with
      ⟨e, he, hcut⟩ | ⟨target, htarget, -⟩
    · cases he
      exact Or.inl ⟨_, rfl, hcut⟩
    · cases htarget

/-- What was read once, and who reads it again and has come from a session without an addition. -/
structure Retraces (shelf : Shelf) (policy : Policy) (c : Cache) (context : OpenDocument)
    (origin s t : Session) : Prop where
  first : s.On shelf policy context
  mapped : s.Mapped shelf c
  second : t.On shelf policy context
  adds : Adds c origin t

/-- The pursuit of a load that read something by one that reads it again. -/
def retracing (shelf : Shelf) (policy : Policy) (c : Cache) (context : OpenDocument)
    (origin : Session) : Pursuit where
  related := Retraces shelf policy c context origin
  counts := Banked c
  excused := Cut c

theorem retracing_lawful {origin : Session} :
    (retracing shelf policy c context origin).Lawful where
  numbered := fun h => h.first.numbered
  policy := fun h => h.second.policy.trans h.first.policy.symm
  counts := fun hn hf hb => hb.of_frame hn hf
  record := by
    intro s t severity kind document path message h hb
    have hsevere := hb.report
    rw [hasErrors_record, Bool.or_eq_false_iff] at hsevere
    refine ⟨h.first.frame (frame_record ..), h.mapped, h.second.frame (frame_record ..), h.adds.built,
      fun horigin => ?_⟩
    rw [hasErrors_record, h.adds.report horigin, hsevere.2]
    rfl
  add := fun _ _ _ h => ⟨h.first.frame (frame_add ..), h.mapped, h.second.frame (frame_add ..),
    h.adds.built, h.adds.report⟩

theorem Repeats.keepsUp (hshelf : shelf.Orderly) {steps steps' : Nat} {origin : Session}
    (hload : Repeats shelf policy c (loadNode steps')) (hp : shelf.Holds p) :
    KeepsUp (retracing shelf policy c p.context origin) (Option.Rel (Same fun _ => ()))
      (loadNode steps p.location p.value 0) (loadNode steps' p.location p.value 0) := by
  cases ha : p.context.accepts p.value with
  | false =>
    exact keepsUp_of_refused retracing_lawful
      (fun h => ⟨h.first.current?, h.second.current?⟩) (fun _ => Or.inl rfl) ha steps steps'
  | true =>
    refine ⟨(framed_loadNode steps).frame, fun {s a s' t r t'} hst hx hb hy => ?_⟩
    have hsome : a ≠ none := by
      rintro rfl
      cases ha.symm.trans ((framed_loadNode steps).refusal hst.first.current? hx).1
    obtain ⟨hsurveyed, hfound⟩ := surveys_loadNode hshelf marks_trivial steps hp hst.first
      ⟨hst.mapped, fun _ _ => trivial⟩ hx hb
    rcases hload hp (hfound hsome).1 hst.second hy with hcut | ⟨schema, rfl, hadds⟩
    · exact Or.inl hcut
    · obtain ⟨known, rfl⟩ := Option.ne_none_iff_exists'.mp hsome
      exact Or.inr ⟨_, rfl, ⟨hst.first.frame ((framed_loadNode steps).frame hx),
        hsurveyed.mapped, hst.second.frame ((framed_loadNode steps').frame hy),
        hst.adds.trans hadds⟩, .some rfl⟩

theorem Repeats.object (hshelf : shelf.Orderly) {steps : Nat}
    (hload : Repeats shelf policy c (loadNode steps)) (hp : shelf.Holds p) (hcovered : p.Covered c)
    (hread : p.Read shelf policy c) {members : List (String × Json)}
    (hv : p.value = .object members) (href : Entries.get? "$ref" members = none)
    (hon : t.On shelf policy p.context) {r : Except Stop Schema}
    (h : ObjectRun (loadNode steps) p.context p.location members t r t') :
    (∃ e, r = .error e ∧ t'.Cut c e) ∨ ∃ schema, r = .ok schema ∧ Adds c t t' := by
  have hmembers := p.members?_of_object hv href
  obtain ⟨steps', s, builder, s', hfirst, hmapped, hx, hb⟩ := hread members hmembers
  have hkeeps : ∀ origin, KeepsUp (retracing shelf policy c p.context origin)
      (Builder.Matches (fun _ => ()) p.inner p.context.draft p.context.draft)
      (keywordsRun (loadNode steps') p.context p.inner members)
      (keywordsRun (loadNode steps) p.context p.inner members) := fun origin =>
    Digest.keepsUp_members retracing_lawful (framed_loadNode steps').frame
      (fun place hplace => hload.keepsUp hshelf (p := ⟨p.context, place.1, place.2⟩)
        (hp.nested hshelf hv hplace)) (List.Subset.refl _) .new
  have hcontains : ∀ {uri}, p.answers uri → c.contains uri = true :=
    hcovered.object (by rw [hmembers]; simp)
  cases h with
  | finished hid hm =>
    obtain ⟨rfl, hanswers, -, -, hsteady⟩ := identifies_of_holds hshelf hp hv hid
    have hon₁ := hon.frame hsteady.frame
    rcases (hkeeps _).keeps ⟨hfirst, hmapped, hon₁.enter _, .refl _⟩ hx hb hm with
      ⟨e, he, -⟩ | ⟨_, -, hst, -⟩
    · cases he
    · exact Or.inr ⟨_, rfl, (Adds.of_steady hsteady).trans
        (hst.adds.leave fun uri hm => hcontains (hanswers uri hm))⟩
  | ends hid hm =>
    obtain ⟨rfl, -, -, -, hsteady⟩ := identifies_of_holds hshelf hp hv hid
    have hon₁ := hon.frame hsteady.frame
    rcases (hkeeps _).keeps ⟨hfirst, hmapped, hon₁.enter _, .refl _⟩ hx hb hm with
      ⟨e, he, hcut⟩ | ⟨_, hok, -⟩
    · cases he
      exact Or.inl ⟨_, rfl, hcut⟩
    · cases hok

theorem repeats_loadNode (hshelf : shelf.Orderly) (hground : c.Grounded shelf policy) (steps : Nat) :
    Repeats shelf policy c (loadNode steps) := by
  induction steps with
  | zero =>
    intro p hops t r t' _ _ _ h
    exact Or.inl ⟨_, (runs_throw.mp h).1, Or.inl rfl⟩
  | succ steps ih =>
    intro p hops t r t' hp hcovered hon h
    have hcurrent := hon.current?
    have hr : Runs (loadWith (loadNode steps) p.location p.value hops) t r t' := h
    cases hv : p.value with
    | object object =>
      rw [hv] at hr
      cases href : Entries.get? "$ref" object with
      | none =>
        rcases plain_of_nodeRun hcurrent href (nodeRun_of_runs hr) with
          ⟨schema, -, rfl, rfl⟩ | ⟨-, r₁, hrun, rfl⟩
        · exact Or.inr ⟨schema, rfl, .refl _⟩
        · have hread : p.Read shelf policy c := by
            have hmembers := p.members?_of_object hv href
            obtain ⟨q, hq, -, hread⟩ := hground (hcovered.object (by rw [hmembers]; simp) (Or.inl rfl))
            cases (hp.at?_pointerUri hshelf hcovered.accepted).symm.trans hq
            exact hread
          rcases ih.object hshelf hp hcovered hread hv href hon hrun with
            ⟨e, rfl, hcut⟩ | ⟨schema, rfl, hadds⟩
          · exact Or.inl ⟨e, rfl, hcut⟩
          · exact Or.inr ⟨schema, rfl, hadds⟩
      | some reference =>
        obtain ⟨uri, hu, hcontains⟩ := hcovered.reference (by
          rw [hv, Json.member?, href]
          simp)
        obtain ⟨written, rfl, hresolve⟩ := p.resolve_of_refers? hv href hu
        rcases link_of_runs hcurrent href hresolve hr with ⟨schema, -, rfl, rfl⟩ | ⟨-, hlink⟩
        · exact Or.inr ⟨schema, rfl, .refl _⟩
        · exact ih.link hshelf hground (framed_loadNode steps) hon hcontains hlink
    | bool b =>
      cases nodeRun_of_runs hr with
      | boolean => exact Or.inr ⟨_, rfl, Or.inl, id⟩
      | outside hnone => cases hcurrent.symm.trans hnone
      | refused hc ha =>
        cases hcurrent.symm.trans hc
        cases hcovered.accepted.symm.trans ha
      | known _ hobject | badReference _ hobject | reference _ hobject | referenceEnds _ hobject
      | object _ hobject | objectEnds _ hobject => cases hv.symm.trans hobject
    | null | number | string | array =>
      have haccepts := hcovered.accepted
      rw [hv] at haccepts
      cases haccepts

end Loading
end SchemaAtlas
