import SchemaAtlas.Proofs.History.Again

/-!
# Loading with a cache and without

Two loads read the same position, one with an empty cache and one with a cache whose nodes loads
before it have read. Both know the same nodes, but for those that the cache has: where only one of
them looks a node up, the other one reads it, and comes to nothing that the cache does not cover.
So where the load with the empty cache succeeds, the other one does.
-/

namespace SchemaAtlas

namespace Session

variable {shelf : Shelf} {policy : Policy} {context : OpenDocument} {c : Cache}
variable {s s' t t' : Session} {uri : Uri} {α : Type}

/-- A table has no more URIs than another one and a cache. -/
def Within (c : Cache) (table other : List (Uri × α)) : Prop :=
  ∀ {uri}, Entries.contains uri table = true →
    Entries.contains uri other = true ∨ c.contains uri = true

theorem Within.putNew {table other : List (Uri × α)} (h : Within c table other) {uris uris' : List Uri}
    (hu : ∀ uri ∈ uris, uri ∈ uris' ∨ c.contains uri = true) (a b : α) :
    Within c (uris.foldl (fun table uri => Entries.putNew uri a table) table)
      (uris'.foldl (fun table uri => Entries.putNew uri b table) other) := by
  intro uri hk
  rcases Entries.contains_putNew_iff.mp hk with hm | hk
  · exact (hu uri hm).imp_left fun hm => Entries.contains_putNew_iff.mpr (Or.inl hm)
  · exact (h hk).imp_left fun hk => Entries.contains_putNew_iff.mpr (Or.inr hk)

/-- The same nodes were finished in two sessions, but for those that a cache has, and the second
has no error. -/
structure Level (c : Cache) (s t : Session) : Prop where
  ahead : Within c s.built t.built
  behind : Within c t.built s.built
  report : t.report.hasErrors = false

theorem Level.leave (h : Level c s t) (schema schema' : Schema) {uris uris' : List Uri}
    (hu : ∀ uri ∈ uris, uri ∈ uris' ∨ c.contains uri = true)
    (hu' : ∀ uri ∈ uris', uri ∈ uris ∨ c.contains uri = true) :
    Level c (s.leave schema uris) (t.leave schema' uris') where
  ahead := Within.putNew h.ahead hu schema schema'
  behind := Within.putNew h.behind hu' schema' schema
  report := h.report

theorem Level.finish (h : Level c s t) (schema schema' : Schema) (uris : List Uri) :
    Level c (s.finish schema uris) (t.finish schema' uris) where
  ahead := Within.putNew h.ahead (fun _ => Or.inl) schema schema'
  behind := Within.putNew h.behind (fun _ => Or.inl) schema' schema
  report := h.report

theorem Level.steady (h : Level c s t) (hs : Steady s s') (ht : Steady t t') : Level c s' t' where
  ahead := by
    rw [hs.idle.alike.built, ht.idle.alike.built]
    exact h.ahead
  behind := by
    rw [hs.idle.alike.built, ht.idle.alike.built]
    exact h.behind
  report := ht.report.trans h.report

/-- What only one of the sessions adds is in the cache. -/
theorem Level.adds_left (h : Level c s t) (hf : Frame s s') (ha : Adds c s s') : Level c s' t where
  ahead := fun hk => (ha.built hk).elim h.ahead Or.inr
  behind := by
    intro uri hk
    refine (h.behind hk).imp_left fun hk => ?_
    obtain ⟨schema, hb⟩ := Option.isSome_iff_exists.mp hk
    exact Option.isSome_iff_exists.mpr ⟨schema, hf.built hb⟩
  report := h.report

theorem Level.adds_right (h : Level c s t) (hf : Frame t t') (ha : Adds c t t') : Level c s t' where
  ahead := by
    intro uri hk
    refine (h.ahead hk).imp_left fun hk => ?_
    obtain ⟨schema, hb⟩ := Option.isSome_iff_exists.mp hk
    exact Option.isSome_iff_exists.mpr ⟨schema, hf.built hb⟩
  behind := fun hk => (ha.built hk).elim h.behind Or.inr
  report := ha.report h.report

/-- Sessions that have come to the same place, the first one without a cache. -/
structure Abreast (shelf : Shelf) (policy : Policy) (c : Cache) (context : OpenDocument)
    (s t : Session) : Prop extends Level c s t where
  first : s.On shelf policy context
  second : t.On shelf policy context
  alone : s.cache = .empty
  cache : t.cache = c
  resolving : t.resolving = s.resolving
  entered : Within c s.inProgress t.inProgress
  followed : Within c t.inProgress s.inProgress

namespace Abreast

variable (h : Abreast shelf policy c context s t)

include h

/-- Of two sessions later on only the finished nodes and the errors are in question. -/
theorem frame (hs : Frame s s') (ht : Frame t t') (hlevel : Level c s' t') :
    Abreast shelf policy c context s' t' where
  toLevel := hlevel
  first := h.first.frame hs
  second := h.second.frame ht
  alone := hs.cache.trans h.alone
  cache := ht.cache.trans h.cache
  resolving := by rw [ht.resolving, hs.resolving, h.resolving]
  entered := by
    rw [ht.inProgress h.second.numbered, hs.inProgress h.first.numbered]
    exact h.entered
  followed := by
    rw [ht.inProgress h.second.numbered, hs.inProgress h.first.numbered]
    exact h.followed

theorem steady (hs : Steady s s') (ht : Steady t t') : Abreast shelf policy c context s' t' :=
  h.frame hs.frame ht.frame (h.toLevel.steady hs ht)

theorem push {document : OpenDocument} (hd : shelf.Has document) :
    Abreast shelf policy c document (s.push document) (t.push document) where
  __ := h
  first := h.first.push hd
  second := h.second.push hd

theorem beginResolving (uri : Uri) :
    Abreast shelf policy c context (s.beginResolving uri) (t.beginResolving uri) where
  __ := h
  first := h.first.beginResolving uri
  second := h.second.beginResolving uri
  resolving := congrArg (uri :: ·) h.resolving

theorem enter {uris uris' : List Uri} (hu : ∀ uri ∈ uris, uri ∈ uris' ∨ c.contains uri = true)
    (hu' : ∀ uri ∈ uris', uri ∈ uris ∨ c.contains uri = true) :
    Abreast shelf policy c context (s.enter uris) (t.enter uris') where
  __ := h
  first := h.first.enter uris
  second := h.second.enter uris'
  entered := Within.putNew h.entered hu _ _
  followed := Within.putNew h.followed hu' _ _

theorem knows_right (hk : s.knows uri = true) : t.knows uri = true ∨ c.contains uri = true := by
  rcases Bool.or_eq_true_iff.mp hk with hk | hk
  · exact (h.entered hk).imp_left fun hk => Bool.or_eq_true_iff.mpr (Or.inl hk)
  · exact (h.ahead hk).imp_left fun hk => Bool.or_eq_true_iff.mpr (Or.inr hk)

theorem knows_left (hk : t.knows uri = true) : s.knows uri = true ∨ c.contains uri = true := by
  rcases Bool.or_eq_true_iff.mp hk with hk | hk
  · exact (h.followed hk).imp_left fun hk => Bool.or_eq_true_iff.mpr (Or.inl hk)
  · exact (h.behind hk).imp_left fun hk => Bool.or_eq_true_iff.mpr (Or.inr hk)

/-- Without its own nodes the second session finds those of the cache. -/
theorem finds_of_contains (hk : c.contains uri = true) : t.finds uri = true :=
  Bool.or_eq_true_iff.mpr (Or.inr (h.cache ▸ hk))

theorem finds_right (hf : s.finds uri = true) : t.finds uri = true := by
  rcases Bool.or_eq_true_iff.mp hf with hk | hk
  · rcases h.knows_right hk with hk | hk
    · exact Bool.or_eq_true_iff.mpr (Or.inl hk)
    · exact h.finds_of_contains hk
  · rw [h.alone] at hk
    cases hk

/-- What only the second session finds is in the cache. -/
theorem contains_of_finds (hf : s.finds uri = false) (hf' : t.finds uri = true) :
    c.contains uri = true := by
  rcases Bool.or_eq_true_iff.mp hf' with hk | hk
  · refine (h.knows_left hk).resolve_left fun hs => ?_
    rw [(Bool.or_eq_false_iff.mp hf).1] at hs
    cases hs
  · rwa [h.cache] at hk

end Abreast

/-- An object is read under the same URIs in both sessions, but for those that the cache has. -/
theorem Abreast.identifies (h : Abreast shelf policy c context s t) {p : Position}
    {inner inner' : Location} {declared declared' : List Uri}
    (hs : Loading.Identifies p s inner declared s') (ht : Loading.Identifies p t inner' declared' t') :
    (∀ uri ∈ p.location.pointerUri :: p.location.uri :: declared,
        uri ∈ p.location.pointerUri :: p.location.uri :: declared' ∨ c.contains uri = true) ∧
      ∀ uri ∈ p.location.pointerUri :: p.location.uri :: declared',
        uri ∈ p.location.pointerUri :: p.location.uri :: declared ∨ c.contains uri = true := by
  constructor
  · intro uri hm
    rcases ht.known (hs.answers uri hm) with hm' | hk
    · exact Or.inl hm'
    · rcases List.mem_cons.mp hm with rfl | hm
      · exact Or.inl List.mem_cons_self
      · rcases List.mem_cons.mp hm with rfl | hm
        · exact Or.inl (List.mem_cons_of_mem _ List.mem_cons_self)
        · refine Or.inr ((h.knows_left hk).resolve_left fun hs' => ?_)
          cases hs'.symm.trans (hs.fresh uri hm)
  · intro uri hm
    rcases hs.known (ht.answers uri hm) with hm' | hk
    · exact Or.inl hm'
    · rcases List.mem_cons.mp hm with rfl | hm
      · exact Or.inl List.mem_cons_self
      · rcases List.mem_cons.mp hm with rfl | hm
        · exact Or.inl (List.mem_cons_of_mem _ List.mem_cons_self)
        · refine Or.inr ((h.knows_right hk).resolve_left fun ht' => ?_)
          cases ht'.symm.trans (ht.fresh uri hm)

end Session

namespace Loading

open LoadM Session

variable {shelf : Shelf} {policy : Policy} {context : OpenDocument} {c : Cache}
variable {load other : NodeLoader} {p q : Position} {uri : Uri} {hops : Nat} {s s' t t' : Session}

/-- The pursuit of a load without a cache by one with a cache. -/
def overtaking (shelf : Shelf) (policy : Policy) (c : Cache) (context : OpenDocument) : Pursuit where
  related := Abreast shelf policy c context
  counts := fun s => s.report.hasErrors = false
  excused := fun e _ => e = .exhausted

theorem overtaking_lawful : (overtaking shelf policy c context).Lawful where
  numbered := fun h => h.first.numbered
  policy := fun h => h.second.policy.trans h.first.policy.symm
  counts := fun _ hf hs => hf.hasErrors_eq_false hs
  record := by
    intro s t severity kind document path message h hs
    have hsevere : (s.report.hasErrors || severity = .error) = false := (hasErrors_record ..).symm.trans hs
    refine h.frame (frame_record ..) (frame_record ..) ⟨h.ahead, h.behind, ?_⟩
    rw [hasErrors_record, h.report, (Bool.or_eq_false_iff.mp hsevere).2]
    rfl
  add := fun _ _ _ h => h.frame (frame_add ..) (frame_add ..) ⟨h.ahead, h.behind, h.report⟩

/-- A loader without a cache and one with a cache that keeps up with it. -/
def Accompanies (shelf : Shelf) (policy : Policy) (c : Cache) (load other : NodeLoader) : Prop :=
  ∀ {p hops}, shelf.Holds p → KeepsUp (overtaking shelf policy c p.context)
    (Option.Rel (Same fun _ => ())) (load p.location p.value hops) (other p.location p.value hops)

theorem Accompanies.chase (hshelf : shelf.Orderly) (hl : Framed load) (hl' : Framed other)
    (hload : Accompanies shelf policy c load other)
    (hst : Abreast shelf policy c context s t) {origin origin' : Location} {target : Schema}
    {r : Except Stop Schema} (hx : ChaseRun load origin uri hops s (.ok target) s')
    (hs : s'.report.hasErrors = false) (hy : ChaseRun other origin' uri hops t r t') :
    r = .error .exhausted ∨ ∃ target', r = .ok target' ∧ Level c s' t' := by
  obtain ⟨q, hat⟩ := at?_of_chase hshelf hl hst.first hx
  obtain ⟨hholds, -⟩ := hshelf.holds_of_at? hat
  obtain ⟨s₁, s₂, hsteady, hr, rfl⟩ := chase_cases hshelf hl hst.first hat hx
  obtain ⟨t₁, t₂, hsteady', hr', rfl⟩ := chase_cases hshelf hl' hst.second hat hy
  have hst₁ := (hst.steady hsteady hsteady').push hholds.toHas
  rcases (hload hholds).keeps hst₁ hr hs hr' with ⟨e, he, rfl⟩ | ⟨found, hok, hst₂, hsome⟩
  · left
    cases r with
    | ok target' => cases he
    | error e =>
      cases he
      rfl
  · right
    cases r with
    | ok target' => exact ⟨target', rfl, hst₂.ahead, hst₂.behind, hst₂.report⟩
    | error e => cases hok

theorem Accompanies.link (hshelf : shelf.Orderly) (hground : c.Grounded shelf policy)
    {steps steps' : Nat}
    (hload : Accompanies shelf policy c (loadNode steps) (loadNode steps'))
    (hst : Abreast shelf policy c context s t) {draft : Draft} {location : Location}
    {found : Option Schema} {r : Except Stop (Option Schema)}
    (hx : LinkRun (loadNode steps) draft location uri hops s (.ok found) s')
    (hf : Frame s s') (hs : s'.report.hasErrors = false)
    (hy : LinkRun (loadNode steps') draft location uri hops t r t') :
    r = .error .exhausted ∨ ∃ schema, r = .ok (some schema) ∧ Level c s' t' := by
  have hl := framed_loadNode steps
  cases hx with
  | found hfinds =>
    have hfinds' := hst.finds_right hfinds
    cases hy with
    | found => exact Or.inr ⟨_, rfl, hst.ahead, hst.behind, hst.report⟩
    | refused hnone | followed hnone | ends hnone => cases hnone.symm.trans hfinds'
  | @followed _ target s₁ s₂ hnone hnear hnew hchase heq =>
    subst heq
    cases hy with
    | found hfinds =>
      -- only the cache knows the target, so reading it adds nothing but what the cache has
      have hcontains := hst.contains_of_finds hnone hfinds
      obtain ⟨q, hat, hcovered, -⟩ := hground hcontains
      rcases Repeats.chase hshelf hl (repeats_loadNode hshelf hground steps)
        (hst.first.beginResolving uri) hat hcovered hchase with ⟨e, he, -⟩ | ⟨_, -, hadds⟩
      · cases he
      · have hfollowed := hadds.follow target hcontains
        have hlevel := hst.adds_left hf ⟨hfollowed.built, hfollowed.report⟩
        exact Or.inr ⟨_, rfl, hlevel.ahead, hlevel.behind, hlevel.report⟩
    | refused _ hrefuses =>
      cases hrefuses with
      | tooFar hfar =>
        rw [hst.second.policy, ← hst.first.policy] at hfar
        exact absurd hnear (Nat.not_lt.mpr hfar)
      | circular _ hmem => exact absurd (hst.resolving ▸ hmem) hnew
    | followed _ _ _ hchase' heq' =>
      subst heq'
      rcases hload.chase hshelf hl (framed_loadNode steps') (hst.beginResolving uri) hchase hs
        hchase' with he | ⟨target', htarget, hlevel⟩
      · cases he
      · have hfinished := hlevel.finish target target' [uri]
        cases htarget
        exact Or.inr ⟨_, rfl, hfinished.ahead, hfinished.behind, hfinished.report⟩
    | ends _ _ _ hchase' =>
      rcases hload.chase hshelf hl (framed_loadNode steps') (hst.beginResolving uri) hchase hs
        hchase' with he | ⟨target', htarget, -⟩
      · cases he
        exact Or.inl rfl
      · cases htarget

theorem Accompanies.object (hshelf : shelf.Orderly) {steps steps' : Nat}
    (hload : Accompanies shelf policy c (loadNode steps) (loadNode steps')) (hp : shelf.Holds p)
    {members : List (String × Json)} (hv : p.value = .object members)
    (hst : Abreast shelf policy c p.context s t) {schema : Schema} {r : Except Stop Schema}
    (hx : ObjectRun (loadNode steps) p.context p.location members s (.ok schema) s')
    (hs : s'.report.hasErrors = false)
    (hy : ObjectRun (loadNode steps') p.context p.location members t r t') :
    r = .error .exhausted ∨ ∃ schema', r = .ok schema' ∧ Level c s' t' := by
  have hkeeps : KeepsUp (overtaking shelf policy c p.context)
      (Builder.Matches (fun _ => ()) p.inner p.context.draft p.context.draft)
      (keywordsRun (loadNode steps) p.context p.inner members)
      (keywordsRun (loadNode steps') p.context p.inner members) :=
    Digest.keepsUp_members overtaking_lawful (framed_loadNode steps).frame
      (fun place hplace => hload (p := ⟨p.context, place.1, place.2⟩)
        (hp.nested hshelf hv hplace)) (List.Subset.refl _) .new
  cases hx with
  | finished hid hm =>
    have hfirst := identifies_of_holds hshelf hp hv hid
    cases hy with
    | finished hid' hm' =>
      have hsecond := identifies_of_holds hshelf hp hv hid'
      obtain ⟨hu, hu'⟩ := hst.identifies hfirst hsecond
      have hst₁ := (hst.steady hfirst.steady hsecond.steady).enter hu hu'
      rw [hfirst.inner] at hm
      rw [hsecond.inner] at hm'
      rcases hkeeps.keeps hst₁ hm hs hm' with ⟨e, he, -⟩ | ⟨_, -, hst₂, -⟩
      · cases he
      · exact Or.inr ⟨_, rfl, hst₂.toLevel.leave _ _ hu hu'⟩
    | ends hid' hm' =>
      have hsecond := identifies_of_holds hshelf hp hv hid'
      obtain ⟨hu, hu'⟩ := hst.identifies hfirst hsecond
      have hst₁ := (hst.steady hfirst.steady hsecond.steady).enter hu hu'
      rw [hfirst.inner] at hm
      rw [hsecond.inner] at hm'
      rcases hkeeps.keeps hst₁ hm hs hm' with ⟨e, he, rfl⟩ | ⟨_, hok, -⟩
      · cases he
        exact Or.inl rfl
      · cases hok

/-- A node that only one of the two sessions knows is read by the other, which comes to no more
than the cache has. -/
theorem Abreast.repeats_right (hshelf : shelf.Orderly) (hground : c.Grounded shelf policy)
    (hp : shelf.Holds p) (hcovered : p.Covered c) {steps : Nat}
    (hst : Abreast shelf policy c p.context s t) {r : Except Stop (Option Schema)}
    (hy : Runs (loadNode steps p.location p.value hops) t r t') :
    r = .error .exhausted ∨ ∃ schema, r = .ok (some schema) ∧ Level c s t' := by
  have hframe := (framed_loadNode steps).frame hy
  rcases repeats_loadNode hshelf hground steps hp hcovered hst.second hy with
    ⟨e, rfl, hcut⟩ | ⟨schema, rfl, hadds⟩
  · rcases hcut with rfl | ⟨-, uri, hhas, hlacks⟩
    · exact Or.inl rfl
    · rw [hframe.cache, hst.cache, hhas] at hlacks
      cases hlacks
  · exact Or.inr ⟨schema, rfl, hst.adds_right hframe hadds⟩

/-- Reading an object whose node neither session knows. -/
theorem Accompanies.unknown (hshelf : shelf.Orderly) (hground : c.Grounded shelf policy)
    {steps steps' : Nat} (hload : Accompanies shelf policy c (loadNode steps) (loadNode steps'))
    (hp : shelf.Holds p) {object : List (String × Json)} (hv : p.value = .object object)
    (hst : Abreast shelf policy c p.context s t)
    (hb : Entries.contains p.location.pointerUri s.built = false)
    (hb' : Entries.contains p.location.pointerUri t.built = false) {a : Option Schema}
    {r : Except Stop (Option Schema)}
    (hx : Runs (loadWith (loadNode steps) p.location (.object object) hops) s (.ok a) s')
    (hf : Frame s s') (hs : s'.report.hasErrors = false)
    (hy : Runs (loadWith (loadNode steps') p.location (.object object) hops) t r t') :
    r = .error .exhausted ∨ ∃ schema, r = .ok (some schema) ∧ Level c s' t' := by
  have hnone : ∀ {u : Session} {schema : Schema},
      Entries.get? p.location.pointerUri u.built = some schema →
      Entries.contains p.location.pointerUri u.built ≠ false := by
    intro u schema hget
    rw [Entries.contains, hget]
    simp
  cases nodeRun_of_runs hx with
  | outside hout => cases hst.first.current?.symm.trans hout
  | known _ _ hget => exact absurd hb (hnone hget)
  | boolean _ hbool => cases hbool
  | refused _ hrefused => cases hrefused
  | @reference context _ written schema _ hc hobject _ href hrun =>
    cases hst.first.current?.symm.trans hc
    cases hobject
    cases hrun with
    | refers hu =>
      rcases link_of_runs hst.first.current? href hu hx with ⟨_, hget, -⟩ | ⟨-, hlink⟩
      · exact absurd hb (hnone hget)
      · rcases link_of_runs hst.second.current? href hu hy with ⟨_, hget, -⟩ | ⟨-, hlink'⟩
        · exact absurd hb' (hnone hget)
        · exact hload.link hshelf hground hst hlink hf hs hlink'
  | @object context _ schema _ hc hobject _ href hrun =>
    cases hst.first.current?.symm.trans hc
    cases hobject
    rcases plain_of_nodeRun hst.second.current? href (nodeRun_of_runs hy) with
      ⟨_, hget, -⟩ | ⟨-, r₁, hrun', rfl⟩
    · exact absurd hb' (hnone hget)
    · rcases hload.object hshelf hp hv hst hrun hs hrun' with rfl | ⟨schema', rfl, hlevel⟩
      · exact Or.inl rfl
      · exact Or.inr ⟨schema', rfl, hlevel⟩

/-- Reading a value that can be read, with one more step for each load. -/
theorem Accompanies.node (hshelf : shelf.Orderly) (hground : c.Grounded shelf policy)
    {steps steps' : Nat} (hload : Accompanies shelf policy c (loadNode steps) (loadNode steps'))
    (hp : shelf.Holds p) (ha : p.context.accepts p.value = true)
    (hst : Abreast shelf policy c p.context s t) {a : Option Schema}
    {r : Except Stop (Option Schema)}
    (hx : Runs (loadNode (steps + 1) p.location p.value hops) s (.ok a) s')
    (hs : s'.report.hasErrors = false)
    (hy : Runs (loadNode (steps' + 1) p.location p.value hops) t r t') :
    r = .error .exhausted ∨ ∃ schema, r = .ok (some schema) ∧ Level c s' t' := by
  have hf := (framed_loadNode (steps + 1)).frame hx
  have hx' : Runs (loadWith (loadNode steps) p.location p.value hops) s (.ok a) s' := hx
  have hy' : Runs (loadWith (loadNode steps') p.location p.value hops) t r t' := hy
  have hcovered (hk : c.contains p.location.pointerUri = true) : p.Covered c := by
    obtain ⟨q, hat, hq, -⟩ := hground hk
    cases (hp.at?_pointerUri hshelf ha).symm.trans hat
    exact hq
  cases hv : p.value with
  | object object =>
    rw [hv] at hx' hy'
    cases hb : Entries.contains p.location.pointerUri s.built with
    | true =>
      obtain ⟨-, rfl⟩ := known_of_runs hst.first.current? hb hx'
      cases hb' : Entries.contains p.location.pointerUri t.built with
      | true =>
        obtain ⟨⟨schema, rfl⟩, rfl⟩ := known_of_runs hst.second.current? hb' hy'
        exact Or.inr ⟨schema, rfl, hst.toLevel⟩
      | false =>
        have hk := (hst.ahead hb).resolve_left (by simp [hb'])
        exact Abreast.repeats_right hshelf hground hp (hcovered hk) hst hy
    | false =>
      cases hb' : Entries.contains p.location.pointerUri t.built with
      | true =>
        have hk := (hst.behind hb').resolve_left (by simp [hb])
        obtain ⟨⟨schema, rfl⟩, rfl⟩ := known_of_runs hst.second.current? hb' hy'
        rcases repeats_loadNode hshelf hground (steps + 1) hp (hcovered hk) hst.first hx with
          ⟨e, he, -⟩ | ⟨_, -, hadds⟩
        · cases he
        · exact Or.inr ⟨schema, rfl, hst.adds_left hf hadds⟩
      | false => exact hload.unknown hshelf hground hp hv hst hb hb' hx' hf hs hy'
  | bool b =>
    cases nodeRun_of_runs hx' with
    | boolean =>
      cases nodeRun_of_runs hy' with
      | boolean => exact Or.inr ⟨_, rfl, hst.ahead, hst.behind, hst.report⟩
      | outside hnone => cases hst.second.current?.symm.trans hnone
      | refused hc hrefused =>
        cases hst.second.current?.symm.trans hc
        cases ha.symm.trans hrefused
      | known _ hobject | badReference _ hobject | reference _ hobject | referenceEnds _ hobject
      | object _ hobject | objectEnds _ hobject => cases hv.symm.trans hobject
    | outside hnone => cases hst.first.current?.symm.trans hnone
    | refused hc hrefused =>
      cases hst.first.current?.symm.trans hc
      cases ha.symm.trans hrefused
    | known _ hobject | reference _ hobject | object _ hobject => cases hv.symm.trans hobject
  | null | number | string | array =>
    rw [hv] at ha
    cases ha

theorem accompanies_loadNode (hshelf : shelf.Orderly) (hground : c.Grounded shelf policy)
    (steps steps' : Nat) :
    Accompanies shelf policy c (loadNode steps) (loadNode steps') := by
  induction steps generalizing steps' with
  | zero =>
    intro p hops _
    refine ⟨(framed_loadNode 0).frame, fun _ hx => ?_⟩
    cases (runs_throw.mp hx).1
  | succ steps ih =>
    intro p hops hp
    cases ha : p.context.accepts p.value with
    | false =>
      exact keepsUp_of_refused overtaking_lawful
        (fun h => ⟨h.first.current?, h.second.current?⟩) (fun _ => rfl) ha (steps + 1) steps'
    | true =>
      refine ⟨(framed_loadNode (steps + 1)).frame, fun {s a s' t r t'} hst hx hs hy => ?_⟩
      have hsome : a ≠ none := by
        rintro rfl
        cases ha.symm.trans ((framed_loadNode (steps + 1)).refusal hst.first.current? hx).1
      obtain ⟨known, rfl⟩ := Option.ne_none_iff_exists'.mp hsome
      cases steps' with
      | zero => exact Or.inl ⟨_, (runs_throw.mp hy).1, rfl⟩
      | succ steps' =>
        rcases Accompanies.node hshelf hground (ih steps') hp ha hst hx hs hy with rfl | ⟨schema, rfl, hlevel⟩
        · exact Or.inl ⟨_, rfl, rfl⟩
        · exact Or.inr ⟨_, rfl, hst.frame ((framed_loadNode _).frame hx)
            ((framed_loadNode _).frame hy) hlevel, .some rfl⟩

end Loading
end SchemaAtlas
