/-
# Tasks in any order

Whatever the order of the tasks is, if nothing goes wrong then the store has mods only that lie
somewhere in the sources, it has all mods of the sources, and for each mod that it has there is one
copy of which it has everything (`Discovery.Finds`).

So the order matters where copies of a mod differ in what they have in them: only the copy that
came first is unpacked.  Where copies nest alike (`Discovery.NestAlike`), everything that lies
somewhere in the sources is found, and all orders lead to the same mods
(`Discovery.found_in_any_order`).
-/

import Loadout.Archive.Zip
import Loadout.Proofs.Discovery.Underway

namespace Loadout

/-- **Two descriptors are about one mod** in one version, and it provides the same by both. -/
structure Descriptor.Alike (d d' : Descriptor) : Prop where
  edition : d.edition.same d'.edition = true
  provides : ∀ key, key ∈ d.provides ↔ key ∈ d'.provides

/-- Descriptors of one mod have the same keys. -/
theorem Descriptor.Alike.mem_keys {d d' : Descriptor} (h : d.Alike d') {key : String} :
    key ∈ d.id :: d.provides ↔ key ∈ d'.id :: d'.provides := by
  have hid : d.id = d'.id := (Edition.same_iff.1 h.edition).1
  rw [List.mem_cons, List.mem_cons, h.provides, hid]

instance (d d' : Descriptor) : Decidable (d.Alike d') :=
  decidable_of_iff (d.edition.same d'.edition = true ∧ d.provides ⊆ d'.provides ∧
      d'.provides ⊆ d.provides)
    ⟨fun ⟨hedition, hsub, hsup⟩ => ⟨hedition, fun _ => ⟨fun h => hsub h, fun h => hsup h⟩⟩,
      fun h => ⟨h.edition, fun _ => (h.provides _).1, fun _ => (h.provides _).2⟩⟩

namespace Discovery

/-- What the sources yield. -/
def targets (w : Setting) (items : List SourceItem) : List Target :=
  (firstLevel w items).map (·.target)

/-- The first tasks: all that the sources yield is to be visited. -/
def firstTasks (w : Setting) (items : List SourceItem) : List Task :=
  (firstLevel w items).map .visit

/-- A discovery that tasks lead to in some order, when all are done and there was no error. -/
def EndsIn (w : Setting) (items : List SourceItem) (picks : List Nat) (d : Discovery) : Prop :=
  ∃ f, follow w picks {} (firstTasks w items) = (f, []) ∧ ofFindings [] f = .ok d

/-- What is in one mod is in another one too, if that is a copy of it: for everything there is a
copy of which the same is provided. -/
def NestsLike (w : Setting) (t t' : Target) : Prop :=
  ∀ m ∈ mod? w t, ∀ m' ∈ mod? w t', m.descriptor.edition.same m'.descriptor.edition = true →
    ∀ u ∈ inner w m, ∀ n ∈ mod? w u,
      ∃ u' ∈ inner w m', ∃ n' ∈ mod? w u', n'.descriptor.Alike n.descriptor

instance (w : Setting) (t t' : Target) : Decidable (NestsLike w t t') :=
  inferInstanceAs (Decidable (∀ m ∈ mod? w t, ∀ m' ∈ mod? w t', _ → ∀ u ∈ inner w m,
    ∀ n ∈ mod? w u, ∃ u' ∈ inner w m', ∃ n' ∈ mod? w u', n'.descriptor.Alike n.descriptor))

/-- **Copies of one mod nest alike**, wherever they lie in the sources. -/
def NestAlike (w : Setting) (sources : List Target) : Prop :=
  ∀ t t', Reached w sources t → Reached w sources t' → NestsLike w t t'

/-- The targets in a target. -/
def within (w : Setting) (t : Target) : List Target := (mod? w t).elim [] (inner w)

/-- Where nothing lies deeper than right in what the sources yield, it is enough to look there. -/
theorem nestAlike_of_shallow {w : Setting} {sources : List Target}
    (hshallow : ∀ t ∈ sources.flatMap (within w), (within w t).isEmpty = true)
    (hall : ∀ t ∈ sources ++ sources.flatMap (within w),
      ∀ t' ∈ sources ++ sources.flatMap (within w), NestsLike w t t') : NestAlike w sources := by
  have hreached : ∀ t, Reached w sources t → t ∈ sources ++ sources.flatMap (within w) := by
    intro t ht
    induction ht with
    | source h => exact List.mem_append_left _ h
    | @inside t u m _ hm hu ih =>
        have hu' : u ∈ within w t := by rwa [within, hm]
        rcases List.mem_append.1 ih with ht | ht
        · exact List.mem_append_right _ (List.mem_flatMap.2 ⟨t, ht, hu'⟩)
        · rw [List.isEmpty_iff.1 (hshallow t ht)] at hu'
          exact absurd hu' List.not_mem_nil
  exact fun t t' ht ht' => hall t (hreached t ht) t' (hreached t' ht')

/-! ### All tasks done -/

section Done

variable {w : Setting} {sources : List Target} {news : List NewCandidate} {f : Findings}

/-- Discovery is under way at the start, where all sources wait and nothing was taken in. -/
theorem underway_start {visits : List Visit} (h : ∀ v ∈ visits, v.parent? = none) :
    Underway w (visits.map (·.target)) [] {} (visits.map .visit) where
  store := rfl
  admits := rfl
  origin := fun _ hnew => absurd hnew List.not_mem_nil
  outside := fun v hv _ => by
    obtain ⟨v', hv', heq⟩ := List.mem_map.1 hv
    exact List.mem_map.2 ⟨v', hv', congrArg Visit.target (Task.visit.inj heq)⟩
  inside := fun v p hv hp => by
    obtain ⟨v', hv', heq⟩ := List.mem_map.1 hv
    obtain rfl := Task.visit.inj heq
    exact absurd ((h v' hv').symm.trans hp) (by simp)
  opened := fun o ho => by
    obtain ⟨_, -, heq⟩ := List.mem_map.1 ho
    exact absurd heq (by simp)
  source := fun t ht => by
    obtain ⟨v, hv, rfl⟩ := List.mem_map.1 ht
    exact Or.inl ⟨v, List.mem_map_of_mem hv, h v hv, rfl⟩
  seen := fun _ _ hkey => absurd hkey List.not_mem_nil
  covered := fun _ hnew => absurd hnew List.not_mem_nil

/-- When no task is left, all that the sources yield was visited. -/
theorem Underway.handled (h : Underway w sources news f []) {t : Target} (ht : t ∈ sources) :
    Handled w news t :=
  (h.source t ht).resolve_left fun ⟨_, hv, _⟩ => absurd hv List.not_mem_nil

/-- Of everything that was taken in there is a copy of which everything was visited. -/
theorem Underway.inner_handled (h : Underway w sources news f []) {new : NewCandidate}
    (hnew : new ∈ news) : ∃ t m, Reached w sources t ∧ mod? w t = some m ∧
      m.descriptor.edition.same new.descriptor.edition = true ∧ ∀ u ∈ inner w m, Handled w news u := by
  obtain ⟨t, m, ht, hm, hsame, ⟨_, ho, -⟩ | hall⟩ := h.covered new hnew
  · exact absurd ho List.not_mem_nil
  · refine ⟨t, m, ht, hm, hsame, fun u hu => (hall u hu).resolve_left ?_⟩
    rintro ⟨_, hv, -⟩
    exact absurd hv List.not_mem_nil

/-- **All that lies somewhere in the sources is found**, where copies nest alike. -/
theorem Underway.exists_alike (h : Underway w sources news f []) (hnest : NestAlike w sources)
    {t : Target} (ht : Reached w sources t) :
    ∀ m, mod? w t = some m → ∃ new ∈ news, new.descriptor.Alike m.descriptor := by
  induction ht with
  | source ht =>
      intro m hm
      obtain ⟨new, hnew, heq⟩ := h.handled ht m hm
      exact ⟨new, hnew, heq ▸ ⟨Edition.same_self _, fun _ => Iff.rfl⟩⟩
  | @inside t u m hreached hm hu ih =>
      intro n hn
      obtain ⟨new, hnew, halike⟩ := ih m hm
      obtain ⟨t', m', ht', hm', hsame, hall⟩ := h.inner_handled hnew
      have hcopies : m.descriptor.edition.same m'.descriptor.edition = true := by
        rw [Edition.same_comm, Edition.same_congr hsame]
        exact halike.edition
      obtain ⟨u', hu', n', hn', halike'⟩ := hnest t t' hreached ht' m hm m' hm' hcopies u hu n hn
      obtain ⟨new', hnew', heq⟩ := hall u' hu' n' hn'
      exact ⟨new', hnew', heq ▸ halike'⟩

/-- A mod that a target is read as is the one of a candidate. -/
def Shows (w : Setting) (t : Target) (c : Candidate) (m : FoundMod) : Prop :=
  mod? w t = some m ∧ m.descriptor.edition.same c.edition = true

/-- **What a store has of the mods that lie in the sources**: those that sources yield, and all that
is in one copy of every mod that it has.  Where copies nest alike, that is everything, with all that
the copies provide. -/
structure Finds (w : Setting) (sources : List Target) (s : Store) : Prop where
  reached : ∀ c ∈ s.records, ∃ t m, Reached w sources t ∧ Shows w t c m
  source : ∀ t ∈ sources, ∀ m, mod? w t = some m → ∃ c ∈ s.records, Shows w t c m
  explored : ∀ c ∈ s.records, ∃ t m, Reached w sources t ∧ Shows w t c m ∧
    ∀ u ∈ inner w m, ∀ n, mod? w u = some n → ∃ c' ∈ s.records, Shows w u c' n
  all : NestAlike w sources → ∀ t m, Reached w sources t → mod? w t = some m →
    ∃ c ∈ s.records, Shows w t c m
  provides : NestAlike w sources → ∀ c ∈ s.records, ∀ key, c.provides key = true ↔
    ∃ t m, Reached w sources t ∧ Shows w t c m ∧ key ∈ m.descriptor.id :: m.descriptor.provides

/-- **When all tasks are done**, the store has what it should. -/
theorem Underway.finds (h : Underway w sources news f []) : Finds w sources f.store := by
  have hcandidate : ∀ new ∈ news, ∃ c ∈ f.store.records,
      new.descriptor.edition.same c.edition = true := fun new hnew =>
    h.store ▸ Store.exists_candidate_of_mem h.admits hnew
  have hhandled : ∀ t, Handled w news t → ∀ m, mod? w t = some m →
      ∃ c ∈ f.store.records, Shows w t c m := by
    intro t ht m hm
    obtain ⟨new, hnew, heq⟩ := ht m hm
    obtain ⟨c, hc, hsame⟩ := hcandidate new hnew
    exact ⟨c, hc, hm, heq ▸ hsame⟩
  constructor
  case reached =>
    intro c hc
    obtain ⟨new, hnew, hsame⟩ := Store.exists_new_of_mem h.admits (h.store ▸ hc)
    obtain ⟨t, m, ht, hm, heq⟩ := h.origin new hnew
    exact ⟨t, m, ht, hm, heq ▸ hsame⟩
  case source => exact fun t ht => hhandled t (h.handled ht)
  case explored =>
    intro c hc
    obtain ⟨new, hnew, hsame⟩ := Store.exists_new_of_mem h.admits (h.store ▸ hc)
    obtain ⟨t, m, ht, hm, hsame', hall⟩ := h.inner_handled hnew
    exact ⟨t, m, ht, ⟨hm, (Edition.same_congr hsame' _).trans hsame⟩, fun u hu => hhandled u (hall u hu)⟩
  case all =>
    intro hnest t m ht hm
    obtain ⟨new, hnew, halike⟩ := h.exists_alike hnest ht m hm
    obtain ⟨c, hc, hsame⟩ := hcandidate new hnew
    exact ⟨c, hc, hm, (Edition.same_congr halike.edition _).symm.trans hsame⟩
  case provides =>
    intro hnest c hc key
    rw [Store.provides_iff_exists_new h.admits (h.store ▸ hc)]
    constructor
    · rintro ⟨new, hnew, hsame, hkey⟩
      obtain ⟨t, m, ht, hm, heq⟩ := h.origin new hnew
      exact ⟨t, m, ht, ⟨hm, heq ▸ hsame⟩, heq ▸ hkey⟩
    · rintro ⟨t, m, ht, ⟨hm, hsame⟩, hkey⟩
      obtain ⟨new, hnew, halike⟩ := h.exists_alike hnest ht m hm
      exact ⟨new, hnew, (Edition.same_congr halike.edition _).trans hsame, halike.mem_keys.2 hkey⟩

/-- Computing depths changes nothing about it. -/
theorem Finds.settleDepths {s : Store} (h : Finds w sources s) : Finds w sources s.settleDepths := by
  obtain ⟨g, heq, hg⟩ := s.settleDepths_eq
  have hshows : ∀ {t c m}, Shows w t (g c) m ↔ Shows w t c m := by
    intro t c m
    rw [Shows, Shows, Candidate.edition, hg]
    rfl
  have hprovides : ∀ c key, (g c).provides key = c.provides key := fun c key => by rw [hg]; rfl
  rw [heq]
  constructor <;> simp only [List.mem_map, forall_exists_index, and_imp, forall_apply_eq_imp_iff₂,
    exists_exists_and_eq_and, hshows, hprovides]
  exacts [h.reached, h.source, h.explored, h.all, h.provides]

/-- **Two stores with all that lies in the sources** have the same. -/
theorem Finds.exists_counterpart {s s' : Store} (h : Finds w sources s) (h' : Finds w sources s')
    (hnest : NestAlike w sources) {c : Candidate} (hc : c ∈ s.records) : ∃ c' ∈ s'.records,
      c.edition.same c'.edition = true ∧ ∀ key, c.provides key = true ↔ c'.provides key = true := by
  obtain ⟨t, m, ht, hm, hsame⟩ := h.reached c hc
  obtain ⟨c', hc', -, hsame'⟩ := h'.all hnest t m ht hm
  have hcopies : c.edition.same c'.edition = true := (Edition.same_congr hsame _).symm.trans hsame'
  refine ⟨c', hc', hcopies, fun key => ?_⟩
  rw [h.provides hnest c hc, h'.provides hnest c' hc']
  simp only [Shows, Edition.same_congr_right hcopies]

end Done

/-! ### Discoveries -/

/-- What a source yields has nothing around it. -/
theorem firstLevel_parent? (w : Setting) (items : List SourceItem) :
    ∀ v ∈ firstLevel w items, v.parent? = none := by
  intro v hv
  simp only [firstLevel, List.mem_append, List.mem_filter, List.mem_map] at hv
  obtain ⟨⟨i, -, rfl⟩, -⟩ | ⟨⟨i, -, rfl⟩, -⟩ := hv <;> rfl

/-- What becomes of findings that lead to a discovery in which nothing was skipped. -/
theorem clean_of_ofFindings {f : Findings} {d : Discovery} (h : ofFindings [] f = .ok d)
    (hskipped : d.skipped = []) : f.Clean ∧ d.store = f.store.settleDepths := by
  rw [ofFindings] at h
  split at h
  · exact absurd h (by simp)
  · rename_i herrors
    obtain rfl := Except.ok.inj h
    refine ⟨⟨by simpa using herrors, ?_⟩, rfl⟩
    simpa using congrArg List.length hskipped

/-- **A discovery is where tasks that all went well have led.** -/
theorem EndsIn.finds {w : Setting} {items : List SourceItem} {picks : List Nat} {d : Discovery}
    (h : EndsIn w items picks d) (hplace : OnePlace (targets w items)) (hskipped : d.skipped = []) :
    Finds w (targets w items) d.store := by
  obtain ⟨f, hfollow, hd⟩ := h
  obtain ⟨hclean, hstore⟩ := clean_of_ofFindings hd hskipped
  have hstart : Underway w (targets w items) [] {} (firstTasks w items) :=
    underway_start (firstLevel_parent? w items)
  have hend := hstart.follow hplace picks (by rwa [hfollow])
  rw [hfollow] at hend
  obtain ⟨news, hnews⟩ := hend
  exact hstore ▸ hnews.finds.settleDepths

/-- **What does not depend on the order of the tasks**, however containers are loaded and what is in
them is unpacked.  Tasks are done in two orders until there are none left, without an error and with
nothing skipped, and no two targets that sources yield share a key.  Then both discoveries have
candidates only of mods that lie somewhere in the sources, one of every mod that a source yields, and
all that is in one copy of each.  Where copies of one mod nest alike, both have the same mods in the
same versions, and each of them provides the same in both. -/
theorem found_in_any_order (w : Setting) (items : List SourceItem) (picks picks' : List Nat)
    (d d' : Discovery) (h : EndsIn w items picks d) (h' : EndsIn w items picks' d')
    (hplace : OnePlace (targets w items)) (hskipped : d.skipped = []) (hskipped' : d'.skipped = []) :
    Finds w (targets w items) d.store ∧ Finds w (targets w items) d'.store ∧
    (NestAlike w (targets w items) → ∀ c ∈ d.store.records, ∃ c' ∈ d'.store.records,
      c.identifier = c'.identifier ∧ c.version.sameAs c'.version = true ∧
        ∀ key, c.provides key = true ↔ c'.provides key = true) := by
  have hfinds := h.finds hplace hskipped
  have hfinds' := h'.finds hplace hskipped'
  refine ⟨hfinds, hfinds', fun hnest c hc => ?_⟩
  obtain ⟨c', hc', hsame, hprovides⟩ := hfinds.exists_counterpart hfinds' hnest hc
  rw [Edition.same, Bool.and_eq_true, beq_iff_eq] at hsame
  exact ⟨c', hc', hsame.1, hsame.2, hprovides⟩

/-- Targets whose keys differ are at places that differ. -/
theorem onePlace_of_nodup {sources : List Target} (h : (sources.map (·.key)).Nodup) :
    OnePlace sources := fun _ ht _ ht' => List.inj_on_of_nodup_map h ht ht'

/-- Whether an order does all tasks, without an error and with nothing skipped. -/
def goesWell (w : Setting) (items : List SourceItem) (picks : List Nat) : Bool :=
  let (f, tasks) := follow w picks {} (firstTasks w items)
  tasks.isEmpty && f.errors.isEmpty && f.skipped.isEmpty

/-- The store that an order leads to, with depths computed. -/
def foundBy (w : Setting) (items : List SourceItem) (picks : List Nat) : Store :=
  (follow w picks {} (firstTasks w items)).1.store.settleDepths

/-- An order that goes well leads to a discovery without skipped places. -/
theorem exists_endsIn {w : Setting} {items : List SourceItem} {picks : List Nat}
    (h : goesWell w items picks = true) :
    ∃ d, EndsIn w items picks d ∧ d.skipped = [] ∧ d.store = foundBy w items picks := by
  rw [foundBy]
  simp only [goesWell, Bool.and_eq_true, List.isEmpty_iff] at h
  obtain ⟨⟨hdone, herrors⟩, hskipped⟩ := h
  generalize hf : follow w picks {} (firstTasks w items) = r at hdone herrors hskipped
  obtain ⟨f, tasks⟩ := r
  obtain rfl : tasks = [] := hdone
  refine ⟨_, ⟨f, hf, by rw [ofFindings, herrors]; rfl⟩, ?_, rfl⟩
  simp [show f.skipped = [] from hskipped]

/-- An archive of a library: one entry `m`, the descriptor. -/
def libraryBytes : ByteArray := ⟨#[
  80, 75, 3, 4, 20, 0, 0, 0, 0, 0, 0, 0, 33, 0, 164, 161, 243, 88, 26, 0, 0, 0, 26, 0, 0, 0, 1, 0,
  0, 0, 109, 123, 34, 105, 100, 34, 58, 34, 108, 105, 98, 34, 44, 34, 118, 101, 114, 115, 105,
  111, 110, 34, 58, 34, 49, 34, 125, 80, 75, 1, 2, 20, 3, 20, 0, 0, 0, 0, 0, 0, 0, 33, 0, 164,
  161, 243, 88, 26, 0, 0, 0, 26, 0, 0, 0, 1, 0, 0, 0, 0, 0, 0, 0, 0, 0, 0, 0, 128, 1, 0, 0, 0, 0,
  109, 80, 75, 5, 6, 0, 0, 0, 0, 1, 0, 1, 0, 47, 0, 0, 0, 57, 0, 0, 0, 0, 0]⟩

/-- The descriptor of an application with some archives in it, which are listed as in JSON. -/
def applicationText (archives : String) : ByteArray :=
  ("\x7b\"id\":\"app\",\"version\":\"1\",\"nested\":[" ++ archives ++ "]\x7d").toUTF8

/-- An application in two directories, with the library in both; by the second descriptor it has
some archives in it. -/
def twoPlaces (archives : String) : Setting := .of ⟨[
  (["a"], .directory), (["a", "m"], .file (applicationText "\"i\"")), (["a", "i"], .file libraryBytes),
  (["b"], .directory), (["b", "m"], .file (applicationText archives)), (["b", "i"], .file libraryBytes)]⟩
  Zip.reader "m"

/-- The two directories, and the host. -/
def twoPlacesItems : List SourceItem :=
  [⟨.path "/a", false⟩, ⟨.path "/b", false⟩,
    ⟨.builtin { id := "host", version := .ofComponents [1] }, false⟩]

/-- The two directories with the same in them. -/
def alikePlaces : Setting := twoPlaces "\"i\""

/-- The mods of both directories are found in either order, and in both they are the same. -/
theorem found_in_any_order_alikePlaces : ∃ d d',
    EndsIn alikePlaces twoPlacesItems [0, 0, 0, 0, 0] d ∧
    EndsIn alikePlaces twoPlacesItems [2, 2, 2, 0, 0] d' ∧
    d.store.records.map (·.identifier) = ["host", "app", "lib"] ∧
    d'.store.records.map (·.identifier) = ["app", "lib", "host"] ∧
    NestAlike alikePlaces (targets alikePlaces twoPlacesItems) ∧
    ∀ c ∈ d.store.records, ∃ c' ∈ d'.store.records, c.identifier = c'.identifier ∧
      c.version.sameAs c'.version = true ∧ ∀ key, c.provides key = true ↔ c'.provides key = true := by
  have hwell : goesWell alikePlaces twoPlacesItems [0, 0, 0, 0, 0] = true ∧
      (foundBy alikePlaces twoPlacesItems [0, 0, 0, 0, 0]).records.map (·.identifier) =
        ["host", "app", "lib"] := by decide +kernel
  have hwell' : goesWell alikePlaces twoPlacesItems [2, 2, 2, 0, 0] = true ∧
      (foundBy alikePlaces twoPlacesItems [2, 2, 2, 0, 0]).records.map (·.identifier) =
        ["app", "lib", "host"] := by decide +kernel
  obtain ⟨d, hd, hskipped, hstore⟩ := exists_endsIn hwell.1
  obtain ⟨d', hd', hskipped', hstore'⟩ := exists_endsIn hwell'.1
  have hnest : NestAlike alikePlaces (targets alikePlaces twoPlacesItems) :=
    nestAlike_of_shallow (by decide +kernel) (by decide +kernel)
  exact ⟨d, d', hd, hd', hstore ▸ hwell.2, hstore' ▸ hwell'.2, hnest,
    (found_in_any_order alikePlaces twoPlacesItems _ _ d d' hd hd'
      (onePlace_of_nodup (by decide +kernel)) hskipped hskipped').2.2 hnest⟩

/-- Where a copy has nothing in it and comes first, what is in a better copy is not found. -/
example :
    goesWell (twoPlaces "") twoPlacesItems [0, 0, 0, 0, 0] = true ∧
    (foundBy (twoPlaces "") twoPlacesItems [0, 0, 0, 0, 0]).records.map
      (fun c => (c.identifier, c.location.path?)) =
        [("host", none), ("app", some "/a"), ("lib", none)] ∧
    goesWell (twoPlaces "") twoPlacesItems [2, 0, 0] = true ∧
    (foundBy (twoPlaces "") twoPlacesItems [2, 0, 0]).records.map
      (fun c => (c.identifier, c.location.path?)) = [("app", some "/a"), ("host", none)] := by
  decide +kernel

end Discovery
end Loadout
