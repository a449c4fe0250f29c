/-
# Roots of one identifier

Two roots of one identifier in two versions are an error, and it is found in every order: an
insert fails where a root of the identifier is there in another version
(`Store.Indexed.exists_insert_eq_error_iff`), and a copy that was found in nothing makes a root of its
mod that stays one, whatever becomes of other copies in between.

That it stays one is told by what a store shows of the copies that it took in.  A copy that fails
is not one of those (`Store.accepted`), and two of them that were found in nothing agree in the
version if they do in the identifier (`Store.sameAs_of_alone`).  So the roots of one identifier
are one candidate at any time.
-/

import Loadout.Proofs.Store.Shallowest

namespace Loadout

/-- When a copy is one of a candidate. -/
theorem Descriptor.same_edition_iff {d : Descriptor} {c : Candidate} :
    d.edition.same c.edition = true ↔ d.id = c.identifier ∧ d.version.sameAs c.version = true :=
  Edition.same_iff

namespace Store

variable {s : Store} {news : List NewCandidate}

/-- No two roots have one identifier. -/
def RootsDiffer (s : Store) : Prop :=
  ∀ a ∈ s.records, ∀ b ∈ s.records, a.isRoot = true → b.isRoot = true →
    a.identifier = b.identifier → a = b

/-! ### What fails -/

/-- A root that clashes is a candidate of the store. -/
theorem clashingRoot?_spec {d : Descriptor} {c : Candidate} (h : s.clashingRoot? d = some c) :
    c ∈ s.records ∧ c.isRoot = true ∧ c.identifier = d.id ∧ c.version.sameAs d.version = false := by
  have hmem := List.mem_of_find?_eq_some h
  have hclash := List.find?_some h
  simp only [Bool.and_eq_true, beq_iff_eq, Bool.not_eq_true', and_assoc] at hclash
  exact ⟨(mem_getAll hmem).1, hclash⟩

/-- The index leads to every root that clashes. -/
theorem Indexed.sameAs_of_clashingRoot?_eq_none (h : s.Indexed) {d : Descriptor}
    (hnone : s.clashingRoot? d = none) {c : Candidate} (hc : c ∈ s.records) (hroot : c.isRoot = true)
    (hid : c.identifier = d.id) : c.version.sameAs d.version = true := by
  have hin : c ∈ s.getAll (s.providers d.id) := h.mem_getAll_iff.2
    ⟨hc, (h.members d.id c.id).2 ⟨c, hc, rfl, provides_iff.2 (Or.inl hid.symm)⟩⟩
  have hnot := List.find?_eq_none.1 hnone c hin
  simpa [hroot, hid] using hnot

/-- Whether an insert fails is decided before anything is done. -/
theorem insert_eq_error_iff_clash {new : NewCandidate} {e : ConfigError} :
    s.insert new = .error e ↔ s.depthFor new = 0 ∧
      ∃ first, s.clashingRoot? new.descriptor = some first ∧ e = duplicateRootError first new := by
  rw [Store.insert]
  by_cases hdepth : s.depthFor new = 0
  · rw [if_pos hdepth, and_iff_right hdepth]
    cases s.clashingRoot? new.descriptor with
    | some first => simp [eq_comm]
    | none => cases s.copyOf? new.descriptor <;> simp
  · rw [if_neg hdepth]
    cases s.copyOf? new.descriptor <;> simp [hdepth]

/-- Only what was found in nothing lies at depth zero. -/
theorem parent?_of_depthFor_eq_zero {new : NewCandidate} (h : s.depthFor new = 0) :
    new.parent? = none := by
  unfold depthFor at h
  cases hp : new.parent? with
  | none => rfl
  | some p =>
      rw [hp] at h
      cases hget : s.get? p <;> simp [hget] at h

/-- **An insert fails** where the copy was found in nothing, and there is a root of its identifier
in another version. -/
theorem Indexed.exists_insert_eq_error_iff (h : s.Indexed) {new : NewCandidate} :
    (∃ e, s.insert new = .error e) ↔ new.parent? = none ∧ ∃ c ∈ s.records, c.isRoot = true ∧
      c.identifier = new.descriptor.id ∧ c.version.sameAs new.descriptor.version = false := by
  constructor
  · rintro ⟨e, he⟩
    obtain ⟨hdepth, first, hclash, -⟩ := insert_eq_error_iff_clash.1 he
    obtain ⟨hfirst, hspec⟩ := clashingRoot?_spec hclash
    exact ⟨parent?_of_depthFor_eq_zero hdepth, first, hfirst, hspec⟩
  · rintro ⟨hnone, c, hc, hroot, hid, hversion⟩
    cases hclash : s.clashingRoot? new.descriptor with
    | some first =>
        exact ⟨_, insert_eq_error_iff_clash.2 ⟨by rw [depthFor, hnone], first, hclash, rfl⟩⟩
    | none =>
        rw [h.sameAs_of_clashingRoot?_eq_none hclash hc hroot hid] at hversion
        exact absurd hversion.symm Bool.false_ne_true

/-! ### Copies that are taken in -/

/-- Whether what is around each copy is in the store when its turn comes.  A copy that fails is
skipped. -/
def hosts : Store → List NewCandidate → Bool
  | _, [] => true
  | s, new :: rest => new.parent?.all s.contains && (s.inserted new).hosts rest

/-- The copies that do not fail. -/
def accepted : Store → List NewCandidate → List NewCandidate
  | _, [] => []
  | s, new :: rest =>
    if (s.insert new).isOk then new :: (s.inserted new).accepted rest else s.accepted rest

/-- An insert that fails leaves the store as it is. -/
theorem inserted_of_not_isOk {new : NewCandidate} (h : ¬ (s.insert new).isOk = true) :
    s.inserted new = s := by
  rw [inserted]
  cases hs : s.insert new with
  | ok r => exact absurd (by rw [hs]; rfl) h
  | error e => rfl

/-- What fails leaves the store as it is. -/
theorem inserted_of_eq_error {new : NewCandidate} {e : ConfigError} (h : s.insert new = .error e) :
    s.inserted new = s := by
  rw [inserted, h]

/-- Hosts are there for some copies and then for more of them. -/
theorem hosts_append : ∀ (news : List NewCandidate) {more : List NewCandidate} {s : Store},
    s.hosts (news ++ more) = (s.hosts news && (news.foldl inserted s).hosts more)
  | [], _, _ => rfl
  | new :: rest, more, s => by
      simp only [List.cons_append, hosts, hosts_append rest, List.foldl_cons, Bool.and_assoc]

/-- Hosts are there for the first of some copies. -/
theorem hosts_before {before : List NewCandidate} (h : s.hosts news = true)
    (hbefore : before <+: news) : s.hosts before = true := by
  obtain ⟨rest, rfl⟩ := hbefore
  rw [hosts_append, Bool.and_eq_true] at h
  exact h.1

/-- What is accepted is some of the copies, in their order. -/
theorem accepted_sublist : ∀ (news : List NewCandidate) (s : Store), (s.accepted news).Sublist news
  | [], _ => List.Sublist.slnil
  | new :: rest, s => by
      rw [accepted]
      split
      · exact (accepted_sublist rest _).cons_cons new
      · exact (accepted_sublist rest s).cons new

/-- The copies that fail leave no trace. -/
theorem foldl_inserted_accepted : ∀ (news : List NewCandidate) (s : Store),
    (s.accepted news).foldl inserted s = news.foldl inserted s
  | [], _ => rfl
  | new :: rest, s => by
      rw [accepted]
      split
      · exact foldl_inserted_accepted rest (s.inserted new)
      · rename_i hfails
        rw [List.foldl_cons, inserted_of_not_isOk hfails]
        exact foldl_inserted_accepted rest s

/-- The accepted copies alone build the same store. -/
theorem gathered_accepted (news : List NewCandidate) :
    gathered (empty.accepted news) = gathered news := foldl_inserted_accepted news empty

/-- Copies that do not fail can be taken in one after the other. -/
theorem admits_accepted : ∀ (news : List NewCandidate) {s : Store}, s.hosts news = true →
    s.admits (s.accepted news) = true
  | [], _, _ => rfl
  | new :: rest, s, h => by
      rw [hosts, Bool.and_eq_true] at h
      obtain ⟨hin, hrest⟩ := h
      rw [accepted]
      split
      · rename_i hok
        rw [admits, hin, hok, Bool.true_and, Bool.true_and]
        exact admits_accepted rest hrest
      · rename_i hfails
        rw [inserted_of_not_isOk hfails] at hrest
        exact admits_accepted rest hrest

/-- **Copies that cannot all be taken in**: one of them fails. -/
theorem exists_error_of_not_admits : ∀ {news : List NewCandidate} {s : Store}, s.hosts news = true →
    ¬ s.admits news = true → ∃ before new e, before ++ [new] <+: news ∧
      (before.foldl inserted s).insert new = .error e
  | [], _, _, hnot => absurd rfl hnot
  | new :: rest, s, h, hnot => by
      rw [hosts, Bool.and_eq_true] at h
      obtain ⟨hin, hrest⟩ := h
      cases hs : s.insert new with
      | error e => exact ⟨[], new, e, List.prefix_append [new] rest, hs⟩
      | ok r =>
          have hok : (s.insert new).isOk = true := by rw [hs]; rfl
          rw [admits, hin, hok, Bool.true_and, Bool.true_and] at hnot
          obtain ⟨before, later, e, hprefix, he⟩ := exists_error_of_not_admits hrest hnot
          exact ⟨new :: before, later, e, (List.prefix_cons_inj new).2 hprefix, he⟩

/-! ### Copies that were found in nothing -/

/-- **A copy that was found in nothing has a root** for its mod, from then on. -/
theorem exists_root_of_alone (h : empty.admits news = true) {x : NewCandidate} (hx : x ∈ news)
    (halone : x.parent? = none) : ∃ c ∈ (gathered news).records, c.isRoot = true ∧
      x.descriptor.edition.same c.edition = true := by
  have hshows := shows_gathered h
  obtain ⟨y, hy, rfl⟩ := exists_sighting hx
  obtain ⟨c, hc, hof⟩ := hshows.found y hy
  exact ⟨c, hc, (hshows.isRoot_iff hc).2 ⟨y, hy, hof, halone⟩, hof⟩

/-- A root has a copy that was found in nothing. -/
theorem exists_alone_of_root (h : empty.admits news = true) {c : Candidate}
    (hc : c ∈ (gathered news).records) (hroot : c.isRoot = true) :
    ∃ x ∈ news, x.parent? = none ∧ x.descriptor.edition.same c.edition = true := by
  obtain ⟨y, hy, hof, halone⟩ := ((shows_gathered h).isRoot_iff hc).1 hroot
  exact ⟨y.new, new_mem_of_sighting hy, halone, hof⟩

/-- What is taken in has the version of what was found in nothing before. -/
theorem sameAs_of_insert (h : empty.admits news = true) {new : NewCandidate}
    (hok : ¬ ∃ e, (gathered news).insert new = .error e) (halone : new.parent? = none)
    {x : NewCandidate} (hx : x ∈ news) (hxalone : x.parent? = none)
    (hid : x.descriptor.id = new.descriptor.id) :
    x.descriptor.version.sameAs new.descriptor.version = true := by
  obtain ⟨c, hc, hroot, hsame⟩ := exists_root_of_alone h hx hxalone
  obtain ⟨hcid, hversion⟩ := Descriptor.same_edition_iff.1 hsame
  rw [(catalogued_gathered news).indexed.exists_insert_eq_error_iff] at hok
  by_contra hother
  refine hok ⟨halone, c, hc, hroot, hcid.symm.trans hid, ?_⟩
  rw [← Version.sameAs_congr hversion]
  simpa using hother

/-- **Copies that were found in nothing agree in the version** if they do in the identifier, when
all of them were taken in. -/
theorem sameAs_of_alone (h : empty.admits news = true) {x y : NewCandidate} (hx : x ∈ news)
    (hy : y ∈ news) (hxalone : x.parent? = none) (hyalone : y.parent? = none)
    (hid : x.descriptor.id = y.descriptor.id) :
    x.descriptor.version.sameAs y.descriptor.version = true := by
  induction news using List.reverseRecOn with
  | nil => exact absurd hx List.not_mem_nil
  | append_singleton news new ih =>
      rw [admits_append, Bool.and_eq_true, admits_cons] at h
      obtain ⟨hnews, -, ⟨o, hok⟩, -⟩ := h
      have hlast : ∀ {z : NewCandidate}, z ∈ news → z.parent? = none → new.parent? = none →
          z.descriptor.id = new.descriptor.id →
            z.descriptor.version.sameAs new.descriptor.version = true := by
        intro z hz hzalone halone hzid
        refine sameAs_of_insert hnews ?_ halone hz hzalone hzid
        rintro ⟨e, he⟩
        exact absurd (hok.symm.trans he) (by simp)
      rw [List.mem_append, List.mem_singleton] at hx hy
      rcases hx with hx | rfl <;> rcases hy with hy | rfl
      · exact ih hnews hx hy
      · exact hlast hx hxalone hyalone hid
      · rw [Version.sameAs_comm]
        exact hlast hy hyalone hxalone hid.symm
      · exact Version.sameAs_self _

/-- **There is one root of an identifier at most** in a store of copies. -/
theorem rootsDiffer_gathered (h : empty.hosts news = true) : (gathered news).RootsDiffer := by
  have hadmits := admits_accepted news h
  rw [← gathered_accepted]
  intro a ha b hb hroota hrootb hid
  obtain ⟨x, hx, hxalone, hxa⟩ := exists_alone_of_root hadmits ha hroota
  obtain ⟨y, hy, hyalone, hyb⟩ := exists_alone_of_root hadmits hb hrootb
  refine (catalogued_gathered _).distinct a ha b hb ?_
  have hids : x.descriptor.id = y.descriptor.id := by
    rw [(Descriptor.same_edition_iff.1 hxa).1, hid, (Descriptor.same_edition_iff.1 hyb).1]
  have hsame : x.descriptor.edition.same y.descriptor.edition = true :=
    Edition.same_iff.2 ⟨hids, sameAs_of_alone hadmits hx hy hxalone hyalone hids⟩
  change a.edition.same b.edition = true
  rw [← Edition.same_congr hxa, Edition.same_congr hsame, hyb]

/-- What fails clashes with a copy before it. -/
theorem exists_alone_of_error {before : List NewCandidate} (h : empty.hosts before = true)
    {new : NewCandidate} {e : ConfigError} (he : (gathered before).insert new = .error e) :
    ∃ x ∈ before, x.parent? = none ∧ new.parent? = none ∧ x.descriptor.id = new.descriptor.id ∧
      x.descriptor.version.sameAs new.descriptor.version = false := by
  have hadmits := admits_accepted before h
  obtain ⟨halone, c, hc, hroot, hid, hversion⟩ :=
    (catalogued_gathered before).indexed.exists_insert_eq_error_iff.1 ⟨e, he⟩
  rw [← gathered_accepted] at hc
  obtain ⟨x, hx, hxalone, hsame⟩ := exists_alone_of_root hadmits hc hroot
  obtain ⟨hcid, hcopy⟩ := Descriptor.same_edition_iff.1 hsame
  refine ⟨x, (accepted_sublist before empty).subset hx, hxalone, halone, hcid.trans hid, ?_⟩
  rw [Version.sameAs_congr hcopy]
  exact hversion

/-- **Duplicate roots are found in every order.**  Copies are taken in one after the other, each
with what is around it in the store, and those that fail are skipped.  Then one of them fails just
where two that were found in nothing have one identifier and different versions; one that fails
tells of a root of its identifier in another version, and leaves the store as it is; and at no
time there are two roots of one identifier. -/
theorem duplicate_roots_found (news : List NewCandidate) (h : empty.hosts news = true) :
    ((∃ before new e, before ++ [new] <+: news ∧ (gathered before).insert new = .error e) ↔
      ∃ x ∈ news, ∃ y ∈ news, x.parent? = none ∧ y.parent? = none ∧
        x.descriptor.id = y.descriptor.id ∧
        x.descriptor.version.sameAs y.descriptor.version = false) ∧
    (∀ before new e, before ++ [new] <+: news → (gathered before).insert new = .error e →
      gathered (before ++ [new]) = gathered before ∧
      ∃ first ∈ (gathered before).records, first.isRoot = true ∧
        first.identifier = new.descriptor.id ∧
        first.version.sameAs new.descriptor.version = false ∧ e = duplicateRootError first new) ∧
    ∀ before, before <+: news → (gathered before).RootsDiffer := by
  refine ⟨⟨?_, ?_⟩, fun before new e _ he => ⟨?_, ?_⟩, fun before hbefore =>
    rootsDiffer_gathered (hosts_before h hbefore)⟩
  · rintro ⟨before, new, e, hprefix, he⟩
    have hbefore := (List.prefix_append before [new]).trans hprefix
    obtain ⟨x, hx, hclash⟩ := exists_alone_of_error (hosts_before h hbefore) he
    exact ⟨x, hbefore.subset hx, new, hprefix.subset (by simp), hclash⟩
  · rintro ⟨x, hx, y, hy, hxalone, hyalone, hid, hversion⟩
    refine exists_error_of_not_admits h fun hadmits => ?_
    rw [sameAs_of_alone hadmits hx hy hxalone hyalone hid] at hversion
    exact absurd hversion.symm Bool.false_ne_true
  · rw [gathered_concat, inserted_of_eq_error he]
  · obtain ⟨-, first, hclash, heq⟩ := insert_eq_error_iff_clash.1 he
    obtain ⟨hfirst, hroot, hid, hversion⟩ := clashingRoot?_spec hclash
    exact ⟨first, hfirst, hroot, hid, hversion, heq⟩

/-- A copy of a library in a version, found in another candidate or in nothing. -/
def library (version : UInt64) (parent? : Option CandidateId) : NewCandidate :=
  { NewCandidate.plain "lib" parent? with
    descriptor := { id := "lib", version := .ofComponents [version] } }

/-- A library is nested in an app in two versions.  The first one is found alone too, and from
then on the second one cannot be. -/
def promoted : List NewCandidate :=
  [.plain "app" none, library 1 (some 0), library 2 (some 0), library 1 none, library 2 none,
    library 2 (some 1)]

/-- In `promoted` the second version of the library cannot be found alone, as the first one is a
root by then. -/
theorem duplicate_roots_found_promoted :
    empty.hosts promoted = true ∧
    (∃ before new e, before ++ [new] <+: promoted ∧ (gathered before).insert new = .error e) ∧
    (gathered promoted).RootsDiffer ∧
    ((gathered promoted).records.map fun c => (c.identifier, c.version.toString, c.isRoot)) =
      [("app", "1", true), ("lib", "1", true), ("lib", "2", false)] := by
  obtain ⟨hiff, -, hdiffer⟩ := duplicate_roots_found promoted (by decide +kernel)
  refine ⟨by decide +kernel, hiff.2 ⟨library 1 none, ?_, library 2 none, ?_, rfl, rfl, rfl, ?_⟩,
    hdiffer promoted List.prefix_rfl, by decide +kernel⟩
  all_goals decide +kernel

end Store
end Loadout
