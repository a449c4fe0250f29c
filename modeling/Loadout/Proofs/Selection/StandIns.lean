/-
# Stand-ins meet what they stand in for

For each target the clusters of its predicates are intersected one after another.  What this leaves
covers just the cuts that all predicates cover (`StandIn.exists_covers_commonClusters`), so there
are common clusters just when the predicates cover some cut in common, which need not have a version
beside it (`StandIn.commonClusters_ne_nil_iff`).  It does not matter that of predicates that are the
same only one is looked at (`StandIn.commonClusters_predicatesOn`).

With common clusters there is one stand-in at most, which lies in one of them and so meets all
predicates (`StandIn.forTarget_of_common`).  Without any there is one from each cluster of all
predicates together that names a version; these clusters lie apart in ascending order, and so do
the versions in them, each of which meets the predicate that its cluster covers there
(`StandIn.forTarget_of_no_common`).
-/

import Loadout.Proofs.Store.Index
import Loadout.Proofs.Version.Coverage
import Loadout.Selection.StandIn

namespace Loadout
namespace StandIn

variable {ps : List Predicate} {c : Cut} {target : String} {failed : List Dependency}

/-! ### Common clusters -/

/-- The clusters of each predicate. -/
def clustersOf (ps : List Predicate) : List (List Interval) :=
  ps.map fun p => Interval.union p.intervals

/-- **Common clusters cover what every list of clusters covers.** -/
theorem exists_covers_commonClusters : ∀ (first : List Interval) (rest : List (List Interval)),
    (∃ k ∈ commonClusters (first :: rest), k.Covers c) ↔
      ∀ ks ∈ first :: rest, ∃ k ∈ ks, k.Covers c
  | first, [] => by rw [List.forall_mem_singleton]; rfl
  | first, ks :: rest => by
      have hstep : commonClusters (first :: ks :: rest) =
        commonClusters (Interval.intersectAll first ks :: rest) := rfl
      rw [hstep, exists_covers_commonClusters, List.forall_mem_cons, List.forall_mem_cons,
        List.forall_mem_cons, Interval.exists_covers_intersectAll, and_assoc]

/-- Clusters in common are not empty, if those of the first predicate are not. -/
theorem isEmpty_of_mem_commonClusters : ∀ (first : List Interval) (rest : List (List Interval)),
    (∀ k ∈ first, k.isEmpty = false) → ∀ k ∈ commonClusters (first :: rest), k.isEmpty = false
  | _, [], h => h
  | first, ks :: rest, _ =>
      isEmpty_of_mem_commonClusters (Interval.intersectAll first ks) rest Interval.isEmpty_of_mem_union

/-- **The common clusters of predicates cover what all predicates cover.** -/
theorem exists_covers_common (hps : ps ≠ []) :
    (∃ k ∈ commonClusters (clustersOf ps), k.Covers c) ↔ ∀ p ∈ ps, p.Covers c := by
  have hclusters : (∀ ks ∈ clustersOf ps, ∃ k ∈ ks, k.Covers c) ↔ ∀ p ∈ ps, p.Covers c := by
    simp only [clustersOf, List.forall_mem_map, Interval.exists_covers_union]
    exact Iff.rfl
  rw [← hclusters]
  cases ps with
  | nil => exact absurd rfl hps
  | cons p ps => exact exists_covers_commonClusters _ _

/-- No cluster in common of predicates is empty. -/
theorem isEmpty_of_mem_common : ∀ k ∈ commonClusters (clustersOf ps), k.isEmpty = false := by
  cases ps with
  | nil => exact fun _ hk => absurd hk List.not_mem_nil
  | cons p ps => exact isEmpty_of_mem_commonClusters _ _ Interval.isEmpty_of_mem_union

/-- **There are common clusters** when the predicates cover some cut in common. -/
theorem commonClusters_ne_nil_iff :
    commonClusters (clustersOf ps) ≠ [] ↔ ps ≠ [] ∧ ∃ c, ∀ p ∈ ps, p.Covers c := by
  constructor
  · intro hne
    have hps : ps ≠ [] := by
      rintro rfl
      exact hne rfl
    obtain ⟨k, hk⟩ := List.exists_mem_of_ne_nil _ hne
    obtain ⟨c, hc⟩ := Interval.exists_covers_iff.2 (isEmpty_of_mem_common k hk)
    exact ⟨hps, c, (exists_covers_common hps).1 ⟨k, hk, hc⟩⟩
  · rintro ⟨hps, c, hc⟩
    obtain ⟨k, hk, -⟩ := (exists_covers_common hps).2 hc
    exact List.ne_nil_of_mem hk

/-- **A version in a common cluster meets all predicates.** -/
theorem admits_of_mem_common {k : Interval} (hk : k ∈ commonClusters (clustersOf ps)) {v : Version}
    (hv : k.contains v = true) : ∀ p ∈ ps, p.admits v = true := by
  intro p hp
  rw [Predicate.admits_iff_covers]
  exact (exists_covers_common (List.ne_nil_of_mem hp)).1 ⟨k, hk, Interval.contains_iff_covers.1 hv⟩ p hp

/-! ### Stand-ins for one target -/

/-- Dropping repetitions keeps the order. -/
theorem dropRepeated_sublist : ∀ l : List StandIn, (dropRepeated l).Sublist l
  | [] => by simp [dropRepeated]
  | [a] => by simp [dropRepeated]
  | a :: b :: rest => by
      rw [dropRepeated]
      split
      · exact (dropRepeated_sublist (a :: rest)).trans ((List.sublist_cons_self b rest).cons_cons a)
      · exact (dropRepeated_sublist (b :: rest)).cons_cons a

/-- Nothing is left only of nothing. -/
theorem dropRepeated_eq_nil_iff {l : List StandIn} : dropRepeated l = [] ↔ l = [] := by
  fun_induction dropRepeated l with
  | case1 => simp
  | case2 => simp
  | case3 _ _ _ _ ih => simp [ih]
  | case4 => simp

/-- The clusters that stand-ins are taken from: the common ones, or all where none are common. -/
def sourceClusters (ps : List Predicate) : List Interval :=
  if (commonClusters (clustersOf ps)).isEmpty then Interval.union (clustersOf ps).flatten
  else commonClusters (clustersOf ps)

/-- A target gets the representative of the last common cluster that has one, or those of all
clusters if none is common. -/
theorem forTarget_eq (target : String) (ps : List Predicate) : forTarget target ps =
    if (commonClusters (clustersOf ps)).isEmpty then
      dropRepeated (((Interval.union (clustersOf ps).flatten).filterMap Interval.representative?).map
        (⟨target, ·⟩))
    else (((commonClusters (clustersOf ps)).reverse.findSome? Interval.representative?).map
      (⟨target, ·⟩)).toList := rfl

/-- All stand-ins of a target have its identifier. -/
theorem identifier_of_mem_forTarget {a : StandIn} (h : a ∈ forTarget target ps) :
    a.identifier = target := by
  rw [forTarget_eq] at h
  split at h
  · obtain ⟨v, -, rfl⟩ := List.mem_map.1 ((dropRepeated_sublist _).subset h)
    rfl
  · obtain ⟨v, -, rfl⟩ := Option.map_eq_some_iff.1 (Option.mem_toList.1 h)
    rfl

/-- **With common clusters there is one stand-in at most, and it meets all predicates.** -/
theorem forTarget_of_common (target : String) (h : commonClusters (clustersOf ps) ≠ []) :
    (forTarget target ps).length ≤ 1 ∧
      ∀ a ∈ forTarget target ps, ∀ p ∈ ps, p.admits a.version = true := by
  rw [forTarget_eq, if_neg (List.isEmpty_iff.not.2 h)]
  refine ⟨by cases List.findSome? .. <;> simp, fun a ha => ?_⟩
  obtain ⟨v, hv, rfl⟩ := Option.map_eq_some_iff.1 (Option.mem_toList.1 ha)
  obtain ⟨k, hk, hkv⟩ := List.exists_of_findSome?_eq_some hv
  exact admits_of_mem_common (List.mem_reverse.1 hk) (Interval.contains_of_representative? hkv)

/-- **Without common clusters the stand-ins ascend**, and each meets some predicate. -/
theorem forTarget_of_no_common (target : String) (h : commonClusters (clustersOf ps) = []) :
    (forTarget target ps).Pairwise (fun a b => a.version.below b.version = true) ∧
      ∀ a ∈ forTarget target ps, ∃ p ∈ ps, p.admits a.version = true := by
  rw [forTarget_eq, if_pos (List.isEmpty_iff.2 h)]
  constructor
  · refine List.Pairwise.sublist (dropRepeated_sublist _) (List.pairwise_map.2 ?_)
    refine (Interval.pairwise_union _).filterMap _ fun i j hij v hv w hw => ?_
    exact hij.below (Interval.contains_of_representative? hv) (Interval.contains_of_representative? hw)
  · intro a ha
    obtain ⟨v, hv, rfl⟩ := List.mem_map.1 ((dropRepeated_sublist _).subset ha)
    obtain ⟨k, hk, hkv⟩ := List.mem_filterMap.1 hv
    have hcovers := Interval.contains_iff_covers.1 (Interval.contains_of_representative? hkv)
    obtain ⟨i, hi, hiv⟩ := (Interval.exists_covers_union _ _).1 ⟨k, hk, hcovers⟩
    obtain ⟨ks, hks, hiks⟩ := List.mem_flatten.1 hi
    obtain ⟨p, hp, rfl⟩ := List.mem_map.1 hks
    refine ⟨p, hp, Predicate.admits_iff_covers.2 ?_⟩
    exact (Interval.exists_covers_union _ _).1 ⟨i, hiks, hiv⟩

/-- No predicates ask for no stand-in. -/
theorem forTarget_nil (target : String) : forTarget target [] = [] := by
  refine List.eq_nil_iff_forall_not_mem.2 fun a ha => ?_
  obtain ⟨p, hp, -⟩ := (forTarget_of_no_common target rfl).2 a ha
  exact absurd hp List.not_mem_nil

/-- **There is a stand-in** when one of these clusters names a version. -/
theorem forTarget_eq_nil_iff :
    forTarget target ps = [] ↔ ∀ k ∈ sourceClusters ps, k.representative? = none := by
  rw [forTarget_eq, sourceClusters]
  split
  · rw [dropRepeated_eq_nil_iff, List.map_eq_nil_iff, List.filterMap_eq_nil_iff]
  · rw [Option.toList_eq_nil_iff, Option.map_eq_none_iff, List.findSome?_eq_none_iff]
    simp only [List.mem_reverse]

/-! ### The predicates on one target -/

/-- The predicates of all dependencies on a target. -/
def demandsOn (failed : List Dependency) (target : String) : List Predicate :=
  (failed.filter (·.target = target)).map (·.predicate)

/-- Predicates with one more, unless it is the same as one of them. -/
def keepNew (kept : List Predicate) (p : Predicate) : List Predicate :=
  if kept.any p.sameAs then kept else kept ++ [p]

/-- The predicates on a target are its demands, each of a kind once. -/
theorem predicatesOn_eq (failed : List Dependency) (target : String) :
    predicatesOn failed target = (demandsOn failed target).foldl keepNew [] := by
  rw [demandsOn, List.foldl_map]
  rfl

/-- **A predicate is kept, or is the same as one that is**, and no other one is added. -/
theorem keepNew_spec (kept : List Predicate) (p : Predicate) :
    kept ⊆ keepNew kept p ∧ keepNew kept p ⊆ p :: kept ∧ ∃ q ∈ keepNew kept p, p.sameAs q = true := by
  unfold keepNew
  split
  · rename_i hany
    exact ⟨List.Subset.refl kept, List.subset_cons_self p kept, List.any_eq_true.1 hany⟩
  · refine ⟨List.subset_append_left kept [p], fun q hq => ?_, p, ?_, p.sameAs_self⟩
    · exact List.mem_cons.2 ((List.mem_append.1 hq).symm.imp_left List.mem_singleton.1)
    · exact List.mem_append_right kept (List.mem_singleton_self p)

/-- Keeping what is new loses nothing that was kept, adds only what is given, and has each given
predicate in some spelling. -/
theorem foldl_keepNew_spec : ∀ ps kept : List Predicate,
    kept ⊆ ps.foldl keepNew kept ∧ ps.foldl keepNew kept ⊆ ps ++ kept ∧
      ∀ p ∈ ps, ∃ q ∈ ps.foldl keepNew kept, p.sameAs q = true
  | [], kept => ⟨List.Subset.refl kept, List.Subset.refl kept, fun _ hp => absurd hp List.not_mem_nil⟩
  | p :: ps, kept => by
      obtain ⟨hkept, hnew, q, hq, hpq⟩ := keepNew_spec kept p
      obtain ⟨hlater, hfrom, hall⟩ := foldl_keepNew_spec ps (keepNew kept p)
      rw [List.foldl_cons]
      refine ⟨List.Subset.trans hkept hlater, fun r hr => ?_, List.forall_mem_cons.2 ⟨⟨q, hlater hq, hpq⟩, hall⟩⟩
      rcases List.mem_append.1 (hfrom hr) with hr | hr
      · exact List.mem_cons_of_mem p (List.mem_append_left kept hr)
      · exact (List.mem_cons.1 (hnew hr)).elim (fun h => h ▸ List.mem_cons_self ..)
          fun hr => List.mem_cons_of_mem p (List.mem_append_right ps hr)

/-- **Of predicates that are the same one is looked at.** -/
theorem predicatesOn_spec (failed : List Dependency) (target : String) :
    predicatesOn failed target ⊆ demandsOn failed target ∧
      ∀ p ∈ demandsOn failed target, ∃ q ∈ predicatesOn failed target, p.sameAs q = true := by
  obtain ⟨-, hfrom, hall⟩ := foldl_keepNew_spec (demandsOn failed target) []
  rw [predicatesOn_eq]
  exact ⟨by simpa using hfrom, hall⟩

/-- **Which of the same predicates are looked at does not matter**: the common clusters are missing
for all of them when they are for those. -/
theorem commonClusters_predicatesOn (failed : List Dependency) (target : String) :
    commonClusters (clustersOf (predicatesOn failed target)) = [] ↔
      commonClusters (clustersOf (demandsOn failed target)) = [] := by
  obtain ⟨hfrom, hall⟩ := predicatesOn_spec failed target
  rw [← not_iff_not, ← ne_eq, ← ne_eq, commonClusters_ne_nil_iff, commonClusters_ne_nil_iff]
  constructor
  · rintro ⟨hne, c, hc⟩
    refine ⟨fun hnil => hne (List.subset_nil.1 (hnil ▸ hfrom)), c, fun p hp => ?_⟩
    obtain ⟨q, hq, hpq⟩ := hall p hp
    exact (Predicate.covers_congr hpq c).2 (hc q hq)
  · rintro ⟨hne, c, hc⟩
    obtain ⟨p, hp⟩ := List.exists_mem_of_ne_nil _ hne
    obtain ⟨q, hq, -⟩ := hall p hp
    exact ⟨List.ne_nil_of_mem hq, c, fun p hp => hc p (hfrom hp)⟩

/-! ### Stand-ins for all targets -/

/-- The targets are those of failed dependencies. -/
theorem mem_targets {x : String} : x ∈ targets failed ↔ ∃ d ∈ failed, d.target = x := by
  rw [targets, Group.mem_foldl_insertKey Dependency.target]
  exact or_iff_right List.not_mem_nil

/-- The targets are in ascending order. -/
theorem ascending_targets (failed : List Dependency) : Group.Ascending (targets failed) :=
  Group.Ascending.foldl_insertKey Dependency.target failed List.Pairwise.nil

/-- There is no predicate on what is not a target. -/
theorem predicatesOn_of_not_mem (h : target ∉ targets failed) : predicatesOn failed target = [] := by
  refine List.eq_nil_iff_forall_not_mem.2 fun p hp => ?_
  obtain ⟨d, hd, -⟩ := List.mem_map.1 ((predicatesOn_spec failed target).1 hp)
  obtain ⟨hd, htarget⟩ := List.mem_filter.1 hd
  exact h (mem_targets.2 ⟨d, hd, of_decide_eq_true htarget⟩)

/-- Of lists for different keys, all but one of them empty, only that one is left. -/
theorem flatMap_of_nodup {α : Type} {g : String → List α} (hother : ∀ t, t ≠ target → g t = []) :
    ∀ {keys : List String}, keys.Nodup → keys.flatMap g = if target ∈ keys then g target else []
  | [], _ => rfl
  | t :: keys, h => by
      obtain ⟨ht, hkeys⟩ := List.nodup_cons.1 h
      rw [List.flatMap_cons, flatMap_of_nodup hother hkeys]
      by_cases heq : t = target
      · subst heq
        simp [ht]
      · simp [hother t heq, Ne.symm heq]

/-- **The stand-ins for a target** are what is made from its predicates. -/
theorem filter_synthesize (failed : List Dependency) (target : String) :
    (synthesize failed).filter (·.identifier = target) =
      forTarget target (predicatesOn failed target) := by
  have hself : (forTarget target (predicatesOn failed target)).filter (·.identifier = target) =
      forTarget target (predicatesOn failed target) :=
    List.filter_eq_self.2 fun a ha => decide_eq_true (identifier_of_mem_forTarget ha)
  have hother : ∀ t, t ≠ target →
      (forTarget t (predicatesOn failed t)).filter (·.identifier = target) = [] := fun t ht =>
    List.filter_eq_nil_iff.2 fun a ha =>
      decide_eq_true_iff.not.2 ((identifier_of_mem_forTarget ha).trans_ne ht)
  rw [synthesize, List.filter_flatMap,
    flatMap_of_nodup (g := fun t => (forTarget t (predicatesOn failed t)).filter (·.identifier = target))
      hother (ascending_targets failed).nodup]
  split
  · exact hself
  · rename_i hnot
    rw [predicatesOn_of_not_mem hnot, forTarget_nil]

/-- **Stand-ins stand in ascending order of their targets.** -/
theorem pairwise_synthesize (failed : List Dependency) :
    (synthesize failed).Pairwise fun a b => (compare a.identifier b.identifier).isLE = true := by
  refine List.pairwise_flatMap.2 ⟨fun t _ => ?_, (ascending_targets failed).imp fun hlt a ha b hb => ?_⟩
  · refine List.pairwise_of_forall_mem_list fun a ha b hb => ?_
    rw [identifier_of_mem_forTarget ha, identifier_of_mem_forTarget hb, Std.ReflOrd.compare_self]
    rfl
  · rw [identifier_of_mem_forTarget ha, identifier_of_mem_forTarget hb, hlt]
    rfl

/-- Each stand-in is one for the target of a failed dependency. -/
theorem exists_target {a : StandIn} (h : a ∈ synthesize failed) :
    ∃ d ∈ failed, d.target = a.identifier := by
  obtain ⟨t, ht, ha⟩ := List.mem_flatMap.1 h
  rw [identifier_of_mem_forTarget ha]
  exact mem_targets.1 ht

/-- Stand-ins in order are not the same. -/
theorem not_sameAs_of_below {a b : StandIn} (h : a.version.below b.version = true) :
    a.sameAs b = false := by
  rw [← Bool.not_eq_true, sameAs, Bool.and_eq_true, Version.sameAs_iff]
  rintro ⟨-, heq⟩
  rw [Version.below, heq] at h
  exact Bool.false_ne_true h

/-- **Stand-ins meet what they stand in for.**  They stand in ascending order of their targets, each
of which some dependency is about.  Where the predicates on a target have clusters in common there
is one stand-in for it at most, and it meets all of them; where they have none, the stand-ins for it
are different ones in strictly ascending order of versions, and each meets some predicate.  A target
is left without one only if no cluster that they are taken from names a version. -/
theorem stand_ins_meet_demands (failed : List Dependency) :
    (synthesize failed).Pairwise
      (fun a b => (compare a.identifier b.identifier).isLE = true) ∧
    (∀ a ∈ synthesize failed, ∃ d ∈ failed, d.target = a.identifier) ∧
    ∀ target,
      ((synthesize failed).filter (·.identifier = target) = [] ↔
        ∀ k ∈ sourceClusters (predicatesOn failed target), k.representative? = none) ∧
      (commonClusters (clustersOf (demandsOn failed target)) ≠ [] →
        ((synthesize failed).filter (·.identifier = target)).length ≤ 1 ∧
        ∀ a ∈ (synthesize failed).filter (·.identifier = target),
          ∀ p ∈ demandsOn failed target, p.admits a.version = true) ∧
      (commonClusters (clustersOf (demandsOn failed target)) = [] →
        ((synthesize failed).filter (·.identifier = target)).Pairwise
          (fun a b => a.sameAs b = false ∧ a.version.below b.version = true) ∧
        ∀ a ∈ (synthesize failed).filter (·.identifier = target),
          ∃ p ∈ demandsOn failed target, p.admits a.version = true) := by
  refine ⟨pairwise_synthesize failed, fun a ha => exists_target ha, fun target => ?_⟩
  obtain ⟨hfrom, hall⟩ := predicatesOn_spec failed target
  rw [filter_synthesize, ne_eq, ← commonClusters_predicatesOn]
  refine ⟨forTarget_eq_nil_iff, ?_, ?_⟩
  · intro hcommon
    obtain ⟨hlength, hmeets⟩ := forTarget_of_common target hcommon
    refine ⟨hlength, fun a ha p hp => ?_⟩
    obtain ⟨q, hq, hpq⟩ := hall p hp
    rw [Predicate.admits_iff_covers, Predicate.covers_congr hpq, ← Predicate.admits_iff_covers]
    exact hmeets a ha q hq
  · intro hnone
    obtain ⟨hascend, hmeets⟩ := forTarget_of_no_common target hnone
    refine ⟨hascend.imp fun hbelow => ⟨not_sameAs_of_below hbelow, hbelow⟩, fun a ha => ?_⟩
    obtain ⟨p, hp, hadmits⟩ := hmeets a ha
    exact ⟨p, hfrom hp, hadmits⟩

/-- Two mods that agree on a library within one minor line, and two that disagree on another one. -/
def askedFor : List Dependency :=
  [⟨.depends, "lib", ⟨[.sameMinor (.ofComponents [1, 2])]⟩⟩,
   ⟨.depends, "lib", ⟨[.greater (.ofComponents [1, 2])]⟩⟩,
   ⟨.depends, "core", ⟨[.exact (.ofComponents [1, 0])]⟩⟩,
   ⟨.depends, "core", ⟨[.greaterOrEqual (.ofComponents [3, 0])]⟩⟩]

/-- The library that is agreed on is proposed once, the other one twice. -/
theorem stand_ins_meet_demands_askedFor :
    synthesize askedFor = [⟨"core", .ofComponents [1, 0]⟩, ⟨"core", .ofComponents [3, 0]⟩,
      ⟨"lib", .ofComponents [1, 2, 1]⟩] ∧
    commonClusters (clustersOf (demandsOn askedFor "lib")) ≠ [] ∧
    (∀ a ∈ (synthesize askedFor).filter (·.identifier = "lib"),
      ∀ p ∈ demandsOn askedFor "lib", p.admits a.version = true) ∧
    commonClusters (clustersOf (demandsOn askedFor "core")) = [] ∧
    ((synthesize askedFor).filter (·.identifier = "core")).Pairwise
      (fun a b => a.sameAs b = false ∧ a.version.below b.version = true) := by
  have hlib : commonClusters (clustersOf (demandsOn askedFor "lib")) ≠ [] := by decide +kernel
  have hcore : commonClusters (clustersOf (demandsOn askedFor "core")) = [] := by decide +kernel
  obtain ⟨-, -, htargets⟩ := stand_ins_meet_demands askedFor
  have hproposed : synthesize askedFor = [⟨"core", .ofComponents [1, 0]⟩,
      ⟨"core", .ofComponents [3, 0]⟩, ⟨"lib", .ofComponents [1, 2, 1]⟩] := by
    -- the two clusters of the core are in order and apart, so their union is the two of them
    have htwo : Interval.union (clustersOf (predicatesOn askedFor "core")).flatten =
        (clustersOf (predicatesOn askedFor "core")).flatten := by
      rw [Interval.union, List.mergeSort_of_pairwise (by decide +kernel)]
      decide +kernel
    have hones : forTarget "core" (predicatesOn askedFor "core") =
        dropRepeated [⟨"core", .ofComponents [1, 0]⟩, ⟨"core", .ofComponents [3, 0]⟩] := by
      rw [forTarget_eq, if_pos (by decide +kernel), htwo]
      exact congrArg dropRepeated (by decide +kernel)
    have hlast : forTarget "lib" (predicatesOn askedFor "lib") =
        [⟨"lib", .ofComponents [1, 2, 1]⟩] := by
      rw [forTarget_eq, if_neg (by decide +kernel)]
      decide +kernel
    have hdiffer : StandIn.sameAs ⟨"core", .ofComponents [1, 0]⟩ ⟨"core", .ofComponents [3, 0]⟩ =
        false := by decide +kernel
    have hnames : targets askedFor = ["core", "lib"] := by decide +kernel
    simp [synthesize, hnames, hones, hlast, dropRepeated, hdiffer]
  exact ⟨hproposed, hlib, ((htargets "lib").2.1 hlib).2, hcore, ((htargets "core").2.2 hcore).1⟩

end StandIn
end Loadout
