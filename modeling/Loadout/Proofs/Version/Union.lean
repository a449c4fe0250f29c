/-
# The clusters of a union

A union sorts the intervals that are not empty by where they begin, and goes through them with one
cluster in hand, which takes in the next interval as long as it touches it.  Read by their cuts
(`Loadout.Proofs.Version.Cuts`) this is plain: the cluster in hand begins no later than what is
still to come, so an interval that it touches has no gap to it and only its end can lie further
out (`Interval.covers_joined`); and one that it does not touch begins past its end, as does all
that follows (`Interval.pairwise_mergeInto`).

So clusters hold the same versions as the intervals, none of them is empty, and each ends before
the later ones begin (`Interval.union_exact_and_apart`).  A term admits what its interval holds,
the two kinds that do not ask theirs included (`Term.admits_eq_contains`), and a predicate thus
what the clusters of its terms hold.
-/

import Loadout.Proofs.Version.Cuts
import Loadout.Version.Predicate
import Mathlib.Data.List.Basic

namespace Loadout
namespace Interval

/-- **Two intervals with a gap between them**: the first one ends strictly before the second one
begins, or both leave out the one version that bounds them. -/
def Apart (i j : Interval) : Prop :=
  ∃ high low, i.max.version? = some high ∧ j.min.version? = some low ∧
    (high.below low = true ∨
      (high.sameAs low = true ∧ i.max.isInclusive = false ∧ j.min.isInclusive = false))

variable {i j last : Interval} {c : Cut} {v : Version}

/-- Two intervals are apart just where the cut that ends one is before the cut that begins the
other. -/
theorem apart_iff : i.Apart j ↔ i.upper < j.lower := Endpoint.upperCut_lt_lowerCut_iff.symm

/-- **Versions in intervals that lie apart** are in the order of these. -/
theorem Apart.below {w : Version} (h : i.Apart j) (hv : i.contains v = true)
    (hw : j.contains w = true) : v.below w = true := by
  have hcuts : Cut.beside v true < Cut.beside w false :=
    lt_of_le_of_lt (contains_iff.1 hv).2 (lt_of_lt_of_le (apart_iff.1 h) (contains_iff.1 hw).1)
  exact (Cut.beside_lt_beside.1 hcuts).resolve_right fun hsame => Bool.false_ne_true hsame.2.1.symm

/-! ### Taking in one interval -/

/-- A cluster that takes in an interval which begins no earlier. -/
def joined (last i : Interval) : Interval :=
  if i.max.compareUpper last.max = .gt then ⟨last.min, i.max⟩ else last

/-- A cluster begins where it did, whatever it takes in. -/
@[simp] theorem lower_joined (last i : Interval) : (last.joined i).lower = last.lower := by
  unfold joined
  split <;> rfl

/-- The end lies where the one of either interval does, and no earlier than the other one's. -/
theorem upper_joined (last i : Interval) :
    ((last.joined i).upper = last.upper ∧ i.upper ≤ last.upper) ∨
      ((last.joined i).upper = i.upper ∧ last.upper ≤ i.upper) := by
  unfold joined
  rw [Endpoint.compareUpper_eq]
  split
  · rename_i h
    exact .inr ⟨rfl, (Cut.lt_iff_compare.2 (Std.OrientedCmp.lt_of_gt h)).le⟩
  · rename_i h
    exact .inl ⟨rfl, by rwa [upper, upper, Cut.le_iff, Ordering.isLE_iff_ne_gt]⟩

/-- A cluster ends no earlier than it did, and no earlier than what it takes in. -/
theorem upper_le_joined (last i : Interval) :
    last.upper ≤ (last.joined i).upper ∧ i.upper ≤ (last.joined i).upper := by
  rcases upper_joined last i with ⟨h, hle⟩ | ⟨h, hle⟩
  · exact ⟨h.ge, h ▸ hle⟩
  · exact ⟨h ▸ hle, h.ge⟩

/-- **Nothing is lost and nothing gained** by taking in an interval that is touched. -/
theorem covers_joined (hle : last.lower ≤ i.lower) (htouches : last.touches i = true) :
    (last.joined i).Covers c ↔ last.Covers c ∨ i.Covers c := by
  simp only [Covers, lower_joined]
  constructor
  · rintro ⟨hlow, hhigh⟩
    rcases upper_joined last i with ⟨h, -⟩ | ⟨h, -⟩
    · exact .inl ⟨hlow, h ▸ hhigh⟩
    · -- what lies past the end of the cluster lies past the beginning of the interval
      refine (em (c < last.upper)).imp (fun hin => ⟨hlow, hin⟩) fun hpast => ?_
      exact ⟨(touches_iff.1 htouches).trans (Cut.not_lt_iff.1 hpast), h ▸ hhigh⟩
  · rintro (⟨hlow, hhigh⟩ | ⟨hlow, hhigh⟩)
    · exact ⟨hlow, lt_of_lt_of_le hhigh (upper_le_joined last i).1⟩
    · exact ⟨hle.trans hlow, lt_of_lt_of_le hhigh (upper_le_joined last i).2⟩

/-- A cluster that is not empty stays so. -/
theorem isEmpty_joined (h : last.isEmpty = false) : (last.joined i).isEmpty = false := by
  rw [isEmpty_eq_false_iff] at h ⊢
  rw [lower_joined]
  exact lt_of_lt_of_le h (upper_le_joined last i).1

/-! ### Going through all of them -/

/-- **The cluster in hand takes in the next interval, or is done.** -/
theorem mergeInto_cons (last i : Interval) (rest : List Interval) :
    (last.touches i = true ∧ mergeInto last (i :: rest) = mergeInto (last.joined i) rest) ∨
      (last.upper < i.lower ∧ mergeInto last (i :: rest) = last :: mergeInto i rest) := by
  rw [mergeInto]
  split
  · rename_i h
    exact .inl ⟨h, rfl⟩
  · rename_i h
    exact .inr ⟨Cut.lt_iff_not_le.2 (touches_iff.not.1 h), rfl⟩

/-- Intervals in the order in which they begin. -/
def Begins (is : List Interval) : Prop := is.Pairwise fun i j => i.lower ≤ j.lower

/-- A cluster that takes in the next interval begins before the others. -/
theorem Begins.joined {rest : List Interval} (h : Begins (last :: i :: rest)) :
    Begins (last.joined i :: rest) := by
  obtain ⟨hlast, hrest⟩ := List.pairwise_cons.1 h
  refine List.pairwise_cons.2 ⟨fun j hj => ?_, hrest.of_cons⟩
  rw [lower_joined]
  exact hlast j (List.mem_cons_of_mem i hj)

/-- **Clusters cover what the intervals cover.** -/
theorem exists_covers_mergeInto : ∀ {rest : List Interval} {last : Interval},
    Begins (last :: rest) → ((∃ k ∈ mergeInto last rest, k.Covers c) ↔ ∃ i ∈ last :: rest, i.Covers c)
  | [], _, _ => Iff.rfl
  | i :: rest, last, h => by
      obtain ⟨hlast, hrest⟩ := List.pairwise_cons.1 h
      rcases mergeInto_cons last i rest with ⟨htouches, heq⟩ | ⟨-, heq⟩
      · rw [heq, exists_covers_mergeInto h.joined, List.exists_mem_cons_iff, List.exists_mem_cons_iff,
          List.exists_mem_cons_iff, covers_joined (hlast i (List.mem_cons_self ..)) htouches, or_assoc]
      · rw [heq, List.exists_mem_cons_iff, exists_covers_mergeInto hrest,
          List.exists_mem_cons_iff (p := fun i => i.Covers c) (a := last)]

/-- No cluster is empty. -/
theorem isEmpty_of_mem_mergeInto : ∀ {rest : List Interval} {last : Interval},
    (∀ i ∈ last :: rest, i.isEmpty = false) → ∀ c ∈ mergeInto last rest, c.isEmpty = false
  | [], _, h => h
  | i :: rest, last, h => by
      obtain ⟨hlast, hrest⟩ := List.forall_mem_cons.1 h
      rcases mergeInto_cons last i rest with ⟨-, heq⟩ | ⟨-, heq⟩
      · rw [heq]
        exact isEmpty_of_mem_mergeInto (List.forall_mem_cons.2
          ⟨isEmpty_joined hlast, (List.forall_mem_cons.1 hrest).2⟩)
      · rw [heq]
        exact List.forall_mem_cons.2 ⟨hlast, isEmpty_of_mem_mergeInto hrest⟩

/-- No cluster begins before the one in hand. -/
theorem lower_le_of_mem_mergeInto : ∀ {rest : List Interval} {last : Interval},
    Begins (last :: rest) → ∀ c ∈ mergeInto last rest, last.lower ≤ c.lower
  | [], _, _, c, hc => (List.mem_singleton.1 hc) ▸ le_refl _
  | i :: rest, last, h, c, hc => by
      obtain ⟨hlast, hrest⟩ := List.pairwise_cons.1 h
      rcases mergeInto_cons last i rest with ⟨-, heq⟩ | ⟨-, heq⟩
      · rw [← lower_joined last i]
        exact lower_le_of_mem_mergeInto h.joined c (heq ▸ hc)
      · rw [heq] at hc
        rcases List.mem_cons.1 hc with rfl | hc
        · exact le_refl _
        · exact (hlast i (List.mem_cons_self ..)).trans (lower_le_of_mem_mergeInto hrest c hc)

/-- **Each cluster ends before the later ones begin.** -/
theorem pairwise_mergeInto : ∀ {rest : List Interval} {last : Interval},
    Begins (last :: rest) → (mergeInto last rest).Pairwise Apart
  | [], _, _ => List.pairwise_singleton _ _
  | i :: rest, last, h => by
      have hrest : Begins (i :: rest) := h.of_cons
      rcases mergeInto_cons last i rest with ⟨-, heq⟩ | ⟨hapart, heq⟩
      · rw [heq]
        exact pairwise_mergeInto h.joined
      · rw [heq]
        refine List.pairwise_cons.2 ⟨fun c hc => ?_, pairwise_mergeInto hrest⟩
        exact apart_iff.2 (lt_of_lt_of_le hapart (lower_le_of_mem_mergeInto hrest c hc))

/-! ### The union -/

/-- **A union goes through the intervals that are not empty** in the order in which they begin. -/
theorem union_eq (is : List Interval) : ∃ sorted, Begins sorted ∧
    (∀ i, i ∈ sorted ↔ i ∈ is ∧ i.isEmpty = false) ∧
    union is = match sorted with
      | [] => []
      | first :: rest => mergeInto first rest := by
  refine ⟨_, ?_, fun i => ?_, rfl⟩
  · refine (List.pairwise_mergeSort (fun a b c => ?_) (fun a b => ?_) _).imp fun {a b} hab => ?_
    · simp only [Endpoint.compareLower_eq]
      exact Std.TransCmp.isLE_trans
    · simp only [Endpoint.compareLower_eq, Bool.or_eq_true]
      exact (em _).imp_right Cut.le_of_not_le
    · rwa [Endpoint.compareLower_eq] at hab
  · rw [List.mem_mergeSort, List.mem_filter, Bool.not_eq_true']

/-- **Clusters cover the same cuts as the intervals.** -/
theorem exists_covers_union (is : List Interval) (c : Cut) :
    (∃ k ∈ union is, k.Covers c) ↔ ∃ i ∈ is, i.Covers c := by
  obtain ⟨sorted, hbegins, hmem, heq⟩ := union_eq is
  have hsorted : (∃ k ∈ union is, k.Covers c) ↔ ∃ i ∈ sorted, i.Covers c := by
    rw [heq]
    cases sorted with
    | nil => exact Iff.rfl
    | cons first rest => exact exists_covers_mergeInto hbegins
  rw [hsorted]
  refine exists_congr fun i => and_congr_left fun hc => ?_
  rw [hmem]
  exact and_iff_left_of_imp fun _ => exists_covers_iff.1 ⟨c, hc⟩

/-- **Clusters hold the same versions as the intervals.** -/
theorem exists_contains_union (is : List Interval) (v : Version) :
    (∃ c ∈ union is, c.contains v = true) ↔ ∃ i ∈ is, i.contains v = true := by
  simp only [contains_iff_covers, exists_covers_union]

/-- No cluster is empty. -/
theorem isEmpty_of_mem_union {is : List Interval} : ∀ c ∈ union is, c.isEmpty = false := by
  obtain ⟨sorted, -, hmem, heq⟩ := union_eq is
  rw [heq]
  cases sorted with
  | nil => exact fun _ hc => absurd hc List.not_mem_nil
  | cons first rest => exact isEmpty_of_mem_mergeInto fun i hi => ((hmem i).1 hi).2

/-- **Clusters are apart**, each from all after it. -/
theorem pairwise_union (is : List Interval) : (union is).Pairwise Apart := by
  obtain ⟨sorted, hbegins, -, heq⟩ := union_eq is
  rw [heq]
  cases sorted with
  | nil => exact List.Pairwise.nil
  | cons first rest => exact pairwise_mergeInto hbegins

end Interval

/-! ### Predicates -/

/-- **A term admits what its interval holds**, also where it does not ask it. -/
theorem Term.admits_eq_contains (t : Term) (v : Version) : t.admits v = t.interval.contains v := by
  cases t with
  | any => rfl
  | exact w =>
    rw [Term.admits, Bool.eq_iff_iff, Version.sameAs_iff]
    change _ ↔ (w.atMost v && v.atMost w) = true
    rw [Version.atMost, Version.atMost, @Std.OrientedCmp.eq_swap _ Version.compare _ v w]
    cases w.compare v <;> decide
  | _ => rfl

/-- A predicate admits what the interval of a term contains. -/
theorem Predicate.admits_iff {p : Predicate} {v : Version} :
    p.admits v = true ↔ ∃ i ∈ p.intervals, i.contains v = true := by
  simp only [Predicate.admits, Predicate.intervals, List.any_eq_true, List.mem_map,
    exists_exists_and_eq_and, Term.admits_eq_contains]

/-- **A union holds exactly what its intervals hold, in clusters that lie apart.**  A version lies
in some of the intervals just when it lies in a cluster; no cluster is empty; and of two clusters
the earlier one ends strictly before the later one begins, or both leave out the one version that
bounds them.  So a predicate admits a version just when it lies in a cluster of what its terms
stand for. -/
theorem Interval.union_exact_and_apart (is : List Interval) :
    (∀ v, (∃ i ∈ is, i.contains v = true) ↔ ∃ c ∈ union is, c.contains v = true) ∧
    (∀ c ∈ union is, c.isEmpty = false) ∧
    (union is).Pairwise Apart ∧
    ∀ (p : Predicate) (v : Version),
      p.admits v = true ↔ ∃ c ∈ union p.intervals, c.contains v = true := by
  refine ⟨fun v => (exists_contains_union is v).symm, isEmpty_of_mem_union, pairwise_union is,
    fun p v => ?_⟩
  rw [Predicate.admits_iff, exists_contains_union]

end Loadout
