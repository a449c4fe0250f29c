/-
# Intersections

Two intervals meet from the later of the cuts where they begin to the earlier of those where they
end, and what lies between these is what lies in both (`Interval.covers_meet`).  The bounds of the
meet exclude each other just when no cut is covered twice, so an intersection that is missing
loses nothing, whether the two intervals are far apart, touch with one of them open, or are empty
themselves.

Where both begin with the same version it may still be written in two ways, and the intersection
takes it as it stands in its first operand.  So swapping the operands gives another spelling of
the same bounds at most (`Endpoint.sameAs`, `Interval.sameAs`), and intervals that differ no
further cover the same cuts (`Interval.covers_congr`).

Clusters are intersected pair by pair and merged, which adds nothing and drops nothing
(`Interval.exists_covers_intersectAll`).
-/

import Loadout.Proofs.Version.Union

namespace Loadout
namespace Endpoint

/-- Whether two endpoints are of one kind and about one version. -/
def sameAs : Endpoint → Endpoint → Bool
  | unbounded, unbounded => true
  | inclusive v, inclusive w => v.sameAs w
  | exclusive v, exclusive w => v.sameAs w
  | _, _ => false

variable {a b : Endpoint}

/-- **Lower endpoints that cut at one place** are of one kind and about one version. -/
theorem sameAs_iff_lowerCut : a.sameAs b = true ↔ a.lowerCut.compare b.lowerCut = .eq := by
  cases a <;> cases b <;> simp [sameAs, lowerCut, Cut.compare, Version.sameAs_iff, Ordering.then_eq_eq]

/-- **So are upper endpoints.** -/
theorem sameAs_iff_upperCut : a.sameAs b = true ↔ a.upperCut.compare b.upperCut = .eq := by
  cases a <;> cases b <;> simp [sameAs, upperCut, Cut.compare, Version.sameAs_iff, Ordering.then_eq_eq]

end Endpoint

namespace Interval

/-- Whether two intervals have the same bounds, perhaps written in two ways. -/
def sameAs (i j : Interval) : Bool := i.min.sameAs j.min && i.max.sameAs j.max

variable {a b i j : Interval} {c : Cut} {v : Version}

/-- **Intervals with the same bounds cover the same cuts.** -/
theorem covers_congr (h : i.sameAs j = true) (c : Cut) : i.Covers c ↔ j.Covers c := by
  obtain ⟨hmin, hmax⟩ := Bool.and_eq_true_iff.1 h
  have hlower : i.lower.compare j.lower = .eq := Endpoint.sameAs_iff_lowerCut.1 hmin
  have hupper : i.upper.compare j.upper = .eq := Endpoint.sameAs_iff_upperCut.1 hmax
  rw [Covers, Covers, Cut.le_iff, Cut.le_iff, Cut.lt_iff_compare, Cut.lt_iff_compare,
    Std.TransCmp.congr_left hlower, Std.TransCmp.congr_right hupper]

/-- Intervals with the same bounds are empty alike. -/
theorem isEmpty_congr (h : i.sameAs j = true) : i.isEmpty = j.isEmpty := by
  rw [← Bool.not_inj_iff, Bool.eq_iff_iff, Bool.not_eq_true', Bool.not_eq_true',
    ← exists_covers_iff, ← exists_covers_iff]
  exact exists_congr (covers_congr h)

/-! ### Where two intervals meet -/

/-- The interval between the tighter bounds of two intervals. -/
def meet (a b : Interval) : Interval :=
  ⟨if a.min.compareLower b.min = .lt then b.min else a.min,
    if a.max.compareUpper b.max = .gt then b.max else a.max⟩

/-- The intersection is the interval between the tighter bounds, unless that is empty. -/
theorem intersect?_eq (a b : Interval) :
    a.intersect? b = if (a.meet b).isEmpty then none else some (a.meet b) := rfl

/-- What is not before the meet is not before either interval. -/
theorem lower_meet_le_iff : (a.meet b).lower ≤ c ↔ a.lower ≤ c ∧ b.lower ≤ c := by
  show (if a.min.compareLower b.min = .lt then b.min else a.min).lowerCut ≤ c ↔ _
  split <;> rename_i h <;> rw [Endpoint.compareLower_eq, ← Cut.lt_iff_compare] at h
  · exact ⟨fun hb => ⟨h.le.trans hb, hb⟩, And.right⟩
  · exact ⟨fun ha => ⟨ha, (Cut.not_lt_iff.1 h).trans ha⟩, And.left⟩

/-- What is before the end of the meet is before the end of both. -/
theorem lt_upper_meet_iff : c < (a.meet b).upper ↔ c < a.upper ∧ c < b.upper := by
  show c < (if a.max.compareUpper b.max = .gt then b.max else a.max).upperCut ↔ _
  split <;> rename_i h <;>
    rw [Endpoint.compareUpper_eq, Std.OrientedCmp.gt_iff_lt, ← Cut.lt_iff_compare] at h
  · exact ⟨fun hb => ⟨hb.trans h, hb⟩, And.right⟩
  · exact ⟨fun ha => ⟨ha, lt_of_lt_of_le ha (Cut.not_lt_iff.1 h)⟩, And.left⟩

/-- **The meet covers what both intervals cover.** -/
theorem covers_meet : (a.meet b).Covers c ↔ a.Covers c ∧ b.Covers c := by
  rw [Covers, lower_meet_le_iff, lt_upper_meet_iff]
  exact and_and_and_comm

/-- **So does the intersection**, which is missing where no cut is covered twice. -/
theorem exists_intersect?_covers :
    (∃ r, a.intersect? b = some r ∧ r.Covers c) ↔ a.Covers c ∧ b.Covers c := by
  rw [intersect?_eq, ← covers_meet]
  cases hempty : (a.meet b).isEmpty with
  | true =>
    have hnone : ¬(a.meet b).Covers c := fun hc =>
      Bool.false_ne_true ((exists_covers_iff.1 ⟨c, hc⟩).symm.trans hempty)
    simp [hnone]
  | false => simp

/-- **Swapping two intervals** writes the bounds of their meet in another way at most. -/
theorem sameAs_meet (a b : Interval) : (a.meet b).sameAs (b.meet a) = true := by
  have hself : ∀ e : Endpoint, e.sameAs e = true := fun e =>
    Endpoint.sameAs_iff_lowerCut.2 Std.ReflCmp.compare_self
  refine Bool.and_eq_true_iff.2 ⟨?_, ?_⟩
  · unfold meet
    rw [Endpoint.compareLower_eq, Endpoint.compareLower_eq,
      @Std.OrientedCmp.eq_swap _ Cut.compare _ b.min.lowerCut]
    cases h : a.min.lowerCut.compare b.min.lowerCut with
    | lt => exact hself b.min
    | eq => exact Endpoint.sameAs_iff_lowerCut.2 h
    | gt => exact hself a.min
  · unfold meet
    rw [Endpoint.compareUpper_eq, Endpoint.compareUpper_eq,
      @Std.OrientedCmp.eq_swap _ Cut.compare _ b.max.upperCut]
    cases h : a.max.upperCut.compare b.max.upperCut with
    | lt => exact hself a.max
    | eq => exact Endpoint.sameAs_iff_upperCut.2 h
    | gt => exact hself b.max

/-- Which of two intervals comes first changes the spelling of bounds only. -/
theorem rel_intersect?_swap (a b : Interval) :
    Option.Rel (fun r s => r.sameAs s = true) (a.intersect? b) (b.intersect? a) := by
  rw [intersect?_eq, intersect?_eq, isEmpty_congr (sameAs_meet b a)]
  split
  · exact .none
  · exact .some (sameAs_meet a b)

/-! ### Lists of clusters -/

/-- **Intersected clusters cover what clusters of both lists cover.** -/
theorem exists_covers_intersectAll (as bs : List Interval) (c : Cut) :
    (∃ k ∈ intersectAll as bs, k.Covers c) ↔ (∃ i ∈ as, i.Covers c) ∧ ∃ j ∈ bs, j.Covers c := by
  rw [intersectAll, exists_covers_union]
  simp only [List.mem_flatMap, List.mem_filterMap]
  constructor
  · rintro ⟨r, ⟨i, hi, j, hj, hr⟩, hc⟩
    obtain ⟨hic, hjc⟩ := exists_intersect?_covers.1 ⟨r, hr, hc⟩
    exact ⟨⟨i, hi, hic⟩, j, hj, hjc⟩
  · rintro ⟨⟨i, hi, hic⟩, j, hj, hjc⟩
    obtain ⟨r, hr, hc⟩ := exists_intersect?_covers.2 ⟨hic, hjc⟩
    exact ⟨r, ⟨i, hi, j, hj, hr⟩, hc⟩

/-- **Intersection is exact.**  A version lies in two intervals just when they have an intersection
and it lies in that; swapping them gives no intersection in place of none, and else one with the
same bounds; and a version lies in some intersected cluster just when it lies in some cluster of
either list. -/
theorem intersection_exact (a b : Interval) (as bs : List Interval) (v : Version) :
    (a.contains v = true ∧ b.contains v = true ↔
      ∃ r, a.intersect? b = some r ∧ r.contains v = true) ∧
    Option.Rel (fun r s => r.sameAs s = true) (a.intersect? b) (b.intersect? a) ∧
    ((∃ k ∈ intersectAll as bs, k.contains v = true) ↔
      (∃ i ∈ as, i.contains v = true) ∧ ∃ j ∈ bs, j.contains v = true) := by
  simp only [contains_iff_covers]
  exact ⟨exists_intersect?_covers.symm, rel_intersect?_swap a b, exists_covers_intersectAll as bs _⟩

/-- Of two ranges from one version onwards, written with and without a zero, the first one lends its
spelling. -/
example :
    let short : Interval := ⟨.inclusive (.ofComponents [2]), .unbounded⟩
    let long : Interval := ⟨.inclusive (.ofComponents [2, 0]), .unbounded⟩
    short.intersect? long = some short ∧ long.intersect? short = some long := by
  decide

end Interval
end Loadout
