/-
# Lines of releases

Releases are compared at the first position where their components differ, missing ones being zero
(`SemanticVersion.compareComponents_eq_lt_iff`).  So the release that raises the component at one
position and has zeros after it is the end of a line: what lies below it, and not below the version
it was made from, agrees with that version up to this position (`SemanticVersion.below_iff_agree`).

Caret and tilde ranges are the lines of the first and of the second position, from the version
itself onwards.  The component that is raised stops at the largest number of 64 bits, and then the
line ends before it begins (`SemanticVersion.not_below_of_largest`).
-/

import Loadout.Proofs.Version.Sameness
import Mathlib.Data.List.GetD

namespace Loadout

/-- The largest component of a version. -/
def largestComponent : UInt64 := 0xFFFFFFFFFFFFFFFF

/-- **What comes before the successor is at most the number**, unless this is the largest one. -/
theorem Text.lt_succSaturating_iff {m n : UInt64} (h : n ≠ largestComponent) :
    m < Text.succSaturating n ↔ m ≤ n := by
  have hn : n.toNat ≠ largestComponent.toNat := fun heq => h (UInt64.toNat.inj heq)
  have hlt : n.toNat < UInt64.size := n.toNat_lt
  have hsize : n.toNat + 1 < UInt64.size := by
    have hlargest : largestComponent.toNat + 1 = UInt64.size := by decide
    omega
  rw [Text.succSaturating, if_pos hsize, UInt64.lt_iff_toNat_lt, UInt64.le_iff_toNat_le,
    UInt64.toNat_add, UInt64.toNat_one, Nat.mod_eq_of_lt hsize, Nat.lt_succ_iff]

/-- The largest component has no next one. -/
theorem Text.succSaturating_largestComponent :
    Text.succSaturating largestComponent = largestComponent := by decide

namespace SemanticVersion

/-! ### The first difference -/

/-- Component lists are compared position by position, also where one of them has ended. -/
theorem compareComponents_head_tail (as bs : List UInt64) : compareComponents as bs =
    (compare (as.headD 0) (bs.headD 0)).then (compareComponents as.tail bs.tail) := by
  cases as with
  | nil =>
    cases bs with
    | nil => rfl
    | cons b bs =>
      rw [nil_compareComponents, compareZeros, Ordering.swap_then, ← Std.OrientedOrd.eq_swap,
        ← nil_compareComponents]
      rfl
  | cons a as =>
    cases bs with
    | nil => rw [compareComponents_nil, compareZeros, List.tail_nil, compareComponents_nil]; rfl
    | cons b bs => rfl

/-- **One component list comes before another** when it has the smaller number at the first position
where they differ. -/
theorem compareComponents_eq_lt_iff {as bs : List UInt64} : compareComponents as bs = .lt ↔
    ∃ k, (∀ j < k, as.getD j 0 = bs.getD j 0) ∧ as.getD k 0 < bs.getD k 0 := by
  generalize hn : max as.length bs.length = n
  induction n generalizing as bs with
  | zero =>
    obtain rfl : as = [] := List.length_eq_zero_iff.1 (by omega)
    obtain rfl : bs = [] := List.length_eq_zero_iff.1 (by omega)
    simp [compareComponents, compareZeros]
  | succ n ih =>
    have htails : max as.tail.length bs.tail.length = n := by
      rw [List.length_tail, List.length_tail]
      omega
    have hhead : ∀ l : List UInt64, l.headD 0 = l.getD 0 0 := fun l => by cases l <;> rfl
    have htail : ∀ (l : List UInt64) (k : Nat), l.tail.getD k 0 = l.getD (k + 1) 0 := fun l k => by
      cases l <;> rfl
    rw [compareComponents_head_tail, Ordering.then_eq_lt, Std.compare_eq_lt, Std.compare_eq_iff_eq,
      ih htails, hhead, hhead]
    simp only [htail]
    constructor
    · rintro (hlt | ⟨heq, k, hbefore, hlt⟩)
      · exact ⟨0, fun j hj => absurd hj (Nat.not_lt_zero j), hlt⟩
      · refine ⟨k + 1, fun j hj => ?_, hlt⟩
        cases j with
        | zero => exact heq
        | succ j => exact hbefore j (Nat.lt_of_succ_lt_succ hj)
    · rintro ⟨k, hbefore, hlt⟩
      cases k with
      | zero => exact .inl hlt
      | succ k =>
        exact .inr ⟨hbefore 0 k.succ_pos, k, fun j hj => hbefore (j + 1) (Nat.succ_lt_succ hj), hlt⟩

variable {u v w : SemanticVersion} {n : Nat}

/-- A release has no pre-release identifiers. -/
theorem preRelease_eq_nil (h : v.isPreRelease = false) : v.preRelease = [] := by
  simpa [isPreRelease] using h

/-- **A release comes before another** when it has the smaller component at the first position where
they differ. -/
theorem below_iff (hv : v.isPreRelease = false) (hw : w.isPreRelease = false) :
    (Version.semantic v).below (.semantic w) = true ↔
      ∃ k, (∀ j < k, v.component j = w.component j) ∧ v.component k < w.component k := by
  rw [Version.below, Ordering.isLT_iff_eq_lt, Version.compare, SemanticVersion.compare,
    preRelease_eq_nil hv, preRelease_eq_nil hw, Ordering.then_eq_lt, compareComponents_eq_lt_iff]
  simp only [comparePreRelease, reduceCtorEq, and_false, or_false]
  rfl

/-- What comes after a version and agrees with it up to a position has no smaller component there,
whether either of them is a release or not. -/
theorem component_le_of_atMost (h : (Version.semantic v).atMost (.semantic w) = true) {k : Nat}
    (hbefore : ∀ j < k, w.component j = v.component j) : v.component k ≤ w.component k := by
  refine UInt64.not_lt.1 fun hlt => ?_
  have hcomponents : compareComponents w.components v.components = .lt :=
    compareComponents_eq_lt_iff.2 ⟨k, hbefore, hlt⟩
  have hbelow : (Version.semantic w).below (.semantic v) = true := by
    rw [Version.below, Version.compare, SemanticVersion.compare, hcomponents]
    rfl
  exact Bool.false_ne_true ((Version.below_iff_not_atMost.1 hbelow).symm.trans h)

/-! ### Where a line ends -/

/-- **A release that ends a line**: it agrees with a version before a position, has the next component
there and zeros behind. -/
structure EndsLine (u v : SemanticVersion) (n : Nat) : Prop where
  release : u.isPreRelease = false
  before : ∀ k < n, u.component k = v.component k
  raised : u.component n = Text.succSaturating (v.component n)
  behind : ∀ k, n < k → u.component k = 0

/-- The next major release ends the major line. -/
theorem endsLine_nextMajor (v : SemanticVersion) : v.release.nextMajor.EndsLine v 0 where
  release := rfl
  before k hk := absurd hk (Nat.not_lt_zero k)
  raised := rfl
  behind k hk := by
    cases k with
    | zero => exact absurd hk (Nat.lt_irrefl 0)
    | succ k => simp [nextMajor, component, ofComponents]

/-- The next minor release ends the minor line. -/
theorem endsLine_nextMinor (v : SemanticVersion) : v.release.nextMinor.EndsLine v 1 where
  release := rfl
  before k hk := by
    obtain rfl : k = 0 := by omega
    rfl
  raised := rfl
  behind k hk := by
    match k, hk with
    | k + 2, _ => simp [nextMinor, component, ofComponents]

/-- Below the end of a line, and not below its beginning, nothing differs before the position of the
line. -/
theorem EndsLine.below_iff (h : u.EndsLine v n) (hw : w.isPreRelease = false)
    (hle : (Version.semantic v).atMost (.semantic w) = true) :
    (Version.semantic w).below (.semantic u) = true ↔
      (∀ j < n, w.component j = v.component j) ∧
        w.component n < Text.succSaturating (v.component n) := by
  rw [SemanticVersion.below_iff hw h.release]
  constructor
  · rintro ⟨k, hbefore, hlt⟩
    rcases Nat.lt_trichotomy k n with hk | rfl | hk
    · have hagree : ∀ j < k, w.component j = v.component j := fun j hj =>
        (hbefore j hj).trans (h.before j (Nat.lt_trans hj hk))
      rw [h.before k hk] at hlt
      exact absurd (component_le_of_atMost hle hagree) (UInt64.not_le.2 hlt)
    · exact ⟨fun j hj => (hbefore j hj).trans (h.before j hj), h.raised ▸ hlt⟩
    · rw [h.behind k hk] at hlt
      exact absurd hlt UInt64.not_lt_zero
  · rintro ⟨hbefore, hlt⟩
    exact ⟨n, fun j hj => (hbefore j hj).trans (h.before j hj).symm, h.raised ▸ hlt⟩

/-- **A line holds what agrees with the version** up to the position of the line. -/
theorem EndsLine.below_iff_agree (h : u.EndsLine v n) (hw : w.isPreRelease = false)
    (hle : (Version.semantic v).atMost (.semantic w) = true)
    (hv : v.component n ≠ largestComponent) :
    (Version.semantic w).below (.semantic u) = true ↔ ∀ j ≤ n, w.component j = v.component j := by
  rw [h.below_iff hw hle, Text.lt_succSaturating_iff hv]
  constructor
  · rintro ⟨hbefore, hn⟩ j hj
    rcases Nat.lt_or_eq_of_le hj with hj | rfl
    · exact hbefore j hj
    · exact UInt64.le_antisymm hn (component_le_of_atMost hle hbefore)
  · intro hagree
    exact ⟨fun j hj => hagree j (Nat.le_of_lt hj), UInt64.le_of_eq (hagree n (Nat.le_refl n))⟩

/-- **A line that would have to end past the largest component holds nothing.** -/
theorem EndsLine.not_below_of_largest (h : u.EndsLine v n) (hw : w.isPreRelease = false)
    (hle : (Version.semantic v).atMost (.semantic w) = true)
    (hv : v.component n = largestComponent) :
    (Version.semantic w).below (.semantic u) = false := by
  rw [← Bool.not_eq_true, h.below_iff hw hle, hv, Text.succSaturating_largestComponent]
  rintro ⟨hbefore, hlt⟩
  exact UInt64.not_lt.2 (hv ▸ component_le_of_atMost hle hbefore) hlt

end SemanticVersion

namespace Term

/-- **Caret and tilde ranges admit the releases of one line.**  Of the releases, `^v` admits those
that are at least `v` and have its first component, and `~v` those that are at least `v` and have
its first two components; but a range whose last component of these is the largest one admits
none. -/
theorem lines_admit_releases (v w : SemanticVersion) (hw : w.isPreRelease = false) :
    (v.component 0 ≠ largestComponent →
      ((sameMajor (.semantic v)).admits (.semantic w) = true ↔
        (Version.semantic v).atMost (.semantic w) = true ∧ w.component 0 = v.component 0)) ∧
    (v.component 0 = largestComponent →
      (sameMajor (.semantic v)).admits (.semantic w) = false) ∧
    (v.component 1 ≠ largestComponent →
      ((sameMinor (.semantic v)).admits (.semantic w) = true ↔
        (Version.semantic v).atMost (.semantic w) = true ∧
          w.component 0 = v.component 0 ∧ w.component 1 = v.component 1)) ∧
    (v.component 1 = largestComponent →
      (sameMinor (.semantic v)).admits (.semantic w) = false) := by
  have hmajor : (sameMajor (.semantic v)).admits (.semantic w) =
    ((Version.semantic v).atMost (.semantic w) &&
      (Version.semantic w).below (.semantic v.release.nextMajor)) := rfl
  have hminor : (sameMinor (.semantic v)).admits (.semantic w) =
    ((Version.semantic v).atMost (.semantic w) &&
      (Version.semantic w).below (.semantic v.release.nextMinor)) := rfl
  rw [hmajor, hminor]
  cases hle : (Version.semantic v).atMost (.semantic w) with
  | false => simp
  | true =>
    have hfirst := v.endsLine_nextMajor
    have hsecond := v.endsLine_nextMinor
    refine ⟨fun hv => ?_, fun hv => ?_, fun hv => ?_, fun hv => ?_⟩
    · simp [hfirst.below_iff_agree hw hle hv]
    · simp [hfirst.not_below_of_largest hw hle hv]
    · simp [hsecond.below_iff_agree hw hle hv, Nat.le_one_iff_eq_zero_or_eq_one]
    · simp [hsecond.not_below_of_largest hw hle hv]

/-- A release candidate of `1.2.3`. -/
def linedCandidate : SemanticVersion := ⟨[1, 2, 3], ["rc", "1"], none⟩

/-- A release of the same major line, with a component more. -/
def linedRelease : SemanticVersion := ⟨[1, 3, 0, 7], [], some "x"⟩

/-- A later release is in the major line of a candidate, but not in its minor line. -/
theorem lines_admit_releases_linedCandidate :
    linedRelease.isPreRelease = false ∧
    (sameMajor (.semantic linedCandidate)).admits (.semantic linedRelease) = true ∧
    (sameMinor (.semantic linedCandidate)).admits (.semantic linedRelease) = false := by
  obtain ⟨hmajor, -, hminor, -⟩ := lines_admit_releases linedCandidate linedRelease rfl
  have hle : (Version.semantic linedCandidate).atMost (.semantic linedRelease) = true := by
    decide +kernel
  refine ⟨rfl, (hmajor (by decide)).2 ⟨hle, rfl⟩, ?_⟩
  rw [← Bool.not_eq_true, hminor (by decide)]
  rintro ⟨-, -, hsecond⟩
  exact absurd hsecond (by decide)

/-- The last major line does not even hold the version that it is named by. -/
example : (sameMajor (.ofComponents [largestComponent])).admits (.ofComponents [largestComponent]) =
    false := by
  decide +kernel

end Term
end Loadout
