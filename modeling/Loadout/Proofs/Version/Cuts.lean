/-
# Endpoints as cuts

An endpoint cuts the line of versions in two, just before its version or just past it, and an open
side cuts it where it begins or ends.  Cuts are ordered, and in their order an interval is
everything between two of them: a version lies inside when its own two sides do
(`Interval.contains_iff`), the interval is empty when its cuts do not ascend
(`Interval.isEmpty_iff`), one endpoint is looser than another when its cut lies further out
(`Endpoint.compareLower_eq`, `Endpoint.compareUpper_eq`), and an interval touches a later one when
this one's lower cut does not lie beyond its own upper cut (`Interval.touches_iff`).

No cut lies between the two sides of a version (`Cut.le_or_le`).  That is all that is needed of
versions: whatever is done with intervals is then a matter of the order of cuts.  It is a preorder
only, since a version may be written in several ways.

What an interval holds is best told by the cuts that it covers, from the one where it begins up to
before the one where it ends: a version lies inside when the cut before it is covered
(`Interval.contains_iff_covers`), and an interval that holds no version covers a cut all the same,
unless its bounds exclude each other (`Interval.exists_covers_iff`).
-/

import Loadout.Proofs.Version.Order
import Loadout.Version.Interval
import Mathlib.Order.Basic

namespace Loadout

/-- A place where the line of versions can be cut. -/
inductive Cut where
  /-- where it begins -/
  | start
  /-- beside a version: just past it, or just before it -/
  | beside (v : Version) (past : Bool)
  /-- where it ends -/
  | finish
  deriving DecidableEq, Repr

namespace Cut

/-- Order of cuts along the line; of the two sides of a version the one before it comes first. -/
protected def compare : Cut → Cut → Ordering
  | start, start => .eq
  | start, _ => .lt
  | beside _ _, start => .gt
  | beside v x, beside w y => (v.compare w).then (compare x y)
  | beside _ _, finish => .lt
  | finish, finish => .eq
  | finish, _ => .gt

instance : Std.TransCmp Cut.compare where
  eq_swap {a b} := by
    cases a <;> cases b <;> simp only [Cut.compare, Ordering.swap_lt, Ordering.swap_gt,
      Ordering.swap_eq, Ordering.swap_then]
    rw [← Std.OrientedCmp.eq_swap, ← Std.OrientedOrd.eq_swap]
  isLE_trans {a b c} hab hbc := by
    cases a <;> cases b <;> cases c <;> simp only [Cut.compare] at hab hbc ⊢
    case beside.beside.beside v x w y u z =>
      have hversion := SemanticVersion.transCmp_on Version.compare (Prod.fst : Version × Bool → Version)
      have hside := SemanticVersion.transCmp_on compare (Prod.snd : Version × Bool → Bool)
      have htrans : Std.TransCmp (compareLex (fun a b : Version × Bool => a.1.compare b.1)
        fun a b : Version × Bool => compare a.2 b.2) := inferInstance
      exact htrans.isLE_trans (a := (v, x)) (b := (w, y)) (c := (u, z)) hab hbc
    all_goals first | rfl | exact absurd hab Bool.false_ne_true | exact absurd hbc Bool.false_ne_true

instance : Preorder Cut where
  le a b := (a.compare b).isLE = true
  le_refl _ := Std.ReflCmp.isLE_rfl
  le_trans _ _ _ := Std.TransCmp.isLE_trans

variable {a b : Cut} {v w : Version} {x y : Bool}

/-- Cuts are ordered as they compare. -/
theorem le_iff : a ≤ b ↔ (a.compare b).isLE = true := Iff.rfl

/-- One cut is before another one just where the other one does not come first. -/
theorem lt_iff_not_le : a < b ↔ ¬b ≤ a := by
  rw [lt_iff_le_not_ge, and_iff_right_iff_imp]
  intro h
  rw [le_iff, @Std.OrientedCmp.eq_swap _ Cut.compare _ b a] at h
  rw [le_iff]
  cases hab : a.compare b with
  | lt => rfl
  | eq => rfl
  | gt => exact absurd (by rw [hab]; rfl) h

/-- Of two cuts one comes first. -/
theorem le_of_not_le (h : ¬b ≤ a) : a ≤ b := (lt_iff_not_le.2 h).le

/-- What is not before a cut comes after it, or is the cut. -/
theorem not_lt_iff : ¬a < b ↔ b ≤ a := by
  rw [lt_iff_not_le, not_not]

/-- One cut is before another one just where it compares as less. -/
theorem lt_iff_compare : a < b ↔ a.compare b = .lt := by
  rw [lt_iff_not_le, le_iff, @Std.OrientedCmp.eq_swap _ Cut.compare _ b a]
  cases a.compare b <;> decide

/-- Every cut comes after the start. -/
theorem start_le (c : Cut) : start ≤ c := by
  cases c <;> rfl

/-- Every cut comes before the finish. -/
theorem le_finish (c : Cut) : c ≤ finish := by
  cases c <;> rfl

/-- A cut beside a version is before one beside a larger version, and the cut before a version is
before the one after it. -/
theorem beside_lt_beside : beside v x < beside w y ↔
    v.below w = true ∨ (v.sameAs w = true ∧ x = false ∧ y = true) := by
  rw [lt_iff_compare, Cut.compare, Version.below, Version.sameAs_iff]
  cases v.compare w <;> cases x <;> cases y <;> decide

/-- Cuts on one side of two versions are ordered as these are. -/
theorem beside_le_beside (h : v.atMost w = true) (x : Bool) : beside v x ≤ beside w x := by
  have hside : compare x x = .eq := Std.ReflOrd.compare_self
  rw [le_iff, Cut.compare, hside, Ordering.then_eq]
  exact h

/-- Cuts beside two versions, told by how these compare the other way round. -/
theorem isLE_compare_beside (v w : Version) (x y : Bool) :
    ((beside w y).compare (beside v x)).isLE =
      match v.compare w with
      | .gt => true
      | .eq => !y || x
      | .lt => false := by
  rw [Cut.compare, @Std.OrientedCmp.eq_swap _ Version.compare _ w v]
  cases v.compare w <;> cases x <;> cases y <;> rfl

/-- **No cut lies between the two sides of a version.** -/
theorem le_or_le (c : Cut) (v : Version) : c ≤ beside v false ∨ beside v true ≤ c := by
  cases c with
  | start => exact .inl (start_le _)
  | finish => exact .inr (le_finish _)
  | beside w x =>
    simp only [le_iff, Cut.compare, @Std.OrientedCmp.eq_swap _ Version.compare _ v w]
    cases w.compare v <;> cases x <;> decide

/-- What lies beyond the cut before a version lies beyond the version. -/
theorem beside_lt_iff : beside v false < a ↔ beside v true ≤ a := by
  exact ⟨fun h => (le_or_le a v).resolve_left (lt_iff_not_le.1 h),
    fun h => lt_of_lt_of_le (beside_lt_beside.2 (.inr ⟨v.sameAs_self, rfl, rfl⟩)) h⟩

end Cut

namespace Endpoint

/-- Where a lower endpoint cuts. -/
def lowerCut : Endpoint → Cut
  | unbounded => .start
  | inclusive v => .beside v false
  | exclusive v => .beside v true

/-- Where an upper endpoint cuts. -/
def upperCut : Endpoint → Cut
  | unbounded => .finish
  | inclusive v => .beside v true
  | exclusive v => .beside v false

variable {a b e : Endpoint} {v : Version}

/-- **The looser lower endpoint cuts first.** -/
theorem compareLower_eq (a b : Endpoint) : a.compareLower b = a.lowerCut.compare b.lowerCut := by
  cases a <;> cases b <;> rfl

/-- **The looser upper endpoint cuts last.** -/
theorem compareUpper_eq (a b : Endpoint) : a.compareUpper b = a.upperCut.compare b.upperCut := by
  cases a <;> cases b <;> rfl

/-- A lower endpoint admits the versions whose cuts come after its own. -/
theorem admitsAbove_iff : e.admitsAbove v = true ↔ e.lowerCut ≤ .beside v false := by
  cases e with
  | unbounded => exact iff_of_true rfl (Cut.start_le _)
  | inclusive low =>
    rw [admitsAbove, lowerCut, Cut.le_iff, Cut.compare, Version.atMost]
    cases low.compare v <;> decide
  | exclusive low =>
    rw [admitsAbove, lowerCut, Cut.le_iff, Cut.compare, Version.below]
    cases low.compare v <;> decide

/-- An upper endpoint admits the versions whose cuts come before its own. -/
theorem admitsBelow_iff : e.admitsBelow v = true ↔ .beside v true ≤ e.upperCut := by
  cases e with
  | unbounded => exact iff_of_true rfl (Cut.le_finish _)
  | inclusive high =>
    rw [admitsBelow, upperCut, Cut.le_iff, Cut.compare, Version.atMost]
    cases v.compare high <;> decide
  | exclusive high =>
    rw [admitsBelow, upperCut, Cut.le_iff, Cut.compare, Version.below]
    cases v.compare high <;> decide

/-- **An upper endpoint that cuts before a lower one** ends strictly before that one begins, or
both leave out the same version. -/
theorem upperCut_lt_lowerCut_iff : a.upperCut < b.lowerCut ↔
    ∃ high low, a.version? = some high ∧ b.version? = some low ∧
      (high.below low = true ∨
        (high.sameAs low = true ∧ a.isInclusive = false ∧ b.isInclusive = false)) := by
  have hnotFinish : ∀ c : Cut, ¬Cut.finish < c := fun c h => Cut.lt_iff_not_le.1 h (Cut.le_finish c)
  have hnotStart : ∀ c : Cut, ¬c < Cut.start := fun c h => Cut.lt_iff_not_le.1 h (Cut.start_le c)
  cases a <;> cases b <;>
    simp [upperCut, lowerCut, version?, isInclusive, Cut.beside_lt_beside, hnotFinish, hnotStart]

end Endpoint

namespace Interval

/-- The cut where an interval begins. -/
def lower (i : Interval) : Cut := i.min.lowerCut

/-- The cut where an interval ends. -/
def upper (i : Interval) : Cut := i.max.upperCut

variable {i j : Interval} {v : Version}

/-- **A version lies inside** when the interval begins before it and ends past it. -/
theorem contains_iff : i.contains v = true ↔ i.lower ≤ .beside v false ∧ .beside v true ≤ i.upper := by
  rw [contains, Bool.and_eq_true, Endpoint.admitsAbove_iff, Endpoint.admitsBelow_iff]
  rfl

/-- **An interval is empty** when it does not end past where it begins. -/
theorem isEmpty_iff : i.isEmpty = true ↔ i.upper ≤ i.lower := by
  obtain ⟨low, high⟩ := i
  rw [Cut.le_iff, Bool.coe_iff_coe]
  cases low <;> cases high <;> first
    | rfl
    | change _ = ((Cut.beside _ _).compare (Cut.beside _ _)).isLE
      rw [Cut.isLE_compare_beside]
      rfl

/-- An interval is not empty just where it begins before it ends. -/
theorem isEmpty_eq_false_iff : i.isEmpty = false ↔ i.lower < i.upper := by
  rw [Cut.lt_iff_not_le, ← isEmpty_iff, Bool.not_eq_true]

/-- **An interval touches another one** when that one begins no later than this one ends. -/
theorem touches_iff : i.touches j = true ↔ j.lower ≤ i.upper := by
  obtain ⟨-, high⟩ := i
  obtain ⟨low, -⟩ := j
  rw [Cut.le_iff, Bool.coe_iff_coe]
  cases high <;> cases low <;> first
    | rfl
    | change _ = ((Cut.beside _ _).compare (Cut.beside _ _)).isLE
      rw [Cut.isLE_compare_beside]
      rfl

/-- **An interval covers a cut** that lies neither before its beginning nor at its end or beyond. -/
def Covers (i : Interval) (c : Cut) : Prop := i.lower ≤ c ∧ c < i.upper

/-- **A version lies inside** when the cut before it is covered. -/
theorem contains_iff_covers : i.contains v = true ↔ i.Covers (.beside v false) := by
  rw [contains_iff, Covers, Cut.beside_lt_iff]

/-- **An interval is empty** when it covers no cut. -/
theorem exists_covers_iff : (∃ c, i.Covers c) ↔ i.isEmpty = false := by
  rw [isEmpty_eq_false_iff]
  exact ⟨fun ⟨_, hlow, hhigh⟩ => lt_of_le_of_lt hlow hhigh, fun h => ⟨i.lower, le_refl _, h⟩⟩

/-- An interval is not empty when a version lies inside. -/
theorem isEmpty_of_contains (h : i.contains v = true) : i.isEmpty = false :=
  exists_covers_iff.1 ⟨_, contains_iff_covers.1 h⟩

end Interval
end Loadout
