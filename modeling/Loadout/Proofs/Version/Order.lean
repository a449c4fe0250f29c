/-
# The order of versions

`Version.compare` is a total preorder: swapping its arguments swaps its answer, and what it
admits is transitive (`Std.TransCmp Version.compare`).  Component lists compare as lists of one
length, once both are filled up with zeros (`SemanticVersion.compareComponents_eq`), so the laws
of the lexicographic order carry over; pre-release identifiers compare by what they are read as.

So to be the same version is an equivalence (`Version.sameAs_comm`, `Version.sameAs_congr`).
-/

import Loadout.Version.Basic

namespace Loadout
namespace SemanticVersion

/-! ### Components -/

/-- The first components of a list, with zeros where it has none. -/
def filled : Nat → List UInt64 → List UInt64
  | 0, _ => []
  | n + 1, as => as.headD 0 :: filled n as.tail

/-- More components count as long as they are not zero. -/
theorem compareComponents_nil (as : List UInt64) : compareComponents as [] = compareZeros as := by
  cases as <;> rfl

/-- So they do on the other side. -/
theorem nil_compareComponents (bs : List UInt64) :
    compareComponents [] bs = (compareZeros bs).swap := by
  cases bs <;> rfl

/-- **Component lists compare as lists of one length**, which both are filled up to. -/
theorem compareComponents_eq : ∀ (n : Nat) (as bs : List UInt64), as.length ≤ n → bs.length ≤ n →
    compareComponents as bs = List.compareLex compare (filled n as) (filled n bs)
  | _, [], [], _, _ => (@Std.ReflCmp.compare_self _ (List.compareLex compare) _ _).symm
  | 0, _ :: _, _, h, _ => absurd h (Nat.not_succ_le_zero _)
  | 0, [], _ :: _, _, h => absurd h (Nat.not_succ_le_zero _)
  | n + 1, a :: as, [], has, _ => by
      have ih := compareComponents_eq n as [] (Nat.le_of_succ_le_succ has) (Nat.zero_le n)
      rw [compareComponents_nil] at ih
      rw [compareComponents_nil, compareZeros, ih, filled, filled, List.compareLex_cons_cons]
      rfl
  | n + 1, [], b :: bs, _, hbs => by
      have ih := compareComponents_eq n [] bs (Nat.zero_le n) (Nat.le_of_succ_le_succ hbs)
      rw [nil_compareComponents] at ih
      rw [nil_compareComponents, compareZeros, Ordering.swap_then, ih, filled, filled,
        List.compareLex_cons_cons, ← Std.OrientedCmp.eq_swap]
      rfl
  | n + 1, a :: as, b :: bs, has, hbs => by
      rw [compareComponents, compareComponents_eq n as bs (Nat.le_of_succ_le_succ has)
        (Nat.le_of_succ_le_succ hbs), filled, filled, List.compareLex_cons_cons]
      rfl

instance : Std.TransCmp compareComponents where
  eq_swap {as bs} := by
    have has := Nat.le_max_left as.length bs.length
    have hbs := Nat.le_max_right as.length bs.length
    rw [compareComponents_eq _ as bs has hbs, compareComponents_eq _ bs as hbs has, ← Std.OrientedCmp.eq_swap]
  isLE_trans {as bs cs} hab hbc := by
    -- one length for all three
    generalize hn : max as.length (max bs.length cs.length) = n
    have has : as.length ≤ n := by omega
    have hbs : bs.length ≤ n := by omega
    have hcs : cs.length ≤ n := by omega
    rw [compareComponents_eq n as bs has hbs] at hab
    rw [compareComponents_eq n bs cs hbs hcs] at hbc
    rw [compareComponents_eq n as cs has hcs]
    exact Std.TransCmp.isLE_trans hab hbc

/-! ### Pre-releases -/

instance : Std.TransCmp compareIdentifier where
  eq_swap {a b} := by
    cases ha : identifierNumber? a <;> cases hb : identifierNumber? b <;>
      simp only [compareIdentifier, ha, hb]
    · exact Std.OrientedOrd.eq_swap
    · rfl
    · rfl
    · exact Std.OrientedOrd.eq_swap
  isLE_trans {a b c} hab hbc := by
    cases ha : identifierNumber? a <;> cases hb : identifierNumber? b <;>
      cases hc : identifierNumber? c <;> simp only [compareIdentifier, ha, hb, hc] at hab hbc ⊢
    case none.none.none => exact Std.TransOrd.isLE_trans hab hbc
    case some.some.some => exact Std.TransOrd.isLE_trans hab hbc
    all_goals first | rfl | exact absurd hab Bool.false_ne_true | exact absurd hbc Bool.false_ne_true

/-- Identifiers are compared one by one. -/
theorem compareIdentifiers_eq : ∀ as bs : List String,
    compareIdentifiers as bs = List.compareLex compareIdentifier as bs
  | [], [] => rfl
  | [], _ :: _ => rfl
  | _ :: _, [] => rfl
  | a :: as, b :: bs => by
      rw [compareIdentifiers, compareIdentifiers_eq as bs, List.compareLex_cons_cons]

instance : Std.TransCmp comparePreRelease where
  eq_swap {as bs} := by
    cases as <;> cases bs <;> simp only [comparePreRelease, Ordering.swap, compareIdentifiers_eq]
    exact Std.OrientedCmp.eq_swap
  isLE_trans {as bs cs} hab hbc := by
    cases as <;> cases bs <;> cases cs <;>
      simp only [comparePreRelease, compareIdentifiers_eq] at hab hbc ⊢
    case cons.cons.cons => exact Std.TransCmp.isLE_trans hab hbc
    all_goals first | rfl | exact absurd hab Bool.false_ne_true | exact absurd hbc Bool.false_ne_true

/-! ### Versions -/

/-- What is compared by a part of it is compared as well as the part is. -/
theorem transCmp_on {α β : Type} (cmp : β → β → Ordering) [Std.TransCmp cmp] (part : α → β) :
    Std.TransCmp fun a b => cmp (part a) (part b) where
  eq_swap := Std.OrientedCmp.eq_swap
  isLE_trans := Std.TransCmp.isLE_trans

instance : Std.TransCmp SemanticVersion.compare :=
  have := transCmp_on compareComponents SemanticVersion.components
  have := transCmp_on comparePreRelease SemanticVersion.preRelease
  inferInstanceAs (Std.TransCmp (compareLex
    (fun a b : SemanticVersion => compareComponents a.components b.components)
    (fun a b : SemanticVersion => comparePreRelease a.preRelease b.preRelease)))

end SemanticVersion

namespace Version

/-- **Versions are ordered totally**, though versions that are written in two ways may compare
equal. -/
instance : Std.TransCmp Version.compare where
  eq_swap {a b} := by
    cases a <;> cases b <;> simp only [Version.compare, Ordering.swap_lt, Ordering.swap_gt]
    · exact Std.OrientedCmp.eq_swap
    · exact Std.OrientedOrd.eq_swap
  isLE_trans {a b c} hab hbc := by
    cases a <;> cases b <;> cases c <;> simp only [Version.compare] at hab hbc ⊢
    case semantic.semantic.semantic => exact Std.TransCmp.isLE_trans hab hbc
    case verbatim.verbatim.verbatim => exact Std.TransOrd.isLE_trans hab hbc
    all_goals first | rfl | exact absurd hab Bool.false_ne_true | exact absurd hbc Bool.false_ne_true

/-- A version comes strictly before those that are not at most it. -/
theorem below_iff_not_atMost {a b : Version} : b.below a = true ↔ a.atMost b = false := by
  have hswap : a.compare b = (b.compare a).swap := Std.OrientedCmp.eq_swap
  rw [below, atMost, hswap]
  cases b.compare a <;> decide

/-! ### The same version -/

/-- **Versions are the same just where they compare equal.** -/
theorem sameAs_iff {a b : Version} : a.sameAs b = true ↔ a.compare b = .eq := by
  cases a <;> cases b <;> simp only [sameAs, Version.compare, reduceCtorEq, Bool.false_eq_true]
  · exact beq_iff_eq
  · rw [beq_iff_eq, Std.compare_eq_iff_eq]

/-- A version is the same as itself. -/
@[simp] theorem sameAs_self (v : Version) : v.sameAs v = true :=
  sameAs_iff.2 Std.ReflCmp.compare_self

/-- Which of two versions comes first does not count. -/
theorem sameAs_comm (a b : Version) : a.sameAs b = b.sameAs a := by
  rw [Bool.eq_iff_iff, sameAs_iff, sameAs_iff, @Std.OrientedCmp.eq_swap _ Version.compare _ a b]
  cases b.compare a <;> decide

/-- Versions that are the same are the same as the same versions. -/
theorem sameAs_congr {a b : Version} (h : a.sameAs b = true) (c : Version) :
    a.sameAs c = b.sameAs c := by
  rw [Bool.eq_iff_iff, sameAs_iff, sameAs_iff, Std.TransCmp.congr_left (sameAs_iff.1 h)]

end Version
end Loadout
