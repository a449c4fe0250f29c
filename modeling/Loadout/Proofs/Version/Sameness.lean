/-
# What it is to be the same version

Two versions compare equal when they are read alike (`Version.compare_eq_iff`): semantic ones have
equal components at all positions, those that are missing being zero, and pre-release identifiers
that are equal one by one, as numbers where they fit 64 bits and as texts else; build metadata
does not count.  So `1-1`, `1.0-01` and `1-1+x` are one version, and `1` is another one.

Nothing that compares versions tells such versions apart: neither a third version, nor the bounds
of an interval, nor a term of a predicate (`Interval.contains_congr`, `Term.admits_congr`).
-/

import Loadout.Proofs.Version.Order
import Loadout.Version.Predicate

namespace Loadout
namespace SemanticVersion

/-! ### What is read -/

/-- What a pre-release identifier is read as: a number of 64 bits, else a text. -/
def readIdentifier (s : String) : UInt64 ⊕ String :=
  match identifierNumber? s with
  | some n => .inl n
  | none => .inr s

/-- Identifiers compare as equal just where they are read alike. -/
theorem compareIdentifier_eq_iff {a b : String} :
    compareIdentifier a b = .eq ↔ readIdentifier a = readIdentifier b := by
  unfold compareIdentifier readIdentifier
  cases identifierNumber? a <;> cases identifierNumber? b <;> simp

/-- Lists of identifiers compare as equal just where they are read alike. -/
theorem compareIdentifiers_eq_iff {as bs : List String} :
    compareIdentifiers as bs = .eq ↔ as.map readIdentifier = bs.map readIdentifier := by
  induction as generalizing bs with
  | nil => cases bs <;> simp [compareIdentifiers]
  | cons a as ih =>
    cases bs with
    | nil => simp [compareIdentifiers]
    | cons b bs =>
      rw [compareIdentifiers, Ordering.then_eq_eq, compareIdentifier_eq_iff, ih]
      simp

/-- Pre-releases compare equal when their identifiers are read alike one by one. -/
theorem comparePreRelease_eq_iff {as bs : List String} :
    comparePreRelease as bs = .eq ↔ as.map readIdentifier = bs.map readIdentifier := by
  cases as with
  | nil => cases bs <;> simp [comparePreRelease]
  | cons a as =>
    cases bs with
    | nil => simp [comparePreRelease]
    | cons b bs => exact compareIdentifiers_eq_iff

/-- Components compare as equal to none just where all are zero. -/
theorem compareZeros_eq_iff {as : List UInt64} : compareZeros as = .eq ↔ ∀ i, as.getD i 0 = 0 := by
  induction as with
  | nil => simp [compareZeros]
  | cons a as ih =>
    rw [compareZeros, Ordering.then_eq_eq, Std.compare_eq_iff_eq, ih]
    constructor
    · rintro ⟨ha, has⟩ i
      cases i with
      | zero => exact ha
      | succ i => exact has i
    · intro h
      exact ⟨h 0, fun i => h (i + 1)⟩

/-- Component lists compare equal when they have the same number at each position. -/
theorem compareComponents_eq_iff {as bs : List UInt64} :
    compareComponents as bs = .eq ↔ ∀ i, as.getD i 0 = bs.getD i 0 := by
  induction as generalizing bs with
  | nil =>
    rw [nil_compareComponents, Ordering.swap_eq_eq, compareZeros_eq_iff]
    simp only [List.getD_nil, eq_comm]
  | cons a as ih =>
    cases bs with
    | nil => rw [compareComponents_nil, compareZeros_eq_iff]; simp only [List.getD_nil]
    | cons b bs =>
      rw [compareComponents, Ordering.then_eq_eq, Std.compare_eq_iff_eq, ih]
      constructor
      · rintro ⟨hab, h⟩ i
        cases i with
        | zero => exact hab
        | succ i => exact h i
      · intro h
        exact ⟨h 0, fun i => h (i + 1)⟩

end SemanticVersion

namespace Version

/-- Whether two versions are read alike, in whatever way each is written. -/
def ReadAlike : Version → Version → Prop
  | .semantic a, .semantic b => (∀ i, a.component i = b.component i) ∧
      a.preRelease.map SemanticVersion.readIdentifier = b.preRelease.map SemanticVersion.readIdentifier
  | .verbatim s, .verbatim t => s = t
  | _, _ => False

/-- **Versions compare equal when they are read alike.** -/
theorem compare_eq_iff {a b : Version} : a.compare b = .eq ↔ a.ReadAlike b := by
  cases a <;> cases b <;> simp only [Version.compare, ReadAlike, reduceCtorEq]
  · rw [SemanticVersion.compare, Ordering.then_eq_eq, SemanticVersion.compareComponents_eq_iff,
      SemanticVersion.comparePreRelease_eq_iff]
    rfl
  · exact Std.compare_eq_iff_eq

/-! ### Nothing tells the same versions apart -/

section Congruence

variable {a b : Version}

/-- Versions that are the same compare alike with others. -/
theorem compare_congr (h : a.sameAs b = true) (c : Version) :
    a.compare c = b.compare c ∧ c.compare a = c.compare b :=
  ⟨Std.TransCmp.congr_left (sameAs_iff.1 h), Std.TransCmp.congr_right (sameAs_iff.1 h)⟩

/-- Versions that are the same are at most the same versions, and the same ones are at most them. -/
theorem atMost_congr (h : a.sameAs b = true) (c : Version) :
    a.atMost c = b.atMost c ∧ c.atMost a = c.atMost b := by
  simp only [atMost, (compare_congr h c).1, (compare_congr h c).2, and_self]

/-- Versions that are the same are below the same versions, and the same ones are below them. -/
theorem below_congr (h : a.sameAs b = true) (c : Version) :
    a.below c = b.below c ∧ c.below a = c.below b := by
  simp only [below, (compare_congr h c).1, (compare_congr h c).2, and_self]

end Congruence

end Version

/-- **An interval holds all of the same versions or none.** -/
theorem Interval.contains_congr {a b : Version} (h : a.sameAs b = true) (i : Interval) :
    i.contains a = i.contains b := by
  have habove : i.min.admitsAbove a = i.min.admitsAbove b := by
    cases i.min with
    | unbounded => rfl
    | inclusive low => exact (Version.atMost_congr h low).2
    | exclusive low => exact (Version.below_congr h low).2
  have hbelow : i.max.admitsBelow a = i.max.admitsBelow b := by
    cases i.max with
    | unbounded => rfl
    | inclusive high => exact (Version.atMost_congr h high).1
    | exclusive high => exact (Version.below_congr h high).1
  unfold Interval.contains
  rw [habove, hbelow]

/-- **So does a term.**  Of all terms only the exact one does not ask its interval. -/
theorem Term.admits_congr {a b : Version} (h : a.sameAs b = true) (t : Term) :
    t.admits a = t.admits b := by
  cases t with
  | any => rfl
  | exact v =>
    show v.sameAs a = v.sameAs b
    rw [Version.sameAs_comm v a, Version.sameAs_comm v b, Version.sameAs_congr h]
  | _ => exact Interval.contains_congr h _

namespace Version

/-- **Versions are ordered totally, up to being the same.**  Swapping two versions swaps how they
compare, and what is at most something else stays so along a chain; versions are the same just
where they compare equal, which is where they are read alike; and then no version, interval or
term tells them apart. -/
theorem ordered_totally_up_to_sameAs (a b c : Version) :
    a.compare b = (b.compare a).swap ∧
    (a.atMost b = true ∨ b.atMost a = true) ∧
    (a.atMost b = true → b.atMost c = true → a.atMost c = true) ∧
    (a.sameAs b = true ↔ a.compare b = .eq) ∧
    (a.compare b = .eq ↔ a.ReadAlike b) ∧
    (a.sameAs b = true →
      a.compare c = b.compare c ∧ c.compare a = c.compare b ∧
      (∀ t : Term, t.admits a = t.admits b) ∧
      ∀ i : Interval, i.contains a = i.contains b) := by
  have hswap : a.compare b = (b.compare a).swap := Std.OrientedCmp.eq_swap
  refine ⟨hswap, ?_, Std.TransCmp.isLE_trans, sameAs_iff, compare_eq_iff, fun h => ?_⟩
  · unfold atMost
    rw [hswap]
    cases b.compare a <;> decide
  · exact ⟨(compare_congr h c).1, (compare_congr h c).2, fun t => t.admits_congr h,
      fun i => i.contains_congr h⟩

/-- A release candidate with a zero before its number and with build metadata. -/
def paddedCandidate : Version := .semantic ⟨[1, 2], ["rc", "01"], some "x"⟩

/-- The same candidate with a component more. -/
def plainCandidate : Version := .semantic ⟨[1, 2, 0], ["rc", "1"], none⟩

/-- A zero before an identifier, a component more and build metadata make no difference to the
order, to terms or to intervals. -/
theorem ordered_totally_up_to_sameAs_candidates :
    paddedCandidate ≠ plainCandidate ∧ paddedCandidate.sameAs plainCandidate = true ∧
    plainCandidate.atMost (.ofComponents [1, 2]) = true ∧
    paddedCandidate.atMost (.ofComponents [1, 2]) = true ∧
    (∀ t : Term, t.admits paddedCandidate = t.admits plainCandidate) ∧
    ∀ i : Interval, i.contains paddedCandidate = i.contains plainCandidate := by
  have hsame : paddedCandidate.sameAs plainCandidate = true := by decide +kernel
  have hle : plainCandidate.atMost (.ofComponents [1, 2]) = true := by decide +kernel
  obtain ⟨-, -, htrans, -, -, hcongr⟩ :=
    ordered_totally_up_to_sameAs paddedCandidate plainCandidate (.ofComponents [1, 2])
  obtain ⟨-, -, hterms, hintervals⟩ := hcongr hsame
  exact ⟨by decide, hsame, hle, htrans (by decide +kernel) hle, hterms, hintervals⟩

end Version
end Loadout
