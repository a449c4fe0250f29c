/-
# What predicates cover

A predicate covers a cut when the interval of one of its terms does, and so it admits a version
just when it covers the cut before it (`Predicate.admits_iff_covers`).  But it may cover cuts that
no version stands beside, and it is the cuts that decide whether predicates have clusters in
common.

Predicates that are the same, term by term, cover the same cuts (`Predicate.covers_congr`), although
their terms may name one version in two ways: the lines that caret and tilde ranges stand for end at
releases which differ in nothing but the number of zeros.
-/

import Loadout.Proofs.Version.Intersection
import Loadout.Proofs.Version.Lines
import Loadout.Proofs.Version.Predicate

namespace Loadout

/-- **Lines of the same version end at the same release.** -/
theorem SemanticVersion.EndsLine.sameAs {u u' v v' : SemanticVersion} {n : Nat}
    (h : u.EndsLine v n) (h' : u'.EndsLine v' n) (hv : ∀ k, v.component k = v'.component k) :
    (Version.semantic u).sameAs (.semantic u') = true := by
  rw [Version.sameAs_iff, Version.compare_eq_iff]
  refine ⟨fun k => ?_, by rw [preRelease_eq_nil h.release, preRelease_eq_nil h'.release]⟩
  rcases Nat.lt_trichotomy k n with hk | rfl | hk
  · rw [h.before k hk, h'.before k hk, hv]
  · rw [h.raised, h'.raised, hv]
  · rw [h.behind k hk, h'.behind k hk]

namespace Term

/-- Lines of versions that are the same have the same bounds. -/
theorem line_sameAs {next : SemanticVersion → SemanticVersion} {n : Nat}
    (hnext : ∀ s : SemanticVersion, (next s.release).EndsLine s n) {v w : Version}
    (h : v.sameAs w = true) : (interval.line next v).sameAs (interval.line next w) = true := by
  cases v <;> cases w
  case semantic.semantic s t =>
    have halike := Version.compare_eq_iff.1 (Version.sameAs_iff.1 h)
    exact Bool.and_eq_true_iff.2 ⟨h, (hnext s).sameAs (hnext t) halike.1⟩
  case verbatim.verbatim => exact Bool.and_eq_true_iff.2 ⟨h, h⟩
  all_goals exact absurd h Bool.false_ne_true

/-- **Terms that are the same stand for intervals with the same bounds.** -/
theorem interval_sameAs {s t : Term} (h : s.sameAs t = true) :
    s.interval.sameAs t.interval = true := by
  cases s <;> cases t <;> try exact absurd h Bool.false_ne_true
  case any.any => rfl
  case exact.exact => exact Bool.and_eq_true_iff.2 ⟨h, h⟩
  case greaterOrEqual.greaterOrEqual => exact Bool.and_eq_true_iff.2 ⟨h, rfl⟩
  case lessOrEqual.lessOrEqual => exact Bool.and_eq_true_iff.2 ⟨rfl, h⟩
  case greater.greater => exact Bool.and_eq_true_iff.2 ⟨h, rfl⟩
  case less.less => exact Bool.and_eq_true_iff.2 ⟨rfl, h⟩
  case sameMajor.sameMajor => exact line_sameAs SemanticVersion.endsLine_nextMajor h
  case sameMinor.sameMinor => exact line_sameAs SemanticVersion.endsLine_nextMinor h

end Term

namespace Predicate

/-- **A predicate covers a cut** when the interval of a term does. -/
def Covers (p : Predicate) (c : Cut) : Prop := ∃ i ∈ p.intervals, i.Covers c

variable {p q : Predicate} {c : Cut} {v : Version}

/-- **A predicate admits a version** just where it covers the cut before it. -/
theorem admits_iff_covers : p.admits v = true ↔ p.Covers (.beside v false) := by
  simp only [admits_iff, Covers, Interval.contains_iff_covers]

/-- **Predicates that are the same cover the same cuts.** -/
theorem covers_congr (h : p.sameAs q = true) (c : Cut) : p.Covers c ↔ q.Covers c := by
  simp only [Covers, intervals, List.mem_map, exists_exists_and_eq_and]
  have hterms := sameAs_iff.1 h
  generalize p.terms = ss at hterms ⊢
  generalize q.terms = ts at hterms ⊢
  induction hterms with
  | nil => exact Iff.rfl
  | cons hst _ ih =>
    rw [List.exists_mem_cons_iff, List.exists_mem_cons_iff]
    exact or_congr (Interval.covers_congr (Term.interval_sameAs hst) c) ih

end Predicate
end Loadout
