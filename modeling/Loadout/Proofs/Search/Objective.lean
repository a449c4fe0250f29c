/-
# Scores and bounds

Scores of one objective are compared as lists of numbers are, so comparison is transitive
(`Objective.not_gt_trans`, `Objective.not_gt_of_gt`).

Tiers whose weights fit a word add up without wrapping around (`Objective.Fits`), and then
a tier weighs no less when more of its literals count (`Objective.weigh_mono`).  So a
valuation that makes none of the lost literals true scores no more than the bound, up to
the tier that decides, and no more than what the bound does not beat
(`Objective.not_gt_of_bound`).
-/

import Loadout.Proofs.Search.Trail
import Loadout.Search.Optimize
import Mathlib.Algebra.GroupWithZero.Nat

namespace Loadout
namespace Objective

variable {α : Type}

/-- Scores are compared as lists. -/
theorem compareScores_eq_compare : ∀ a b : List Nat, compareScores a b = compare a b
  | [], [] => rfl
  | [], _ :: _ => rfl
  | _ :: _, [] => rfl
  | a :: as, b :: bs => by
      rw [compareScores, compareScores_eq_compare as bs, List.compare_cons_cons]

/-- Scores that are not beaten stay so along a chain. -/
theorem not_gt_trans {a b c : List Nat} (hab : compareScores a b ≠ .gt)
    (hbc : compareScores b c ≠ .gt) : compareScores a c ≠ .gt := by
  simp only [compareScores_eq_compare, ne_eq, ← Ordering.isLE_iff_ne_gt] at *
  exact Std.TransCmp.isLE_trans hab hbc

/-- What does not beat the lesser of two scores does not beat the greater one. -/
theorem not_gt_of_gt {a b c : List Nat} (hab : compareScores a b ≠ .gt)
    (hcb : compareScores c b = .gt) : compareScores a c ≠ .gt := by
  refine not_gt_trans hab ?_
  rw [compareScores_eq_compare] at *
  rw [Std.OrientedCmp.lt_of_gt hcb]
  exact Ordering.noConfusion

/-- A score is equal to itself. -/
@[simp] theorem compareScores_self (a : List Nat) : compareScores a a = .eq := by
  rw [compareScores_eq_compare]
  exact Std.ReflCmp.compare_self

/-! ### Weights -/

/-- The weights of a tier fit a word. -/
def Fits (o : Objective α) : Prop := ∀ tier ∈ o.tiers, (tier.map (·.2)).sum < UInt64.size

instance (o : Objective α) : Decidable o.Fits :=
  inferInstanceAs (Decidable (∀ tier ∈ o.tiers, (tier.map (·.2)).sum < UInt64.size))

/-- The weight of what counts in a tier, without bounds. -/
def total (tier : List (Literal α × Nat)) (counts : Literal α → Bool) : Nat :=
  ((tier.filter fun x => counts x.1).map (·.2)).sum

/-- A tier weighs its total, as far as 64 bits hold it. -/
theorem weigh_eq (tier : List (Literal α × Nat)) (counts : Literal α → Bool) :
    weigh tier counts = total tier counts % UInt64.size := by
  rw [weigh, total, List.sum, List.foldr_map]

/-- More literals that count make no total smaller. -/
theorem total_mono {counts counts' : Literal α → Bool} :
    ∀ {tier : List (Literal α × Nat)}, (∀ x ∈ tier, counts x.1 = true → counts' x.1 = true) →
      total tier counts ≤ total tier counts'
  | [], _ => Nat.le_refl _
  | x :: tier, h => by
      have hx := h x (List.mem_cons_self ..)
      have ih := total_mono fun y hy => h y (List.mem_cons_of_mem _ hy)
      simp only [total, List.filter_cons] at ih ⊢
      cases hc : counts x.1 with
      | true =>
          rw [hx hc]
          simpa using ih
      | false =>
          cases counts' x.1
          · simpa using ih
          · simp only [Bool.false_eq_true, if_false, if_true, List.map_cons, List.sum_cons]
            omega

/-- No total is above the sum of all weights. -/
theorem total_le (tier : List (Literal α × Nat)) (counts : Literal α → Bool) :
    total tier counts ≤ (tier.map (·.2)).sum := by
  have h : total tier counts ≤ total tier fun _ => true := total_mono fun _ _ _ => rfl
  simpa [total] using h

/-- Weights that fit a word add up. -/
theorem weigh_of_fits {tier : List (Literal α × Nat)} (h : (tier.map (·.2)).sum < UInt64.size)
    (counts : Literal α → Bool) : weigh tier counts = total tier counts := by
  rw [weigh_eq, Nat.mod_eq_of_lt (Nat.lt_of_le_of_lt (total_le tier counts) h)]

/-- **A tier weighs no less when more of it counts.** -/
theorem weigh_mono {tier : List (Literal α × Nat)} (h : (tier.map (·.2)).sum < UInt64.size)
    {counts counts' : Literal α → Bool} (hc : ∀ x ∈ tier, counts x.1 = true → counts' x.1 = true) :
    weigh tier counts ≤ weigh tier counts' := by
  rw [weigh_of_fits h, weigh_of_fits h]
  exact total_mono hc

/-- A tier weighs the same wherever the same of its literals count. -/
theorem weigh_congr {tier : List (Literal α × Nat)} {counts counts' : Literal α → Bool}
    (hc : ∀ x ∈ tier, counts x.1 = counts' x.1) : weigh tier counts = weigh tier counts' := by
  rw [weigh_eq, weigh_eq, total, total, List.filter_congr hc]

/-- The literals of an objective are those of its tiers. -/
theorem mem_literals {o : Objective α} {l : Literal α} :
    l ∈ o.literals ↔ ∃ tier ∈ o.tiers, ∃ x ∈ tier, x.1 = l := by
  simp only [literals, List.mem_map, List.mem_flatten]
  constructor
  · rintro ⟨x, ⟨tier, ht, hx⟩, rfl⟩
    exact ⟨tier, ht, x, hx, rfl⟩
  · rintro ⟨tier, ht, x, hx, rfl⟩
    exact ⟨x, ⟨tier, ht, hx⟩, rfl⟩

/-! ### Bounds -/

open Search in
/-- **A bound that does not beat a score holds for all that counts no lost literal**, up to
the first tier in which the two differ. -/
theorem not_gt_of_bound {counts counts' : Literal α → Bool} :
    ∀ {tiers : List (List (Literal α × Nat))} {best : List Nat},
      (∀ tier ∈ tiers, (tier.map (·.2)).sum < UInt64.size) →
      (∀ tier ∈ tiers.take (Problem.decisiveTiers (tiers.map (weigh · counts')) best), ∀ x ∈ tier,
        counts x.1 = true → counts' x.1 = true) →
      compareScores (tiers.map (weigh · counts')) best ≠ .gt →
      compareScores (tiers.map (weigh · counts)) best ≠ .gt
  | [], _, _, _, h => h
  | _ :: _, [], _, _, h => absurd rfl h
  | tier :: tiers, b :: best, hfits, hmore, h => by
      have htier := hfits tier (List.mem_cons_self ..)
      have hrest : ∀ tier ∈ tiers, (tier.map (·.2)).sum < UInt64.size := fun t ht =>
        hfits t (List.mem_cons_of_mem _ ht)
      simp only [List.map_cons, compareScores] at h ⊢
      by_cases hb : weigh tier counts' = b
      · have hdec : Problem.decisiveTiers ((tier :: tiers).map (weigh · counts')) (b :: best) =
            Problem.decisiveTiers (tiers.map (weigh · counts')) best + 1 := by
          simp only [Problem.decisiveTiers, List.map_cons, List.zip_cons_cons, List.findIdx?_cons, hb,
            bne_self_eq_false, Bool.false_eq_true, if_false, List.length_cons]
          generalize List.findIdx? _ (List.zip (tiers.map (weigh · counts')) best) = place
          cases place <;> rfl
        rw [hdec, List.take_succ_cons] at hmore
        have hle : weigh tier counts ≤ b := hb ▸ weigh_mono htier (hmore tier (List.mem_cons_self ..))
        have ih := not_gt_of_bound hrest fun t ht => hmore t (List.mem_cons_of_mem _ ht)
        rw [hb, Nat.compare_eq_eq.2 rfl, Ordering.eq_then] at h
        rcases Nat.lt_or_eq_of_le hle with hlt | heq
        · rw [Nat.compare_eq_lt.2 hlt]
          exact Ordering.noConfusion
        · rw [heq, Nat.compare_eq_eq.2 rfl, Ordering.eq_then]
          exact ih h
      · have hdec : Problem.decisiveTiers ((tier :: tiers).map (weigh · counts')) (b :: best) = 1 := by
          simp [Problem.decisiveTiers, List.findIdx?_cons, hb]
        rw [hdec, List.take_succ_cons] at hmore
        have hle := weigh_mono htier (hmore tier (List.mem_cons_self ..))
        have hlt : weigh tier counts' < b := by
          rcases Nat.lt_trichotomy (weigh tier counts') b with hlt | heq | hgt
          · exact hlt
          · exact absurd heq hb
          · rw [Nat.compare_eq_gt.2 hgt] at h
            exact absurd rfl h
        rw [Nat.compare_eq_lt.2 (Nat.lt_of_le_of_lt hle hlt)]
        exact Ordering.noConfusion

/-! ### The order of decisions -/

open Search in
/-- Taking the first literal of every variable leaves out no variable. -/
theorem exists_mem_foldl_wanted (v : Nat) : ∀ (ls wanted : List Lit),
    (∃ x ∈ ls.foldl (fun w x => if w.any (·.atom = x.atom) then w else w ++ [x]) wanted,
      x.atom = v) ↔ ∃ x ∈ wanted ++ ls, x.atom = v
  | [], wanted => by simp
  | x :: ls, wanted => by
      rw [List.foldl_cons, exists_mem_foldl_wanted v ls]
      split
      · rename_i hx
        simp only [List.any_eq_true, decide_eq_true_eq] at hx
        obtain ⟨y, hy, hyx⟩ := hx
        constructor
        · rintro ⟨z, hz, hzv⟩
          refine ⟨z, ?_, hzv⟩
          rw [List.mem_append, List.mem_cons]
          exact (List.mem_append.1 hz).imp_right Or.inr
        · rintro ⟨z, hz, hzv⟩
          rw [List.mem_append, List.mem_cons] at hz
          rcases hz with hz | rfl | hz
          · exact ⟨z, List.mem_append_left _ hz, hzv⟩
          · exact ⟨y, List.mem_append_left _ hy, hyx.trans hzv⟩
          · exact ⟨z, List.mem_append_right _ hz, hzv⟩
      · simp

/-- **Every variable is decided**, and nothing else. -/
theorem exists_mem_decisionOrder {o : Objective Nat} {n : Nat}
    (ho : ∀ l ∈ o.literals, 1 ≤ l.atom ∧ l.atom ≤ n) (v : Nat) :
    (∃ l ∈ o.decisionOrder n, l.atom = v) ↔ 1 ≤ v ∧ v ≤ n := by
  have hwanted := exists_mem_foldl_wanted v o.literals []
  rw [List.nil_append] at hwanted
  simp only [decisionOrder]
  generalize o.literals.foldl _ [] = wanted at hwanted
  constructor
  · rintro ⟨l, hl, rfl⟩
    rcases List.mem_append.1 hl with hl | hl
    · obtain ⟨x, hx, hxl⟩ := hwanted.1 ⟨l, hl, rfl⟩
      exact hxl ▸ ho x hx
    · obtain ⟨w, hw, rfl⟩ := List.mem_map.1 hl
      have := List.mem_range'_1.1 (List.mem_filter.1 hw).1
      simp only [Literal.neg]
      omega
  · rintro ⟨hv, hvn⟩
    by_cases h : ∃ x ∈ wanted, x.atom = v
    · obtain ⟨x, hx, hxv⟩ := h
      exact ⟨x, List.mem_append_left _ hx, hxv⟩
    · refine ⟨.neg v, List.mem_append_right _ (List.mem_map.2 ⟨v, List.mem_filter.2 ⟨?_, ?_⟩, rfl⟩), rfl⟩
      · rw [List.mem_range'_1]
        omega
      · simpa using h

end Objective
end Loadout
