/-
# Bounds spare what is better

The bound of a trail is optimistic: every valuation that makes true what the trail has made true
scores no more (`Trail.score_le_bound`).  A search that cannot beat its best score from here
asks for one of the literals that the trail has cost it, in the tiers up to the first one in which
the bound and the best score differ.

This clause is about more than the branch that is given up, since the search keeps it: every
valuation that scores more than the best one has a literal of it true, wherever it parts from the
trail (`Problem.exists_lost`).  A score that is better still is beaten by fewer valuations, so the
clause holds for good (`Problem.MetByBetter.improve`).  What the best score is does not matter, and
that it is the score of a model least of all, so it stands here for itself
(`Problem.boundClause`).
-/

import Loadout.Proofs.Search.Optimize

namespace Loadout
namespace Search

variable {p : Problem} {t : Trail Trail.unbounded} {c : Clause} {best later : List Nat}

/-- A literal is true where its opposite is false. -/
theorem Trail.isTrue_flip (t : Trail Trail.unbounded) (l : Lit) :
    t.isTrue l.flip = t.isFalse l := by
  rw [isTrue, isFalse, value?_eq, value?_eq, Literal.flip_atom]
  cases t.find? l.atom with
  | none => rfl
  | some e => cases e.literal.positive <;> cases hl : l.positive <;> simp [Literal.flip, hl]

/-- **Bounds are optimistic**: no valuation that agrees with a trail scores more. -/
theorem Trail.score_le_bound (t : Trail Trail.unbounded) {o : Objective Nat} (hfits : o.Fits)
    {val : Nat → Bool} (hval : ∀ l, t.isTrue l = true → l.holds val = true) :
    Objective.compareScores (o.score val) (o.bound t) ≠ .gt := by
  refine Objective.not_gt_of_bound hfits (fun tier _ x _ hx => ?_)
    (by rw [Objective.bound, Objective.compareScores_self]; decide)
  -- a literal that the trail has made false does not hold
  rw [Bool.not_eq_true', ← Bool.not_eq_true, ← t.isTrue_flip]
  intro hflip
  have hnot := hval x.1.flip hflip
  rw [Literal.holds_flip, hx] at hnot
  exact absurd hnot (by decide)

/-- **The clause that a trail runs into when it cannot beat a score**, if it cannot. -/
def Problem.boundClause (p : Problem) (t : Trail Trail.unbounded) (best : List Nat) :
    Option Clause :=
  if Objective.compareScores (p.objective.bound t) best = .gt then none
  else some (p.lostLiterals t (Problem.decisiveTiers (p.objective.bound t) best))

/-- A search looks at the score of its best model. -/
theorem Problem.boundConflict_eq (p : Problem) (s : State) :
    p.boundConflict s = s.best?.bind fun m => p.boundClause s.trail (p.score m) := rfl

/-- Every valuation that scores more makes a literal of the clause true. -/
def Problem.MetByBetter (p : Problem) (c : Clause) (best : List Nat) : Prop :=
  ∀ val : Nat → Bool, Objective.compareScores (p.objective.score val) best = .gt →
    ∃ l ∈ c, l.holds val = true

/-- **A better score takes nothing back**: what beats it beats the old one. -/
theorem Problem.MetByBetter.improve (h : p.MetByBetter c best)
    (hlater : Objective.compareScores later best = .gt) : p.MetByBetter c later := by
  intro val hval
  refine h val ?_
  rw [Objective.compareScores_eq_compare] at hval hlater ⊢
  exact Std.TransCmp.gt_trans hval hlater

/-- The clause of the bound is that of the decisive tiers, and the bound does not beat the best. -/
theorem Problem.boundClause_eq_some (h : p.boundClause t best = some c) :
    Objective.compareScores (p.objective.bound t) best ≠ .gt ∧
      p.lostLiterals t (Problem.decisiveTiers (p.objective.bound t) best) = c := by
  rw [boundClause] at h
  split at h
  · simp at h
  · rename_i hbound
    exact ⟨hbound, Option.some.inj h⟩

/-- There is no clause just where the bound beats the best. -/
theorem Problem.boundClause_eq_none_iff : p.boundClause t best = none ↔
    Objective.compareScores (p.objective.bound t) best = .gt := by
  rw [boundClause]
  split <;> simp_all

/-- **Conflicts of the bound never exclude an improvement.**  A search asks for the clause of its
trail and the score of its best model.  Whatever the trail has assigned, and whatever the score is,
the literals of such a clause are false, and every valuation that scores more, whether or not it
agrees with the trail, makes one of them true; so does every valuation that scores more than a
later score that is better.  There is no clause just where the bound beats the score, and the bound
is one that no valuation beats which agrees with the trail. -/
theorem Problem.bound_conflicts_spare_better (hfits : p.objective.Fits) :
    (∀ s, p.boundConflict s = s.best?.bind fun m => p.boundClause s.trail (p.score m)) ∧
    ∀ (t : Trail Trail.unbounded) (best : List Nat),
      (∀ c, p.boundClause t best = some c → (∀ l ∈ c, t.isFalse l = true) ∧
        p.MetByBetter c best ∧
        ∀ later, Objective.compareScores later best = .gt → p.MetByBetter c later) ∧
      (p.boundClause t best = none ↔
        Objective.compareScores (p.objective.bound t) best = .gt) ∧
      ∀ val : Nat → Bool, (∀ l, t.isTrue l = true → l.holds val = true) →
        Objective.compareScores (p.objective.score val) (p.objective.bound t) ≠ .gt := by
  refine ⟨p.boundConflict_eq, fun t best => ⟨fun c hc => ?_, boundClause_eq_none_iff,
    fun val => t.score_le_bound hfits⟩⟩
  obtain ⟨hbound, rfl⟩ := boundClause_eq_some hc
  have hmet : p.MetByBetter (p.lostLiterals t (decisiveTiers (p.objective.bound t) best)) best :=
    fun _ => exists_lost hfits hbound
  exact ⟨fun _ hl => (List.mem_filter.1 hl).2, hmet, fun _ => hmet.improve⟩

/-- A wish that stands in two tiers, beside its opposite and beside another one. -/
def torn : Problem where
  rules := .empty
  variableCount := 3
  objective := ⟨[[(.pos 1, 1), (.neg 1, 1)], [(.pos 2, 2), (.pos 2, 1), (.pos 1, 1)],
    [(.pos 3, 4)]]⟩

/-- The tier that decides is the second one, and the third one does not come into the clause. -/
theorem bound_conflicts_spare_better_torn : torn.objective.Fits ∧
    ∃ t : Trail Trail.unbounded, t.isFalse (.pos 3) = true ∧ torn.objective.bound t = [1, 3, 0] ∧
      torn.boundClause t [1, 4, 0] = some [.pos 1, .pos 1] ∧
      torn.MetByBetter [.pos 1, .pos 1] [1, 4, 0] ∧ torn.MetByBetter [.pos 1, .pos 1] [1, 4, 3] := by
  have hfits : torn.objective.Fits := by decide +kernel
  have hclause : torn.boundClause ⟨[⟨.neg 3, 2, none⟩, ⟨.neg 1, 1, none⟩], 2⟩ [1, 4, 0] =
      some [.pos 1, .pos 1] := by decide +kernel
  obtain ⟨-, hspare⟩ := Problem.bound_conflicts_spare_better hfits
  obtain ⟨-, hmet, hlater⟩ := (hspare _ _).1 _ hclause
  exact ⟨hfits, _, by decide +kernel, by decide +kernel, hclause, hmet, hlater _ (by decide)⟩

end Search
end Loadout
