/-
# Propagation comes to rest

Only watched literals are looked at, watches move, and going back on the trail repairs none of
them.  What makes up for this is that every assignment is settled when propagation ends without
a conflict (`State.Quiet`): a rule whose watched literal is false has its other one true, at that
level or below, so that going back takes both away.  A rule is then told by the two literals that
it watches: one of them is true, or both are open (`State.Quiet.pair_cases`, `State.Quiet.atRest`).

A conflict is found while an assignment of the present level is looked at, and has that literal
among its own (`Problem.Propagates`).
-/

import Loadout.Proofs.Search.Termination

namespace Loadout
namespace Search

variable {p : Problem} {s s' : State} {deadline : Deadline}

/-- **No rule asks for anything**: of an ordinary rule a literal is true, or two are open; and
where one of the literals that an at-most-one rule negates is true, all the others are false. -/
structure State.AtRest (s : State) : Prop where
  ordinary : ∀ r ∈ s.rules.toList, r.isAtMostOne = false →
    (∃ l ∈ r.literals, s.trail.isTrue l = true) ∨
      ∃ a ∈ r.literals, ∃ b ∈ r.literals, a ≠ b ∧
        s.trail.isOpen a.atom = true ∧ s.trail.isOpen b.atom = true
  atMostOne : ∀ r ∈ s.rules.toList, r.isAtMostOne = true →
    ∀ l ∈ r.literals, s.trail.isTrue l.flip = true →
      ∀ l' ∈ r.literals, l' ≠ l → s.trail.isFalse l'.flip = true

/-- **A rule that watches a pair** has one of the two true, or both are open. -/
theorem State.Quiet.pair_cases (hq : s.Quiet) {id : Nat} {a b : Lit}
    (hpair : s.graph.pair? id = some (a, b)) :
    Assigns s.trail.entries a ∨ Assigns s.trail.entries b ∨
      (s.trail.isOpen a.atom = true ∧ s.trail.isOpen b.atom = true) := by
  rcases s.trail.isOpen_or_assigns a with hao | hat | haf
  · rcases s.trail.isOpen_or_assigns b with hbo | hbt | hbf
    · exact Or.inr (Or.inr ⟨hao, hbo⟩)
    · exact Or.inr (Or.inl hbt)
    · obtain ⟨k, hobeyed⟩ := hq.obeyed hbf id
      exact Or.inl ((hobeyed.partner a b hpair).2 rfl).assigns
  · exact Or.inl hat
  · obtain ⟨k, hobeyed⟩ := hq.obeyed haf id
    exact Or.inr (Or.inl ((hobeyed.partner a b hpair).1 rfl).assigns)

/-- **A quiet state is at rest.** -/
theorem State.Quiet.atRest (hq : s.Quiet) (hs : s.Sound p) : s.AtRest where
  ordinary := by
    intro r hr hk
    have htrue : ∀ l, Assigns s.trail.entries l → s.trail.isTrue l = true := fun l =>
      hs.trail.distinct.isTrue_iff.2
    by_cases hlong : 2 ≤ r.literals.length
    · obtain ⟨id, hid⟩ := RuleSet.exists_get?_of_mem hr
      obtain ⟨a, b, hpair, hab, ha, hb, -⟩ := hs.covers.pair id r hid hk hlong
      rcases hq.pair_cases hpair with hat | hbt | ⟨hao, hbo⟩
      · exact Or.inl ⟨a, ha, htrue a hat⟩
      · exact Or.inl ⟨b, hb, htrue b hbt⟩
      · exact Or.inr ⟨a, ha, b, hb, hab, hao, hbo⟩
    · -- a rule of one literal is watched by nothing, and was made true at the start
      have hpos := List.length_pos_iff.2 (hs.inhabited r hr)
      obtain ⟨l, hl⟩ := List.length_eq_one_iff.1 (by omega : r.literals.length = 1)
      exact Or.inl ⟨l, by simp [hl], htrue l (hs.units r hr l hl).assigns⟩
  atMostOne := by
    intro r hr hk l hl htrue l' hl' hne
    obtain ⟨id, hid⟩ := RuleSet.exists_get?_of_mem hr
    obtain ⟨k, hobeyed⟩ := hq.obeyed (hs.trail.distinct.isTrue_iff.1 htrue) id
    rw [hs.trail.distinct.isFalse_iff, Literal.flip_flip]
    exact (hobeyed.excluded r hid hk hl l' hl' hne).assigns

/-- **A conflict of a rule**: a false clause that one rule asks for, with a literal that was
assigned at the present level. -/
structure State.Conflicts (s : State) (c : Clause) : Prop where
  falsified : ∀ l ∈ c, s.trail.isFalse l = true
  yields : s.rules.Yields c
  present : ∃ l ∈ c, s.trail.isFalse l = true ∧ s.trail.levelOf l.atom = s.trail.level

/-- **Propagation comes to rest or to a conflict.**  Whenever a search propagates, the rules stay,
those of the problem among them, and either no conflict is found and no rule asks for anything,
or the clause that is found is false, follows from one rule, and has a literal of the present
level. -/
theorem Problem.propagation_reaches_fixpoint (hp : p.WellFormed) (hr : p.Reached deadline s)
    {c? : Option Clause} (h : p.propagate { s with steps := s.steps + 1 } = (s', c?)) :
    s'.rules = s.rules ∧ p.rules.Grows s'.rules ∧ (c? = none → s'.AtRest) ∧
      ∀ c, c? = some c → s'.Conflicts c := by
  have hprop := ((hr.valid hp).tick (s.steps + 1)).propagate h
  have hdistinct := hprop.sound.trail.distinct
  refine ⟨by rw [hprop.frame], hprop.sound.grows, fun hc => (hprop.quiet hc).atRest hprop.sound,
    fun c hc => ?_⟩
  obtain ⟨hfalse, hyields⟩ := hprop.conflict c hc
  have hisFalse : ∀ l ∈ c, s'.trail.isFalse l = true := fun l hl =>
    hdistinct.isFalse_iff.2 (hfalse l hl)
  obtain ⟨e, he, hlevel, hec⟩ := hprop.fresh c hc
  refine ⟨hisFalse, hyields, e.literal.flip, hec, hisFalse _ hec, ?_⟩
  rw [hdistinct.levelOf_of_flip he (Literal.flip_flip _).symm, hlevel]

/-- Two wishes together need a third thing and rule it out. -/
def crossed : Problem where
  rules := .ofList [.of [.neg 1, .neg 2, .pos 3] .depends, .of [.neg 1, .neg 2, .neg 3] .breaks]
  variableCount := 3
  objective := ⟨[[(.pos 1, 1), (.pos 2, 1)]]⟩

/-- The rules of `crossed` have distinct literals of its variables. -/
theorem crossed_wellFormed : crossed.WellFormed where
  inRange := by
    have h : ∀ r ∈ crossed.rules.toList, r.literals.Nodup ∧
        ∀ l ∈ r.literals, 1 ≤ l.atom ∧ l.atom ≤ 3 := by decide +kernel
    exact fun r hr => ⟨(h r hr).1, (h r hr).2⟩
  objective := by decide

/-- The first wish leaves all at rest, and the second one is a conflict. -/
theorem propagation_reaches_fixpoint_crossed :
    (∃ s s', crossed.Reached .never s ∧
      crossed.propagate { s with steps := s.steps + 1 } = (s', none) ∧ s'.AtRest) ∧
    ∃ s s' c, crossed.Reached .never s ∧
      crossed.propagate { s with steps := s.steps + 1 } = (s', some c) ∧ s'.Conflicts c := by
  obtain ⟨s₁, hr₁, hrest⟩ : ∃ s, crossed.Reached .never s ∧
      (crossed.propagate { s with steps := s.steps + 1 }).2.isNone = true :=
    Problem.exists_reached 1 (by decide +kernel)
  obtain ⟨s₂, hr₂, hconflict⟩ : ∃ s, crossed.Reached .never s ∧
      (crossed.propagate { s with steps := s.steps + 1 }).2.isSome = true :=
    Problem.exists_reached 2 (by decide +kernel)
  rcases hp₁ : crossed.propagate { s₁ with steps := s₁.steps + 1 } with ⟨s₁', _ | c⟩
  · rcases hp₂ : crossed.propagate { s₂ with steps := s₂.steps + 1 } with ⟨s₂', _ | c⟩
    · simp [hp₂] at hconflict
    · obtain ⟨-, -, hnone, -⟩ := Problem.propagation_reaches_fixpoint crossed_wellFormed hr₁ hp₁
      obtain ⟨-, -, -, hsome⟩ := Problem.propagation_reaches_fixpoint crossed_wellFormed hr₂ hp₂
      exact ⟨⟨s₁, s₁', hr₁, hp₁, hnone rfl⟩, s₂, s₂', c, hr₂, hp₂, hsome c rfl⟩
  · simp [hp₁] at hrest

end Search
end Loadout
