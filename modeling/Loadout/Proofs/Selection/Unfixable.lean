/-
# When there is no fix

Failures are analyzed in two searches, one after the other: for dependencies to blame, and then
for changes to the mods.  The second one is exact, a fix comes back just where some changes
meet the rules (`Solver.fix_eq_none_iff`).  But it only takes place where the first one finds
something.  What contradicts itself without any dependency, such as two roots with a common
alias, has no explanation (`Solver.explanations_eq_nil_iff`) and therefore no fix, even where
the removal of a root would do.

Choices that explain a failure always waive something, since with nothing waived they would
have been found when solving (`Solver.metBy_select`).
-/

import Loadout.Proofs.Selection.Barred
import Loadout.Proofs.Selection.Exceptions
import Loadout.Proofs.Selection.Explain

namespace Loadout
namespace Solver

variable {s : Solver} {f : Failure} {made : List Choice}

/-- **Choices that waive nothing would do when solving**, since the same candidates are barred. -/
theorem metBy_select (h : (s.posed .explain).Grounded) (ho : s.order.Nodup)
    (hbest : s.best .explain = .ok (some made)) (hnone : made.filterMap Choice.waived? = []) :
    (s.encode .select).rules.MetBy (Instance.plain made.contains) := by
  have hselect : (s.posed .select).Exact := ⟨h.indexed, h.order⟩
  obtain ⟨hobeys, hbarred⟩ := (h.toExact.metBy_iff ho).1 (metBy_of_best hbest)
  refine (hselect.metBy_iff ho).2 ⟨hobeys.plain_contains (fun c hc => ?_) .select, hbarred⟩
  rw [← Bool.not_eq_true]
  intro hexception
  rcases (h.occurs (known_of_best hbest c hc)).isException_cases hexception with
    ⟨-, source, index, rfl⟩ | ⟨hrepair, -⟩
  · exact absurd (hnone ▸ Choice.mem_waived.2 hc) List.not_mem_nil
  · exact absurd hrepair Bool.false_ne_true

/-- **Nothing is explained** just where the rules cannot be met with all dependencies waived. -/
theorem explanations_eq_nil_iff (hground : (s.posed .explain).Grounded) (ho : s.order.Nodup)
    (h : s.solve = .ok (.failure f)) :
    f.explanations = [] ↔ ∀ w, ¬(s.encode .explain).rules.MetBy w := by
  obtain ⟨hselect, hanalyze⟩ := solve_eq_failure_iff.1 h
  rcases analyze_cases hanalyze with ⟨hbest, rfl⟩ | ⟨made, hbest, hexplanations, -⟩
  · exact iff_of_true rfl (not_metBy_of_best hbest)
  · refine iff_of_false (fun hempty => ?_) fun hnone => hnone _ (metBy_of_best hbest)
    have hlength := length_explanations hground (known_of_best hbest)
    rw [← hexplanations, hempty, List.length_nil] at hlength
    exact not_metBy_of_best hselect _
      (metBy_select hground ho hbest (List.length_eq_zero_iff.1 hlength.symm))

/-- **The search for a fix is exact.** -/
theorem fix_eq_none_iff {explained : List Choice} {standIns : List StandIn} {fix? : Option Fix}
    (h : s.fix explained standIns = .ok fix?) :
    fix? = none ↔ ∀ w, ¬(s.encode (.repair standIns)).rules.MetBy w := by
  rw [fix] at h
  cases hbest : s.best (.repair standIns) with
  | error e => simp [hbest, bind, Except.bind] at h
  | ok made? =>
      rw [hbest] at h
      obtain rfl := Except.ok.inj h
      cases made? with
      | none => exact iff_of_true rfl (not_metBy_of_best hbest)
      | some made => exact iff_of_false (by simp) fun hnone => hnone _ (metBy_of_best hbest)

/-- **There is no fix where nothing is explained, and else just where no changes help.**  The
failure of a store of inserts has no explanation just where the rules cannot be met although
every dependency may be waived, and then it has no fix, whether changes would help or not.
With explanations it has none just where the rules cannot be met by removing roots and adding
the mods that the explanations ask for. -/
theorem no_fix_iff (hs : s.store.Prepared) (ho : s.order.Perm s.store.ids)
    (h : s.solve = .ok (.failure f)) :
    (f.explanations = [] ↔ ∀ w, ¬(s.encode .explain).rules.MetBy w) ∧
    (f.fix? = none ↔ f.explanations = [] ∨
      ∀ w, ¬(s.encode (.repair (StandIn.synthesize (missing f.explanations)))).rules.MetBy w) := by
  have hground := grounded_posed hs.indexed hs.ranked ho .explain
  have hnodup : s.order.Nodup := ho.nodup_iff.2 hs.indexed.nodup
  have hempty := explanations_eq_nil_iff hground hnodup h
  refine ⟨hempty, ?_⟩
  obtain ⟨-, hanalyze⟩ := solve_eq_failure_iff.1 h
  rcases analyze_cases hanalyze with ⟨-, rfl⟩ | ⟨made, hbest, -, hfix⟩
  · exact iff_of_true rfl (Or.inl rfl)
  · have hne : f.explanations ≠ [] := fun hnil => hempty.1 hnil _ (metBy_of_best hbest)
    rw [fix_eq_none_iff hfix, or_iff_right hne]

/-- Two roots have an alias in common. -/
def commonAlias : Store :=
  [found { id := "alpha", version := versionOne, provides := ["api"] } none,
    found { id := "beta", version := versionOne, provides := ["api"] } none].foldl
      Store.inserted .empty

/-- The store of `commonAlias` is built by inserting. -/
theorem commonAlias_built : commonAlias.Built := Store.Built.empty.foldl _

/-- The explanation of `commonAlias` has no model, so there is no fix; but choices that remove a
root obey the repair. -/
theorem no_fix_iff_commonAlias : ∃ f,
    (Solver.mk commonAlias [0, 1] [] .never).solve = .ok (.failure f) ∧
      (∀ w, ¬((Solver.mk commonAlias [0, 1] [] .never).encode .explain).rules.MetBy w) ∧
      f.fix? = none ∧
      ∃ w, ((Solver.mk commonAlias [0, 1] [] .never).encode
        (.repair (StandIn.synthesize (missing f.explanations)))).rules.MetBy w := by
  have hsolve : (Solver.mk commonAlias [0, 1] [] .never).solve = .ok (.failure ⟨[], none⟩) := by
    decide +kernel
  have horder : [0, 1].Perm commonAlias.ids := by decide +kernel
  obtain ⟨hexplain, hfix⟩ := no_fix_iff (.built commonAlias_built) horder hsolve
  -- without the second root the rules are met
  have hremoved : ((Solver.mk commonAlias [0, 1] [] .never).encode (.repair [])).rules.MetBy
      [Choice.candidate 0, .removed 1].contains := ⟨by decide +kernel, by decide +kernel⟩
  exact ⟨_, hsolve, hexplain.1 rfl, hfix.2 (Or.inl rfl), _, hremoved⟩

end Solver
end Loadout
