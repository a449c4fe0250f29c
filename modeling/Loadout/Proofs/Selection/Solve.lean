/-
# What solving promises

Solving succeeds with what the best model of the instance for selecting selects
(`Solver.solve_eq_success_iff`), so a successful selection is consistent whatever the
deadline.  Where no group lists a member twice and the recommended targets can be counted in
a word, solving finds a selection when there is a consistent one, and prefers what it finds
to every other one.

Only the deadline keeps solving from an end, with a selection or with a failure
(`Solver.up_of_solve_eq_error`).
-/

import Loadout.Proofs.Priority.Order
import Loadout.Proofs.Selection.Best
import Mathlib.Data.List.Permutation

namespace Loadout

namespace Solver

variable {s : Solver} {selection : List CandidateId}

/-- What solving selects from. -/
def choice (s : Solver) : Instance := ⟨s.store, s.order, s.preselected, .select⟩

/-- The choices that a model of the numbered rules makes. -/
def made (s : Solver) (m : Search.Model) : Choice → Bool := m.value ∘ s.choice.encode.number

/-- Solving is about the candidates of a store with an exact index. -/
theorem plain_choice (hindexed : s.store.Indexed) (hranked : s.store.Ranked)
    (ho : s.order.Perm s.store.ids) (hp : ∀ id ∈ s.preselected, id ∈ s.store.ids) :
    s.choice.Plain where
  indexed := hindexed
  order := fun _ => ho.mem_iff
  parents := fun c hc p hpc => by
    obtain ⟨rank, hrank⟩ := hranked
    exact (hrank c hc p hpc).1
  preselected := hp
  purpose := rfl

/-- The selection of a model. -/
theorem selection_decode (s : Solver) (m : Search.Model) :
    s.selection (s.choice.encode.decode m) = s.choice.chosen (s.made m) := by
  refine List.filter_congr fun id hid => ?_
  have hmem := s.choice.closed_encode.mem_decode_iff (m := m) (c := .candidate id)
  rw [isSelected, List.contains_eq_mem, Bool.eq_iff_iff, decide_eq_true_eq, hmem]
  exact and_iff_right (Instance.candidate_mem_choices hid)

/-! ### How solving ends -/

/-- Selecting is a search of the optimizer for what solving selects from. -/
theorem best_select (s : Solver) : s.best .select =
    match s.choice.encode.problem.optimize s.deadline with
    | .infeasible => .ok none
    | .best m => .ok (some (s.choice.encode.decode m))
    | .interrupted => .error .timedOut := rfl

/-- **Solving succeeds with the selection of the best model**; the analysis of a failure gives
no selection. -/
theorem solve_eq_success_iff : s.solve = .ok (.success selection) ↔
    ∃ m, s.choice.encode.problem.optimize s.deadline = .best m ∧
      selection = s.choice.chosen (s.made m) := by
  rw [solve, best_select]
  cases s.choice.encode.problem.optimize s.deadline with
  | infeasible =>
      cases hfailure : s.analyze with
      | error e => simp [bind, Except.bind]
      | ok f => simp [bind, Except.bind, pure, Except.pure]
  | best m => simp [bind, Except.bind, pure, Except.pure, s.selection_decode m, eq_comm]
  | interrupted => simp [bind, Except.bind]

/-- The best choices are what is selected. -/
theorem solve_of_best {made : List Choice} (h : s.best .select = .ok (some made)) :
    s.solve = .ok (.success (s.selection made)) := by
  rw [solve, h]
  rfl

/-- A search that was interrupted is out of time. -/
theorem solve_of_interrupted (h : s.choice.encode.problem.optimize s.deadline = .interrupted) :
    s.solve = .error .timedOut := by
  rw [solve, best_select, h]
  rfl

/-- A search for some purpose is interrupted by the deadline alone. -/
theorem up_of_best_eq_error {purpose : Purpose} {e : TimedOut} (h : s.best purpose = .error e) :
    ∃ k, s.deadline k = true := by
  have hwf := (Instance.mk s.store s.order s.preselected purpose).closed_encode.wellFormed
  rw [best] at h
  cases hres : (s.encode purpose).problem.optimize s.deadline with
  | infeasible => simp [hres] at h
  | best m => simp [hres] at h
  | interrupted => exact Search.Problem.up_of_interrupted hwf hres

/-- **So is the analysis of a failure**, as all of its searches share the deadline. -/
theorem up_of_analyze_eq_error {e : TimedOut} (h : s.analyze = .error e) :
    ∃ k, s.deadline k = true := by
  rw [analyze] at h
  cases hexplain : s.best .explain with
  | error _ => exact up_of_best_eq_error hexplain
  | ok made? =>
      rw [hexplain] at h
      cases made? with
      | none => exact absurd h (by simp [bind, Except.bind, pure, Except.pure])
      | some made =>
          simp only [bind, Except.bind, fix] at h
          generalize StandIn.synthesize _ = standIns at h
          cases hrepair : s.best (.repair standIns) with
          | error _ => exact up_of_best_eq_error hrepair
          | ok _ =>
              rw [hrepair] at h
              exact absurd h (by simp [pure, Except.pure])

/-- **Solving comes to an end while time is not up.** -/
theorem up_of_solve_eq_error {e : TimedOut} (h : s.solve = .error e) : ∃ k, s.deadline k = true := by
  rw [solve] at h
  cases hselect : s.best .select with
  | error _ => exact up_of_best_eq_error hselect
  | ok made? =>
      rw [hselect] at h
      cases made? with
      | some made => exact absurd h (by simp [bind, Except.bind, pure, Except.pure])
      | none =>
          simp only [bind, Except.bind] at h
          cases hanalyze : s.analyze with
          | error _ => exact up_of_analyze_eq_error hanalyze
          | ok _ =>
              rw [hanalyze] at h
              exact absurd h (by simp [pure, Except.pure])

/-! ### What a successful selection is -/

/-- **A model of the numbered rules selects a consistent set** and heeds recommendations. -/
theorem consistent_made (h : s.choice.Plain) {m : Search.Model}
    (hm : s.choice.encode.problem.optimize s.deadline = .best m) :
    s.store.Consistent s.preselected (s.choice.chosen (s.made m)) ∧ s.choice.Heeds (s.made m) :=
  h.obeys_iff.1 (h.grounded.obeys_of_optimize hm)

/-- **The valuation of a consistent selection does not beat the best model.** -/
theorem not_beaten (h : s.choice.Plain) (ho : s.order.Nodup)
    (hg : ∀ g ∈ s.store.groups, g.members.Nodup) (hfits : s.choice.targets.length < UInt64.size)
    {other : List CandidateId} (hother : s.store.Consistent s.preselected other) :
    match s.choice.encode.problem.optimize s.deadline with
    | .infeasible => False
    | .best m => Objective.compareScores
        (s.choice.encode.objective.score (Instance.ofSelection s.store other))
        (s.choice.encode.objective.score (s.made m)) ≠ .gt
    | .interrupted => True :=
  have hfits := h.grounded.fits hfits (fun he => absurd (h.purpose.symm.trans he) (by simp))
    fun hr => absurd (h.isRepair_eq.symm.trans hr) Bool.false_ne_true
  h.grounded.optimize_spec ho hg hfits s.deadline (h.grounded.holds_iff.1 (h.holds_ofSelection hother))

/-! ### What solving promises -/

/-- **Every successful selection is consistent** and carried by roots: dependencies are met,
breaks are respected, nothing is provided twice, what must be loaded is, and what was asked
for is selected.  The order is that of preference; the deadline does not matter. -/
theorem solve_consistent (hs : s.store.Prepared) (ho : s.order = s.store.preferenceOrder)
    (hp : ∀ id ∈ s.preselected, id ∈ s.store.ids) (h : s.solve = .ok (.success selection)) :
    s.store.Consistent s.preselected selection ∧
      ∀ id ∈ selection, s.store.Rooted selection id := by
  have hperm : s.order.Perm s.store.ids := by
    rw [ho]
    exact s.store.preferenceOrder_perm
  have hplain := plain_choice hs.indexed hs.ranked hperm hp
  obtain ⟨m, hm, rfl⟩ := solve_eq_success_iff.1 h
  obtain ⟨hconsistent, -⟩ := consistent_made hplain hm
  exact ⟨hconsistent, hconsistent.rooted hs.ranked⟩

/-- The version of all mods of an example. -/
def versionOne : Version := .semantic (.ofComponents [1])

/-- A mod as it is found in a directory of its name, or inside another one. -/
def found (d : Descriptor) (parent? : Option CandidateId) : NewCandidate :=
  { descriptor := d, location := .directory d.id, parent?, remap := false }

/-- A mod needs what both an archive inside it and another mod provide; the archive would like
documentation, which nothing else asks for. -/
def rivalProviders : Store :=
  [found { id := "app", version := versionOne, dependencies := [⟨.depends, "api", .any⟩] } none,
    found { id := "lib", version := versionOne, provides := ["api"],
            dependencies := [⟨.recommends, "docs", .any⟩] } (some 0),
    found { id := "api", version := versionOne, load? := some .ifPossible } none,
    found { id := "docs", version := versionOne, load? := some .ifRecommended } none].foldl
      Store.inserted .empty

/-- The store of `rivalProviders` is built by inserting. -/
theorem rivalProviders_built : rivalProviders.Built := Store.Built.empty.foldl _

/-- Where one of the two providers is asked for, a consistent selection is found with roots all
through. -/
theorem solve_consistent_rivalProviders : ∃ selection,
    (Solver.mk rivalProviders rivalProviders.preferenceOrder [2] .never).solve =
      .ok (.success selection) ∧
    rivalProviders.Consistent [2] selection ∧
    ∀ id ∈ selection, rivalProviders.Rooted selection id := by
  have hids : rivalProviders.ids = [0, 1, 2, 3] := by decide +kernel
  have hperm := rivalProviders.preferenceOrder_perm
  rw [hids] at hperm
  -- solving succeeds whatever the order
  have hall : ∀ order ∈ ([0, 1, 2, 3] : List CandidateId).permutations',
      ((Solver.mk rivalProviders order [2] .never).best .select).toOption.join.isSome = true := by
    decide +kernel
  have hfound := hall _ (List.mem_permutations'.2 hperm)
  cases hbest : (Solver.mk rivalProviders rivalProviders.preferenceOrder [2] .never).best .select with
  | error e =>
      rw [hbest] at hfound
      exact absurd hfound Bool.false_ne_true
  | ok made? =>
      rw [hbest] at hfound
      obtain ⟨made, rfl⟩ := Option.isSome_iff_exists.1 hfound
      have h := solve_of_best hbest
      exact ⟨_, h, solve_consistent (.built rivalProviders_built) rfl (by decide +kernel) h⟩

/-- **Solving finds a selection when there is a consistent one, and what it finds is the only
best one.**  Nothing but the deadline keeps it from an end.  The recommended targets have to
fit a word, as they do on every machine. -/
theorem solve_is_best (hs : s.store.Prepared) (hg : ∀ g ∈ s.store.groups, g.members.Nodup)
    (ho : s.order.Perm s.store.ids) (hp : ∀ id ∈ s.preselected, id ∈ s.store.ids)
    (hfits : s.store.recommended.length < UInt64.size) :
    (s.solve = .error .timedOut → ∃ k, s.deadline k = true) ∧
      (s.solve ≠ .error .timedOut →
        ((∃ selection, s.solve = .ok (.success selection)) ↔
          ∃ other, s.store.Consistent s.preselected other) ∧
        ∀ selection, s.solve = .ok (.success selection) →
          s.store.Consistent s.preselected selection ∧
          ∀ other, s.store.Consistent s.preselected other →
            ¬(∀ id, id ∈ selection ↔ id ∈ other) → s.store.Prefers s.order selection other) := by
  have hplain := plain_choice hs.indexed hs.ranked ho hp
  have hnodup : s.order.Nodup := ho.nodup_iff.2 hs.indexed.nodup
  have htargets : s.choice.targets.length < UInt64.size := by
    rw [hplain.targets_perm.length_eq]
    exact hfits
  refine ⟨up_of_solve_eq_error, fun htime => ⟨⟨?_, ?_⟩, ?_⟩⟩
  · rintro ⟨selection, h⟩
    obtain ⟨m, hm, rfl⟩ := solve_eq_success_iff.1 h
    exact ⟨_, (consistent_made hplain hm).1⟩
  · rintro ⟨other, hother⟩
    have hspec := not_beaten hplain hnodup hg htargets hother
    cases hres : s.choice.encode.problem.optimize s.deadline with
    | infeasible => exact absurd hspec (by simp [hres])
    | best m => exact ⟨_, solve_eq_success_iff.2 ⟨m, hres, rfl⟩⟩
    | interrupted => exact absurd (solve_of_interrupted hres) htime
  · intro selection h
    obtain ⟨m, hm, rfl⟩ := solve_eq_success_iff.1 h
    obtain ⟨hconsistent, hheeds⟩ := consistent_made hplain hm
    refine ⟨hconsistent, fun other hother hne => ?_⟩
    have hspec := not_beaten hplain hnodup hg htargets hother
    rw [hm] at hspec
    exact hplain.prefers htargets hheeds hother.known hne hspec

/-- The provider that is first in the order is selected and not the archive, and every other
consistent selection comes after that. -/
theorem solve_is_best_rivalProviders :
    (Solver.mk rivalProviders [2, 0, 3, 1] [] .never).solve = .ok (.success [2, 0]) ∧
      ∀ other, rivalProviders.Consistent [] other → ¬(∀ id, id ∈ [2, 0] ↔ id ∈ other) →
        rivalProviders.Prefers [2, 0, 3, 1] [2, 0] other := by
  have hsolve : (Solver.mk rivalProviders [2, 0, 3, 1] [] .never).solve = .ok (.success [2, 0]) := by
    decide +kernel
  have hgroups : ∀ g ∈ rivalProviders.groups, g.members.Nodup := by decide +kernel
  have horder : [2, 0, 3, 1].Perm rivalProviders.ids := by decide +kernel
  have hfits : rivalProviders.recommended.length < UInt64.size := by decide +kernel
  have hbest := (solve_is_best (s := ⟨rivalProviders, [2, 0, 3, 1], [], .never⟩)
    (.built rivalProviders_built) hgroups horder (fun _ h => absurd h List.not_mem_nil) hfits).2 (by rw [hsolve]; simp)
  exact ⟨hsolve, (hbest.2 _ hsolve).2⟩

end Solver
end Loadout
