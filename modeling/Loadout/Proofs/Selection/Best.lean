/-
# The best choices

Whatever the store is like, what a search finds meets the rules as the search reads them, and
where it finds nothing they cannot be met (`Solver.metBy_of_best`, `Solver.not_metBy_of_best`).

The model that the search finds obeys the instance, and no valuation that obeys it scores
more; where the search finds none, nothing obeys the instance
(`Instance.Grounded.optimize_spec`).  What is read off a model are the choices that it makes,
each once, and they decide the valuation (`Instance.Best`, `Solver.best_spec`).

Instances that explain or repair want above all that certain choices are not made.  So the
best choices spend least on these (`Instance.Best.spent_le`), and none of them can be left
out (`Instance.Best.not_obeys_without`).
-/

import Loadout.Proofs.Selection.Preference
import Loadout.Selection.Solve

namespace Loadout

/-- The first tier comes before all else. -/
theorem Objective.le_of_compareScores {a b : Nat} {as bs : List Nat}
    (h : compareScores (a :: as) (b :: bs) ≠ .gt) : a ≤ b := by
  rw [compareScores] at h
  by_contra hlt
  rw [Nat.compare_eq_gt.2 (Nat.lt_of_not_le hlt)] at h
  exact h rfl

/-- A model makes every choice once. -/
theorem Encoding.Closed.nodup_decode {e : Encoding} (h : e.Closed) (m : Search.Model) :
    (e.decode m).Nodup := by
  have hchoices : e.choices.zipIdx.map (·.1) = e.choices := List.zipIdx_map_fst ..
  exact (hchoices ▸ h.nodup).sublist (List.filter_sublist.map _)

/-- The choices that are read off a model have the values that they have there. -/
theorem Encoding.Closed.value_number {e : Encoding} (h : e.Closed) (m : Search.Model) {c : Choice}
    (hc : c ∈ e.choices) : m.value (e.number c) = (e.decode m).contains c := by
  rw [Bool.eq_iff_iff, List.contains_eq_mem, decide_eq_true_eq, h.mem_decode_iff]
  exact (and_iff_right hc).symm

namespace Instance

variable {i : Instance} {w : Choice → Bool}

/-! ### What the search finds -/

/-- The choices that a model of the numbered rules makes. -/
def valuation (i : Instance) (m : Search.Model) : Choice → Bool := m.value ∘ i.encode.number

/-- The score of an instance is about the choices that come up. -/
theorem score_congr {v w : Choice → Bool} (hvw : ∀ c ∈ i.choices, v c = w c) :
    i.encode.objective.score v = i.encode.objective.score w :=
  Objective.score_congr fun l hl => hvw l.atom (objective_mem_choices hl)

/-- **The best model obeys the instance.** -/
theorem Grounded.obeys_of_optimize (h : i.Grounded) {deadline : Search.Deadline} {m : Search.Model}
    (hm : i.encode.problem.optimize deadline = .best m) : i.Obeys (i.valuation m) := by
  have hholds := (Search.Problem.holds_of_optimize i.closed_encode.wellFormed hm).2
  have hrules : i.encode.rules.holds (i.valuation m) = true :=
    (RuleSet.holds_map i.encode.number m.value i.encode.rules).symm.trans hholds
  exact h.holds_iff.1 ((i.holds_encode _).1 hrules)

/-- **The search finds the best valuation** that obeys the instance, if there is one. -/
theorem Grounded.optimize_spec (h : i.Grounded) (ho : i.order.Nodup)
    (hg : ∀ g ∈ i.store.groups, g.members.Nodup) (hfits : i.encode.problem.objective.Fits)
    (deadline : Search.Deadline) (hw : i.Obeys w) :
    match i.encode.problem.optimize deadline with
    | .infeasible => False
    | .best m => Objective.compareScores (i.encode.objective.score w)
        (i.encode.objective.score (i.valuation m)) ≠ .gt
    | .interrupted => True := by
  have hclosed := i.closed_encode
  have hholds : i.encode.problem.rules.holds (i.encode.lift w) = true := by
    rw [hclosed.holds_lift, holds_encode]
    exact h.holds_iff.2 hw
  have hspec := i.encode.problem.optimize_spec hclosed.wellFormed (wide ho hg) hfits deadline
  cases hres : i.encode.problem.optimize deadline with
  | infeasible =>
      rw [hres] at hspec
      exact absurd hholds (by simp [hspec])
  | best m =>
      rw [hres] at hspec
      have hbeats := hspec _ hholds
      have hscore : i.encode.problem.score m = i.encode.objective.score (i.valuation m) :=
        Objective.score_map i.encode.number m.value i.encode.objective
      rw [Search.Problem.Beats, hscore, hclosed.score_lift] at hbeats
      exact hbeats
  | interrupted => trivial

/-! ### The choices of the best model -/

/-- **The best choices**: they come up in the instance and obey it, and no valuation that
obeys it scores more. -/
structure Best (i : Instance) (made : List Choice) : Prop where
  nodup : made.Nodup
  known : ∀ c ∈ made, c ∈ i.choices
  obeys : i.Obeys made.contains
  unbeaten : ∀ w, i.Obeys w → Objective.compareScores (i.encode.objective.score w)
    (i.encode.objective.score made.contains) ≠ .gt

section Unbeaten

variable {made : List Choice}

/-- A set of choices that come up is what is left of all choices by keeping those in it. -/
theorem filter_perm (hnodup : made.Nodup) (hknown : ∀ c ∈ made, c ∈ i.choices) :
    (i.choices.filter made.contains).Perm made := by
  refine (List.perm_ext_iff_of_nodup (i.closed_encode.nodup.filter _) hnodup).2 fun c => ?_
  rw [List.mem_filter, List.contains_eq_mem, decide_eq_true_eq]
  exact and_iff_right_of_imp (hknown c)

/-- **Who does not score more does not spend less** on what the first tier avoids. -/
theorem spent_le_of_unbeaten (hnodup : made.Nodup) (hknown : ∀ c ∈ made, c ∈ i.choices)
    {cost? : Choice → Option Nat} {rest : List (List (Literal Choice × Nat))}
    (htiers : i.tiers = i.avoid cost? :: rest) (hfits : spent cost? i.choices < UInt64.size)
    (hunbeaten : Objective.compareScores (i.encode.objective.score w)
      (i.encode.objective.score made.contains) ≠ .gt) :
    spent cost? made ≤ spent cost? (i.choices.filter w) := by
  rw [encode, Objective.compareScores_ofTiers, htiers, List.map_cons, List.map_cons] at hunbeaten
  have hle := Objective.le_of_compareScores hunbeaten
  have hmade := weigh_avoid hfits made.contains
  have hother := weigh_avoid hfits w
  rw [spent_perm (filter_perm hnodup hknown)] at hmade
  omega

/-- **To leave out a choice that costs** is to score more. -/
theorem beaten_without (hnodup : made.Nodup) (hknown : ∀ c ∈ made, c ∈ i.choices)
    {cost? : Choice → Option Nat} {rest : List (List (Literal Choice × Nat))}
    (htiers : i.tiers = i.avoid cost? :: rest) (hfits : spent cost? i.choices < UInt64.size)
    {c : Choice} (hc : c ∈ made) {n : Nat} (hcost : cost? c = some n) (hn : 0 < n) :
    Objective.compareScores
      (i.encode.objective.score fun x => decide (x ≠ c) && made.contains x)
      (i.encode.objective.score made.contains) = .gt := by
  by_contra hunbeaten
  have hle := spent_le_of_unbeaten hnodup hknown htiers hfits hunbeaten
  have hsaved := spent_add_le hcost (w := made.contains)
    (v := fun x => decide (x ≠ c) && made.contains x) (by simpa using hc) (by simp)
    (hknown c hc) fun x _ hx => by
      rw [Bool.and_eq_true] at hx
      exact hx.2
  rw [spent_perm (filter_perm hnodup hknown)] at hsaved
  omega

end Unbeaten

namespace Best

variable {made : List Choice}

/-- **The best choices spend least** on what the first tier avoids. -/
theorem spent_le (h : i.Best made) {cost? : Choice → Option Nat}
    {rest : List (List (Literal Choice × Nat))} (htiers : i.tiers = i.avoid cost? :: rest)
    (hfits : spent cost? i.choices < UInt64.size) (hw : i.Obeys w) :
    spent cost? made ≤ spent cost? (i.choices.filter w) :=
  spent_le_of_unbeaten h.nodup h.known htiers hfits (h.unbeaten w hw)

/-- **None of the best choices can be left out** where it costs. -/
theorem not_obeys_without (h : i.Best made) {cost? : Choice → Option Nat}
    {rest : List (List (Literal Choice × Nat))} (htiers : i.tiers = i.avoid cost? :: rest)
    (hfits : spent cost? i.choices < UInt64.size) {c : Choice} (hc : c ∈ made) {n : Nat}
    (hcost : cost? c = some n) (hn : 0 < n) :
    ¬i.Obeys fun x => decide (x ≠ c) && made.contains x := fun hw =>
  h.unbeaten _ hw (beaten_without h.nodup h.known htiers hfits hc hcost hn)

end Best
end Instance

namespace Solver

variable {s : Solver} {purpose : Purpose} {made : List Choice}

/-- The instance that a search for a purpose is about. -/
def posed (s : Solver) (purpose : Purpose) : Instance :=
  ⟨s.store, s.order, s.preselected, purpose⟩

/-- The instance of a search is exact where the index is, and the order has all candidates. -/
theorem exact_posed (hindexed : s.store.Indexed) (ho : s.order.Perm s.store.ids)
    (purpose : Purpose) : (s.posed purpose).Exact := ⟨hindexed, fun _ => ho.mem_iff⟩

/-- The instance of a search is grounded where containers are candidates. -/
theorem grounded_posed (hindexed : s.store.Indexed) (hranked : s.store.Ranked)
    (ho : s.order.Perm s.store.ids) (purpose : Purpose) : (s.posed purpose).Grounded where
  toExact := exact_posed hindexed ho purpose
  parents := fun c hc p hpc => by
    obtain ⟨rank, hrank⟩ := hranked
    exact (hrank c hc p hpc).1

/-- Without repairs weights fit a word where dependencies can be counted in one. -/
theorem fits_posed (h : (s.posed purpose).Grounded) (hfits : s.store.edges.length < UInt64.size)
    (hfixed : purpose.isRepair = false) : (s.posed purpose).encode.problem.objective.Fits :=
  h.fits (Nat.lt_of_le_of_lt h.length_targets_le hfits) (fun _ => hfits) fun hr =>
    absurd (hfixed.symm.trans hr) Bool.false_ne_true

/-- A search for the best is one of the optimizer, whose model is read back. -/
theorem best_eq (s : Solver) (purpose : Purpose) : s.best purpose =
    match (s.posed purpose).encode.problem.optimize s.deadline with
    | .infeasible => .ok none
    | .best m => .ok (some ((s.posed purpose).encode.decode m))
    | .interrupted => .error .timedOut := rfl

/-- What a search finds is read off a model. -/
theorem exists_model_of_best (hbest : s.best purpose = .ok (some made)) :
    ∃ m, (s.posed purpose).encode.problem.optimize s.deadline = .best m ∧
      (s.posed purpose).encode.decode m = made := by
  rw [best_eq] at hbest
  cases hres : (s.posed purpose).encode.problem.optimize s.deadline with
  | infeasible => simp [hres] at hbest
  | best m =>
      simp only [hres, Except.ok.injEq, Option.some.injEq] at hbest
      exact ⟨m, rfl, hbest⟩
  | interrupted => simp [hres] at hbest

/-- A search that finds nothing is at an end. -/
theorem optimize_of_best (hbest : s.best purpose = .ok none) :
    (s.posed purpose).encode.problem.optimize s.deadline = .infeasible := by
  rw [best_eq] at hbest
  cases hres : (s.posed purpose).encode.problem.optimize s.deadline with
  | infeasible => rfl
  | best m => simp [hres] at hbest
  | interrupted => simp [hres] at hbest

/-- What a search finds comes up in the instance. -/
theorem known_of_best (hbest : s.best purpose = .ok (some made)) :
    ∀ c ∈ made, c ∈ (s.posed purpose).choices := by
  obtain ⟨m, -, rfl⟩ := exists_model_of_best hbest
  exact fun c hc => ((s.posed purpose).closed_encode.mem_decode_iff.1 hc).1

/-- The best choices are made once each. -/
theorem nodup_of_best (hbest : s.best purpose = .ok (some made)) : made.Nodup := by
  obtain ⟨m, -, rfl⟩ := exists_model_of_best hbest
  exact (s.posed purpose).closed_encode.nodup_decode m

/-- **What a search finds meets the rules**, as the search reads them. -/
theorem metBy_of_best (hbest : s.best purpose = .ok (some made)) :
    (s.encode purpose).rules.MetBy made.contains := by
  obtain ⟨m, hm, rfl⟩ := exists_model_of_best hbest
  have hclosed := (s.posed purpose).closed_encode
  have hmet := (Search.Problem.metBy_of_optimize hclosed.wellFormed hm).2
  refine ((RuleSet.metBy_map _ _ _).1 hmet).congr fun r hr l hl => ?_
  exact hclosed.value_number m ((hclosed.rules r hr).2 l hl)

/-- **What a search finds is not beaten**, where weights fit, by anything that meets the rules as
the search reads them. -/
theorem unbeaten_of_best (hfits : (s.posed purpose).encode.problem.objective.Fits)
    (hbest : s.best purpose = .ok (some made)) {w : Choice → Bool}
    (hw : (s.encode purpose).rules.MetBy w) :
    Objective.compareScores ((s.encode purpose).objective.score w)
      ((s.encode purpose).objective.score made.contains) ≠ .gt := by
  obtain ⟨m, hm, rfl⟩ := exists_model_of_best hbest
  have hclosed := (s.posed purpose).closed_encode
  have hkeeps := Search.Problem.optimize_keeps hclosed.wellFormed s.deadline
  rw [hm] at hkeeps
  have hbeats := hkeeps hfits _ (hclosed.metBy_lift hw)
  have hscore : (s.posed purpose).encode.problem.score m =
      (s.encode purpose).objective.score ((s.posed purpose).encode.decode m).contains :=
    (Objective.score_map _ m.value _).trans
      (Instance.score_congr fun c hc => hclosed.value_number m hc)
  rw [Search.Problem.Beats, hscore, hclosed.score_lift] at hbeats
  exact hbeats

/-- **A search that finds nothing tells that the rules cannot be met.** -/
theorem not_metBy_of_best (hbest : s.best purpose = .ok none) (w : Choice → Bool) :
    ¬(s.encode purpose).rules.MetBy w := by
  intro hmet
  have hclosed := (s.posed purpose).closed_encode
  have hkeeps := Search.Problem.optimize_keeps hclosed.wellFormed s.deadline
  rw [optimize_of_best hbest] at hkeeps
  exact hkeeps _ (hclosed.metBy_lift hmet)

/-- A search that finds nothing tells that nothing obeys the instance. -/
theorem not_obeys_of_best (h : (s.posed purpose).Grounded) (ho : s.order.Nodup)
    (hg : ∀ g ∈ s.store.groups, g.members.Nodup)
    (hfits : (s.posed purpose).encode.problem.objective.Fits) (hbest : s.best purpose = .ok none)
    (w : Choice → Bool) : ¬(s.posed purpose).Obeys w := by
  intro hw
  have hspec := h.optimize_spec ho hg hfits s.deadline hw
  rw [optimize_of_best hbest] at hspec
  exact hspec

/-- **What a search finds are the best choices.** -/
theorem best_spec (h : (s.posed purpose).Grounded) (ho : s.order.Nodup)
    (hg : ∀ g ∈ s.store.groups, g.members.Nodup)
    (hfits : (s.posed purpose).encode.problem.objective.Fits)
    (hbest : s.best purpose = .ok (some made)) : (s.posed purpose).Best made := by
  obtain ⟨m, hm, hmade⟩ := exists_model_of_best hbest
  have hclosed := (s.posed purpose).closed_encode
  have hholds := (metBy_of_best hbest).holds
  refine ⟨hmade ▸ hclosed.nodup_decode m, known_of_best hbest,
    h.holds_iff.1 (((s.posed purpose).holds_encode _).1 hholds), fun w hw => ?_⟩
  have hscore : (s.posed purpose).encode.objective.score ((s.posed purpose).valuation m) =
      (s.posed purpose).encode.objective.score made.contains :=
    Instance.score_congr fun c hc => hmade ▸ hclosed.value_number m hc
  have hspec := h.optimize_spec ho hg hfits s.deadline hw
  rw [hm] at hspec
  exact hscore ▸ hspec

end Solver
end Loadout
