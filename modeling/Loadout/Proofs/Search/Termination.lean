/-
# The search terminates

The loop of a search is one step after another (`Problem.after`), and nothing counts the
steps.  Whatever a step does, it makes the measure of the state greater
(`Problem.Stepped.measure_lt`): a decision adds an assignment, a conflict of a rule or of
the bound trades assignments for one of a level below, and a model that was just taken makes
the bound a conflict where it was none.  The measure of a valid state stays below the step
limit (`State.Valid.measure_lt`), so from every valid state some step is the last one
(`State.Valid.exists_last_step`).

So the fuel that `run` is given only has to be enough: with any more of it the result is the
same (`Problem.run_of_after_eq_error`).
-/

import Loadout.Proofs.Search.Optimize

namespace Loadout
namespace Search

variable {p : Problem} {s s' : State} {deadline : Deadline}

/-- The state after a number of steps, or how the search has ended before. -/
def Problem.after (p : Problem) (deadline : Deadline) : Nat → State → Except Result State
  | 0, s => .ok s
  | n + 1, s => (p.step deadline s).bind (p.after deadline n)

/-- After a step come the other ones. -/
theorem Problem.after_succ (h : p.step deadline s = .ok s') (n : Nat) :
    p.after deadline (n + 1) s = p.after deadline n s' := by
  rw [Problem.after, h]
  rfl

/-- After the last step comes its result, however many are left. -/
theorem Problem.after_of_step_eq_error {result : Result} (h : p.step deadline s = .error result)
    (n : Nat) : p.after deadline (n + 1) s = .error result := by
  rw [Problem.after, h]
  rfl

/-- What comes after steps from a reached state is reached. -/
theorem Problem.Reached.after : ∀ {n : Nat} {s s' : State}, p.Reached deadline s →
    p.after deadline n s = .ok s' → p.Reached deadline s'
  | 0, s, s', h, hafter => Except.ok.inj hafter ▸ h
  | n + 1, s, s', h, hafter => by
      cases hstep : p.step deadline s with
      | error r => simp [Problem.after_of_step_eq_error hstep] at hafter
      | ok s₁ =>
          rw [Problem.after_succ hstep] at hafter
          exact Problem.Reached.after (h.step hstep) hafter

/-- What is so after some steps is so of a state that is reached. -/
theorem Problem.exists_reached {P : State → Bool} (n : Nat)
    (h : (p.start.any fun s => (p.after deadline n s).toOption.any P) = true) :
    ∃ s, p.Reached deadline s ∧ P s = true := by
  cases hstart : p.start with
  | none => simp [hstart] at h
  | some s =>
      rw [hstart, Option.any_some] at h
      cases hafter : p.after deadline n s with
      | error r => simp [hafter, Except.toOption] at h
      | ok s' =>
          rw [hafter] at h
          exact ⟨s', (Problem.Reached.start hstart).after hafter, h⟩

/-- **Some step is the last one**, and it comes before the measure could reach the limit. -/
theorem State.Valid.exists_last_step (hp : p.WellFormed) (deadline : Deadline) :
    ∀ {k : Nat} {s : State}, s.Valid p → p.stepLimit ≤ s.measure p + k →
      ∃ n < k, ∃ last result, p.after deadline n s = .ok last ∧ last.Valid p ∧
        p.step deadline last = .error result
  | 0, s, h, hk => by
      have := h.measure_lt
      omega
  | k + 1, s, h, hk => by
      cases hstep : p.step deadline s with
      | error result => exact ⟨0, Nat.succ_pos k, s, result, rfl, h, hstep⟩
      | ok s' =>
          obtain ⟨hvalid, hstepped⟩ := (h.step hp deadline).1 s' hstep
          have hlt := hstepped.measure_lt hp
          obtain ⟨n, hn, last, result, hafter, hlast, hend⟩ :=
            hvalid.exists_last_step hp deadline (k := k) (by omega)
          refine ⟨n + 1, Nat.succ_lt_succ hn, last, result, ?_, hlast, hend⟩
          rw [Problem.after_succ hstep, hafter]

/-- After the last step there are no more. -/
theorem Problem.after_of_last_step {last : State} {result : Result}
    (hend : p.step deadline last = .error result) :
    ∀ {n : Nat} {s : State}, p.after deadline n s = .ok last →
      ∀ m, n < m → p.after deadline m s = .error result
  | 0, s, hafter, m, hm => by
      obtain rfl := Except.ok.inj hafter
      obtain ⟨m, rfl⟩ := Nat.exists_eq_succ_of_ne_zero (Nat.ne_of_gt hm)
      exact Problem.after_of_step_eq_error hend m
  | n + 1, s, hafter, m, hm => by
      obtain ⟨m, rfl⟩ := Nat.exists_eq_succ_of_ne_zero (Nat.ne_of_gt (Nat.zero_lt_of_lt hm))
      cases hstep : p.step deadline s with
      | error r =>
          rw [Problem.after_of_step_eq_error hstep] at hafter
          exact absurd hafter (by simp)
      | ok s' =>
          rw [Problem.after_succ hstep] at hafter ⊢
          exact Problem.after_of_last_step hend hafter m (Nat.lt_of_succ_lt_succ hm)

/-- A run is steps: one that has fuel for the last step gives its result. -/
theorem Problem.run_of_after_eq_error {result : Result} :
    ∀ {fuel : Nat} {s : State}, p.after deadline fuel s = .error result →
      p.run deadline fuel s = result
  | 0, s, h => by simp [Problem.after] at h
  | fuel + 1, s, h => by
      rw [Problem.run]
      cases hstep : p.step deadline s with
      | error r =>
          rw [Problem.after_of_step_eq_error hstep] at h
          exact Except.error.inj h
      | ok s' =>
          rw [Problem.after_succ hstep] at h
          exact Problem.run_of_after_eq_error h

/-- A search that ends while time is not up has a result. -/
theorem Problem.Ended.ne_interrupted {result : Result} (h : p.Ended deadline s result)
    (htime : ∀ k, deadline k = false) : result ≠ .interrupted := by
  cases h with
  | interrupted up =>
      rw [htime] at up
      exact absurd up Bool.false_ne_true
  | finished s₁ c? c hprop hconf hzero => cases s₁.best? <;> simp

/-- **The search terminates.**  While time is not up, its loop comes to a last step after
fewer steps than the limit, whatever those steps are; no step follows it, and its result is
that of every run with more fuel than steps. -/
theorem Problem.search_terminates (hp : p.WellFormed) (htime : ∀ k, deadline k = false)
    (hstart : p.start = some s) :
    ∃ n < p.stepLimit, ∃ last result,
      p.after deadline n s = .ok last ∧ p.step deadline last = .error result ∧
      result ≠ .interrupted ∧ (∀ m, n < m → p.after deadline m s = .error result) ∧
      (∀ fuel, n < fuel → p.run deadline fuel s = result) ∧ p.optimize deadline = result := by
  have hvalid := Problem.valid_of_start hp hstart
  obtain ⟨n, hn, last, result, hafter, hlast, hend⟩ :=
    hvalid.exists_last_step hp deadline (Nat.le_add_left p.stepLimit (s.measure p))
  have hover := Problem.after_of_last_step hend hafter
  have hrun := fun fuel hfuel => Problem.run_of_after_eq_error (hover fuel hfuel)
  refine ⟨n, hn, last, result, hafter, hend, ?_, hover, hrun, ?_⟩
  · exact ((hlast.step hp deadline).2 result hend).ne_interrupted htime
  · rw [Problem.optimize, hstart]
    exact hrun p.stepLimit hn

/-- The search of `rivals` reaches its last state within the limit, and ends there with the best
model. -/
theorem search_terminates_rivals : ∃ s n last,
    rivals.start = some s ∧ n < rivals.stepLimit ∧ rivals.after .never n s = .ok last ∧
      rivals.step .never last = .error (.best #[false, false, true]) := by
  have hsome : rivals.start.isSome = true := by decide +kernel
  obtain ⟨s, hs⟩ := Option.isSome_iff_exists.1 hsome
  obtain ⟨n, hn, last, result, hafter, hend, -, -, -, hresult⟩ :=
    Problem.search_terminates rivals_wellFormed (fun _ => rfl : ∀ k, Deadline.never k = false) hs
  have h : rivals.optimize .never = .best #[false, false, true] := by decide +kernel
  exact ⟨s, n, last, hs, hn, hafter, by rw [hend, ← hresult, h]⟩

end Search
end Loadout
