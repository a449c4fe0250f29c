/-
# The best model

Every state that a search reaches is valid, and no model is lost on the way: a valuation
that meets the rules of the problem, as the search reads them, meets all that was learned, or
does not score more than the best model so far (`State.Keeps`).  A conflict of a rule is met
by no valuation that meets the rules, and a conflict of the bound by none that scores no more
(`Problem.IsConflict.follows`), so this holds after every step (`Problem.Stepped.keeps`),
and at the end, when a clause is false at level zero, there is no better model left.

Every step makes the trail heavier, where an assignment weighs less than one of the level
below by more than all variables together (`Trail.weight`); only a step that takes a model
may leave the weight as it is, and then the bound is a conflict at once
(`Problem.Stepped.measure_lt`).  So a search ends (`Problem.optimize_cases`).
-/

import Loadout.Proofs.Search.State
import Mathlib.Data.List.TakeWhile

namespace Loadout
namespace Search

variable {p : Problem} {s s' : State} {deadline : Deadline}

/-- A valuation scores more than a model. -/
def Problem.Beats (p : Problem) (val : Nat → Bool) (m : Model) : Prop :=
  Objective.compareScores (p.objective.score val) (p.score m) = .gt

/-! ### Conflicts -/

/-- A conflict of the bound: there is a best model, the bound does not beat its score, and the
clause asks for a literal that was lost on the way. -/
theorem Problem.boundConflict_eq_some {c : Clause} (h : p.boundConflict s = some c) :
    ∃ m, s.best? = some m ∧
      Objective.compareScores (p.objective.bound s.trail) (p.score m) ≠ .gt ∧
      c = p.lostLiterals s.trail
        (Problem.decisiveTiers (p.objective.bound s.trail) (p.score m)) := by
  rw [Problem.boundConflict, Option.bind_eq_some_iff] at h
  obtain ⟨m, hm, hc⟩ := h
  simp only at hc
  split at hc
  · simp at hc
  · rename_i hle
    exact ⟨m, hm, hle, (Option.some.inj hc).symm⟩

/-- Without a conflict of the bound the bound beats every best model. -/
theorem Problem.boundConflict_eq_none (h : p.boundConflict s = none) {m : Model}
    (hm : s.best? = some m) :
    Objective.compareScores (p.objective.bound s.trail) (p.score m) = .gt := by
  simp only [Problem.boundConflict, hm, Option.bind_some] at h
  split at h
  · assumption
  · simp at h

/-- **A better valuation makes a lost literal true** where the bound does not beat a score. -/
theorem Problem.exists_lost (hfits : p.objective.Fits) {t : Trail Trail.unbounded}
    {best : List Nat} (hbound : Objective.compareScores (p.objective.bound t) best ≠ .gt)
    {val : Nat → Bool} (hbeats : Objective.compareScores (p.objective.score val) best = .gt) :
    ∃ l ∈ p.lostLiterals t (Problem.decisiveTiers (p.objective.bound t) best),
      l.holds val = true := by
  by_contra hnone
  refine Objective.not_gt_of_bound hfits (fun tier htier x hx hv => ?_) hbound hbeats
  by_contra hfalse
  rw [Bool.not_eq_true, Bool.not_eq_false'] at hfalse
  refine hnone ⟨x.1, List.mem_filter.2 ⟨?_, hfalse⟩, hv⟩
  exact List.mem_map.2 ⟨x, List.mem_flatten.2 ⟨tier, htier, hx⟩, rfl⟩

/-- A conflict after propagation, of a rule or of the bound. -/
def Problem.IsConflict (p : Problem) (s : State) (c? : Option Clause) (c : Clause) : Prop :=
  c?.or (p.boundConflict s) = some c

/-- A conflict is one of a rule or one of the bound. -/
theorem Problem.IsConflict.cases {c? : Option Clause} {c : Clause} (h : p.IsConflict s c? c) :
    c? = some c ∨ p.boundConflict s = some c := by
  rcases Option.or_eq_some_iff.1 h with h | ⟨-, h⟩
  · exact Or.inl h
  · exact Or.inr h

variable {s₁ : State} {c? : Option Clause} {c : Clause}

/-- A conflict is a false clause. -/
theorem Problem.IsConflict.falsified (hprop : p.Propagates s s₁ c?) (h : p.IsConflict s₁ c? c) :
    Falsified s₁.trail c := by
  rcases h.cases with hc | hb
  · exact (hprop.conflict c hc).1
  · obtain ⟨m, -, -, rfl⟩ := Problem.boundConflict_eq_some hb
    intro l hl
    exact hprop.sound.trail.distinct.isFalse_iff.1 (List.mem_filter.1 hl).2

/-- **A conflict is met by whatever meets the rules and is better than the best model.**  Where
there is none yet, the weights of the objective do not count. -/
theorem Problem.IsConflict.follows (hprop : p.Propagates s s₁ c?) (h : p.IsConflict s₁ c? c)
    {val : Nat → Bool} (hval : s₁.rules.holds val = true)
    (hbest : ∀ m, s₁.best? = some m → p.objective.Fits ∧ p.Beats val m) :
    ∃ l ∈ c, l.holds val = true := by
  rcases h.cases with hc | hb
  · obtain ⟨r, hr, hyields⟩ := (hprop.conflict c hc).2
    exact hyields val ((RuleSet.holds_iff _ val).1 hval r hr)
  · obtain ⟨m, hm, hbound, rfl⟩ := Problem.boundConflict_eq_some hb
    exact Problem.exists_lost (hbest m hm).1 hbound (hbest m hm).2

/-- The bound of a complete trail is the score of its model. -/
theorem Problem.bound_of_complete (hp : p.WellFormed) {rules : RuleSet Nat}
    {t : Trail Trail.unbounded} (ht : t.Valid rules p.variableCount)
    (hc : t.Complete p.variableCount) :
    p.objective.bound t = p.score (t.model p.variableCount) := by
  refine List.map_congr_left fun tier htier => Objective.weigh_congr fun x hx => ?_
  have hrange := hp.objective x.1 (Objective.mem_literals.2 ⟨tier, htier, x, hx, rfl⟩)
  show (!t.isFalse x.1) = x.1.holds (t.valuation p.variableCount)
  cases hv : x.1.holds (t.valuation p.variableCount) with
  | true =>
      have ha := (ht.holds_model hc hrange).1 hv
      have hnot : ¬t.isFalse x.1 = true := fun hf =>
        ht.distinct.not_both ha (ht.distinct.isFalse_iff.1 hf)
      simpa using hnot
  | false => simpa using ht.distinct.isFalse_iff.2 (ht.assigns_flip_of_model hc hrange hv)

/-! ### One step -/

/-- **What one step does**: it propagates, and then advances or resolves a conflict. -/
inductive Problem.Stepped (p : Problem) (s s' : State) : Prop where
  | advance (s₁ : State) (propagates : p.Propagates { s with steps := s.steps + 1 } s₁ none)
    (free : p.boundConflict s₁ = none) (advances : p.Advances s₁ s')
  | resolve (s₁ : State) (c? : Option Clause) (c : Clause)
    (propagates : p.Propagates { s with steps := s.steps + 1 } s₁ c?)
    (conflict : p.IsConflict s₁ c? c) (resolved : p.Resolved s₁ c s')

/-- **How a search ends**: time is up, or a conflict is false at level zero. -/
inductive Problem.Ended (p : Problem) (deadline : Deadline) (s : State) : Result → Prop where
  | interrupted (up : deadline (s.steps + 1) = true) : Ended p deadline s .interrupted
  | finished (s₁ : State) (c? : Option Clause) (c : Clause)
    (propagates : p.Propagates { s with steps := s.steps + 1 } s₁ c?)
    (conflict : p.IsConflict s₁ c? c) (zero : ∀ l ∈ c, s₁.trail.TrueBy 0 l.flip) :
    Ended p deadline s (s₁.best?.elim .infeasible .best)

/-- Counting steps keeps a state valid. -/
theorem State.Valid.tick (h : s.Valid p) (k : Nat) : State.Valid p { s with steps := k } :=
  ⟨⟨h.sound.grows, h.sound.inRange, h.sound.inhabited, h.sound.units, h.sound.covers, h.sound.trail,
    h.sound.order, h.sound.best⟩, h.before, h.after, h.propagated_le⟩

/-- **A step keeps a state valid**, or is the last one. -/
theorem State.Valid.step (hp : p.WellFormed) (h : s.Valid p) (deadline : Deadline) :
    (∀ s', p.step deadline s = .ok s' → s'.Valid p ∧ p.Stepped s s') ∧
      ∀ r, p.step deadline s = .error r → p.Ended deadline s r := by
  rcases hfrom : p.propagate { s with steps := s.steps + 1 } with ⟨s₁, c?⟩
  have hprop := (h.tick (s.steps + 1)).propagate hfrom
  by_cases hup : ((s.steps + 1) % deadlineInterval = 1 && deadline (s.steps + 1)) = true
  · have hstep : p.step deadline s = .error .interrupted := by
      rw [Problem.step, if_pos (by simpa using hup)]
    rw [hstep]
    refine ⟨fun s' hs' => by simp at hs', fun r hr => ?_⟩
    obtain rfl := Except.error.inj hr
    exact .interrupted (Bool.and_eq_true _ _ ▸ hup).2
  rw [Bool.not_eq_true] at hup
  cases hc : c?.or (p.boundConflict s₁) with
  | none =>
      have hstep : p.step deadline s = .ok (p.advance s₁) := by
        simp only [Problem.step, hup, Bool.false_eq_true, if_false, hfrom, hc]
      obtain ⟨rfl, hfree⟩ := Option.or_eq_none_iff.1 hc
      obtain ⟨hvalid, hadv⟩ := (hprop.quiet rfl).advance hp hprop.sound
      rw [hstep]
      refine ⟨fun s' hs' => ?_, fun r hr => by simp at hr⟩
      obtain rfl := Except.ok.inj hs'
      exact ⟨hvalid, .advance s₁ hprop hfree hadv⟩
  | some c =>
      have hconf : p.IsConflict s₁ c? c := hc
      obtain ⟨hnone, hsome⟩ := hprop.sound.resolve hprop.below (hconf.falsified hprop)
      cases hres : Problem.resolve s₁ c with
      | some s₂ =>
          have hstep : p.step deadline s = .ok s₂ := by
            simp only [Problem.step, hup, Bool.false_eq_true, if_false, hfrom, hc, hres]
          rw [hstep]
          refine ⟨fun s' hs' => ?_, fun r hr => by simp at hr⟩
          obtain rfl := Except.ok.inj hs'
          exact ⟨(hsome _ hres).valid, .resolve s₁ c? c hprop hconf (hsome _ hres)⟩
      | none =>
          have hstep : p.step deadline s = .error (s₁.best?.elim .infeasible .best) := by
            simp only [Problem.step, hup, Bool.false_eq_true, if_false, hfrom, hc, hres]
          rw [hstep]
          refine ⟨fun s' hs' => by simp at hs', fun r hr => ?_⟩
          obtain rfl := Except.error.inj hr
          exact .finished s₁ c? c hprop hconf (hnone hres)

/-! ### Nothing is lost -/

/-- **No model is lost**: a valuation that meets the rules of the problem meets what was
learned too, or there is a best model, and the valuation is no better where weights fit. -/
def State.Keeps (p : Problem) (s : State) : Prop :=
  ∀ val, p.rules.MetBy val → s.rules.MetBy val ∨
    ∃ m, s.best? = some m ∧ (p.objective.Fits → ¬p.Beats val m)

/-- Propagation loses no model, whatever the number of steps. -/
theorem State.Keeps.propagates (h : s.Keeps p) {k : Nat}
    (hprop : p.Propagates { s with steps := k } s₁ c?) : s₁.Keeps p := by
  rw [hprop.frame]
  exact h

/-- **No step loses a model.** -/
theorem Problem.Stepped.keeps (hp : p.WellFormed) (hstep : p.Stepped s s') (h : s.Keeps p) :
    s'.Keeps p := by
  cases hstep with
  | advance s₁ hprop hfree hadv =>
      have h₁ := h.propagates hprop
      cases hadv with
      | decide l ho => exact h₁
      | take hc =>
          refine fun val hval => (h₁ val hval).imp_right ?_
          -- the new model is better than the one before it
          rintro ⟨m, hm, hbeats⟩
          have hbetter := Problem.boundConflict_eq_none hfree hm
          rw [Problem.bound_of_complete hp hprop.sound.trail hc] at hbetter
          exact ⟨_, rfl, fun hfits => Objective.not_gt_of_gt (hbeats hfits) hbetter⟩
  | resolve s₁ c? c hprop hconf hres =>
      refine fun val hval => ?_
      rw [hres.best]
      rcases h.propagates hprop val hval with hv | hbest
      · by_cases hbeats : ∀ m, s₁.best? = some m → p.objective.Fits ∧ p.Beats val m
        · exact Or.inl (hres.follows val hv (hconf.follows hprop hv.holds hbeats))
        · simp only [not_forall] at hbeats
          obtain ⟨m, hm, hnot⟩ := hbeats
          exact Or.inr ⟨m, hm, fun hfits hb => hnot ⟨hfits, hb⟩⟩
      · exact Or.inr hbest

/-- **At the end no model is better than the best one.** -/
theorem State.Keeps.finished (h : s₁.Keeps p) (hprop : p.Propagates s s₁ c?)
    (hconf : p.IsConflict s₁ c? c) (hzero : ∀ l ∈ c, s₁.trail.TrueBy 0 l.flip) {val : Nat → Bool}
    (hval : p.rules.MetBy val) :
    ∃ m, s₁.best? = some m ∧ (p.objective.Fits → ¬p.Beats val m) := by
  rcases h val hval with hv | hbest
  · by_contra hnone
    have hbeats : ∀ m, s₁.best? = some m → p.objective.Fits ∧ p.Beats val m := by
      intro m hm
      by_contra hnot
      exact hnone ⟨m, hm, fun hfits hb => hnot ⟨hfits, hb⟩⟩
    obtain ⟨l, hl, hlv⟩ := hconf.follows hprop hv.holds hbeats
    obtain ⟨e, he, hel, hle⟩ := hzero l hl
    have hpos := hprop.sound.trail.levelOf_pos hprop.sound.nodup hv ⟨e, he, hel⟩ hlv
    have hown := hprop.sound.trail.distinct.levelOf_of_flip he hel
    omega
  · exact hbest

/-! ### The search ends -/

/-- **The weight of a trail** over `n` variables: an assignment weighs more than `n + 1`
assignments of the next level. -/
def Trail.weight (n : Nat) (t : Trail Trail.unbounded) : Nat :=
  (t.entries.map fun e => (n + 2) ^ (n - e.level)).sum

/-- An assignment adds its own weight. -/
theorem Trail.weight_push (n : Nat) (t : Trail Trail.unbounded) (l : Lit) (reason? : Option Reason) :
    (t.push l reason?).weight n = (n + 2) ^ (n - t.level) + t.weight n := rfl

/-- No assignment is without weight. -/
theorem pow_pos_two (n k : Nat) : 0 < (n + 2) ^ k := Nat.pow_pos (Nat.succ_pos _)

/-- A decision makes a trail heavier. -/
theorem Trail.weight_decide (n : Nat) (t : Trail Trail.unbounded) (k : Nat) (l : Lit) :
    t.weight n < ((t.atLevel k).push l none).weight n := by
  have hpush := Trail.weight_push n (t.atLevel k) l none
  have hpos := pow_pos_two n (n - k)
  have hsame : (t.atLevel k).weight n = t.weight n := rfl
  have hlevel : (t.atLevel k).level = k := rfl
  rw [hsame, hlevel] at hpush
  omega

/-- A trail that grows gets heavier, or is the same. -/
theorem Trail.Grows.weight {n : Nat} {t t' : Trail Trail.unbounded} (h : t.Grows t') :
    t' = t ∨ t.weight n < t'.weight n := by
  obtain ⟨new, hentries, -⟩ := h.entries
  have hlevel := h.level
  obtain ⟨entries', level'⟩ := t'
  obtain rfl : entries' = new ++ t.entries := hentries
  obtain rfl : level' = t.level := hlevel
  cases new with
  | nil => exact Or.inl rfl
  | cons e new =>
      refine Or.inr ?_
      have := pow_pos_two n (n - e.level)
      simp only [Trail.weight, List.cons_append, List.map_cons, List.map_append, List.sum_cons,
        List.sum_append]
      omega

/-- A trail that grows weighs no less. -/
theorem Trail.Grows.weight_le {n : Nat} {t t' : Trail Trail.unbounded} (h : t.Grows t') :
    t.weight n ≤ t'.weight n := by
  rcases h.weight (n := n) with rfl | hlt
  · exact Nat.le_refl _
  · exact Nat.le_of_lt hlt

/-- Assignments from a level up weigh no more than that many at the level. -/
theorem sum_weights_le {n k : Nat} : ∀ {entries : List Assignment}, (∀ e ∈ entries, k ≤ e.level) →
    (entries.map fun e => (n + 2) ^ (n - e.level)).sum ≤ entries.length * (n + 2) ^ (n - k)
  | [], _ => Nat.zero_le _
  | e :: entries, h => by
      obtain ⟨he, hrest⟩ := List.forall_mem_cons.1 h
      have ih := sum_weights_le (n := n) hrest
      have hpow : (n + 2) ^ (n - e.level) ≤ (n + 2) ^ (n - k) :=
        Nat.pow_le_pow_right (Nat.succ_pos _) (by omega)
      rw [List.map_cons, List.sum_cons, List.length_cons, Nat.succ_mul]
      omega

/-- No valid trail over `n` variables weighs more than `n` decisions at level zero. -/
theorem Trail.Valid.weight_le {rules : RuleSet Nat} {n : Nat} {t : Trail Trail.unbounded}
    (ht : t.Valid rules n) : t.weight n ≤ n * (n + 2) ^ n := by
  have h : t.weight n ≤ t.entries.length * (n + 2) ^ (n - 0) := sum_weights_le fun _ _ => Nat.zero_le _
  exact Nat.le_trans h (Nat.mul_le_mul_right _ ht.length_le)

/-- **Going back below the present level for one more assignment makes a trail heavier.** -/
theorem Trail.Valid.weight_lt {rules : RuleSet Nat} {n : Nat} {t : Trail Trail.unbounded}
    (ht : t.Valid rules n) {k : Nat} (hk : k < t.level) (l : Lit) (reason? : Option Reason) :
    t.weight n < ((t.backTo k).push l reason?).weight n := by
  have hsplit := List.takeWhile_append_dropWhile (p := fun e : Assignment => k < e.level)
    (l := t.entries)
  generalize hdropped : t.entries.takeWhile (fun e => k < e.level) = dropped at hsplit
  have habove : ∀ e ∈ dropped, k + 1 ≤ e.level := by
    intro e he
    rw [← hdropped] at he
    have hlt := List.mem_takeWhile_imp he
    simp only [decide_eq_true_eq] at hlt
    exact hlt
  have hlen : dropped.length ≤ n := by
    have := ht.length_le
    rw [← hsplit, List.length_append] at this
    omega
  have hweight : t.weight n =
      (dropped.map fun e => (n + 2) ^ (n - e.level)).sum + (t.backTo k).weight n := by
    rw [Trail.weight, ← hsplit, List.map_append, List.sum_append, Trail.weight, Trail.backTo_entries]
  have hkn : n - k = n - (k + 1) + 1 := by
    have := ht.level_le_count
    omega
  have hbase : n * (n + 2) ^ (n - (k + 1)) < (n + 2) ^ (n - k) := by
    rw [hkn, Nat.pow_succ, Nat.mul_comm _ (n + 2)]
    exact Nat.mul_lt_mul_of_pos_right (by omega) (pow_pos_two n _)
  calc t.weight n
      = (dropped.map fun e => (n + 2) ^ (n - e.level)).sum + (t.backTo k).weight n := hweight
    _ ≤ dropped.length * (n + 2) ^ (n - (k + 1)) + (t.backTo k).weight n :=
        Nat.add_le_add_right (sum_weights_le habove) _
    _ ≤ n * (n + 2) ^ (n - (k + 1)) + (t.backTo k).weight n :=
        Nat.add_le_add_right (Nat.mul_le_mul_right _ hlen) _
    _ < (n + 2) ^ (n - k) + (t.backTo k).weight n := Nat.add_lt_add_right hbase _
    _ = ((t.backTo k).push l reason?).weight n := rfl

/-- What grows with every step: the weight of the trail, twice, and whether its bound is a
conflict. -/
def State.measure (p : Problem) (s : State) : Nat :=
  2 * s.trail.weight p.variableCount + if (p.boundConflict s).isSome then 1 else 0

/-- The measure of a valid state is below the limit of steps. -/
theorem State.Valid.measure_lt (h : s.Valid p) : s.measure p < p.stepLimit := by
  have hw := h.sound.trail.weight_le
  have hpos := pow_pos_two p.variableCount p.variableCount
  have hlim : 2 * (p.variableCount * (p.variableCount + 2) ^ p.variableCount) + 1 < p.stepLimit := by
    rw [Problem.stepLimit, Nat.pow_eq, Nat.pow_succ, Nat.pow_succ]
    have hbase : (p.variableCount + 2) ^ p.variableCount * (p.variableCount + 2) =
        p.variableCount * (p.variableCount + 2) ^ p.variableCount +
          2 * (p.variableCount + 2) ^ p.variableCount := by
      rw [Nat.mul_comm, Nat.add_mul]
    have hmul := Nat.le_mul_of_pos_right
      ((p.variableCount + 2) ^ p.variableCount * (p.variableCount + 2)) (show 0 < p.variableCount + 2 by omega)
    omega
  rw [State.measure]
  split <;> omega

/-- The conflict of the bound depends on the trail and the best model alone. -/
theorem Problem.boundConflict_congr (hb : s.best? = s'.best?) (ht : s.trail = s'.trail) :
    p.boundConflict s = p.boundConflict s' := by
  simp only [Problem.boundConflict, hb, ht]

/-- **Every step makes progress.** -/
theorem Problem.Stepped.measure_lt (hp : p.WellFormed) (hstep : p.Stepped s s') :
    s.measure p < s'.measure p := by
  have hle : s.measure p ≤ 2 * s.trail.weight p.variableCount + 1 := by
    rw [State.measure]
    split <;> omega
  have hge : 2 * s'.trail.weight p.variableCount ≤ s'.measure p := Nat.le_add_right ..
  cases hstep with
  | advance s₁ hprop hfree hadv =>
      have hgrow : s.trail.weight p.variableCount ≤ s₁.trail.weight p.variableCount :=
        hprop.grows.weight_le
      cases hadv with
      | decide l ho =>
          have hlt := Trail.weight_decide p.variableCount s₁.trail (s₁.trail.level + 1) l
          have hge : 2 * ((s₁.trail.atLevel (s₁.trail.level + 1)).push l none).weight
            p.variableCount ≤ _ := hge
          omega
      | take hc =>
          -- a model that was just taken leaves no room for a better one on the same trail
          have hbound : (p.boundConflict { s₁ with
              best? := some (s₁.trail.model p.variableCount) }).isSome = true := by
            simp [Problem.boundConflict, Problem.bound_of_complete hp hprop.sound.trail hc]
          have hmeasure : State.measure p { s₁ with
              best? := some (s₁.trail.model p.variableCount) } =
                2 * s₁.trail.weight p.variableCount + 1 := by
            rw [State.measure, hbound, if_pos rfl]
          rw [hmeasure]
          rcases hprop.grows.weight (n := p.variableCount) with heq | hlt
          · have hbest : s.best? = s₁.best? := by rw [hprop.frame]
            have hnone : p.boundConflict s = none :=
              (Problem.boundConflict_congr hbest heq.symm).trans hfree
            have hold : s.measure p = 2 * s.trail.weight p.variableCount := by
              rw [State.measure, hnone]
              rfl
            omega
          · have hlt : s.trail.weight p.variableCount < s₁.trail.weight p.variableCount := hlt
            omega
  | resolve s₁ c? c hprop hconf hres =>
      have hgrow : s.trail.weight p.variableCount ≤ s₁.trail.weight p.variableCount :=
        hprop.grows.weight_le
      obtain ⟨k, l, reason?, hk, htrail⟩ := hres.trail
      have hlt := hprop.sound.trail.weight_lt hk l reason?
      rw [← htrail] at hlt
      omega

/-! ### The whole search -/

/-- The states that a search comes to. -/
inductive Problem.Reached (p : Problem) (deadline : Deadline) : State → Prop where
  | start {s : State} (h : p.start = some s) : Reached p deadline s
  | step {s s' : State} (reached : Reached p deadline s) (h : p.step deadline s = .ok s') :
    Reached p deadline s'

/-- **Every state that is reached is valid.** -/
theorem Problem.Reached.valid (hp : p.WellFormed) (h : p.Reached deadline s) : s.Valid p := by
  induction h with
  | start h => exact Problem.valid_of_start hp h
  | step _ h ih => exact ((ih.step hp deadline).1 _ h).1

/-- **No state that is reached has lost a model.** -/
theorem Problem.Reached.keeps (hp : p.WellFormed) (h : p.Reached deadline s) : s.Keeps p := by
  induction h with
  | start h =>
      obtain ⟨t, -, rfl⟩ := Option.map_eq_some_iff.1 h
      exact fun val hval => Or.inl hval
  | step hr h ih => exact (((hr.valid hp).step hp deadline).1 _ h).2.keeps hp ih

/-- A search with enough steps left comes to its end. -/
theorem Problem.run_ended (hp : p.WellFormed) :
    ∀ {fuel : Nat} {s : State}, p.Reached deadline s → p.stepLimit ≤ s.measure p + fuel →
      ∃ s', p.Reached deadline s' ∧ p.Ended deadline s' (p.run deadline fuel s)
  | 0, s, hr, hfuel => by
      have := (hr.valid hp).measure_lt
      omega
  | fuel + 1, s, hr, hfuel => by
      obtain ⟨hok, herror⟩ := (hr.valid hp).step hp deadline
      rw [Problem.run]
      cases hstep : p.step deadline s with
      | ok s' =>
          have := (hok s' hstep).2.measure_lt hp
          exact Problem.run_ended hp (hr.step hstep) (by omega)
      | error r => exact ⟨s, hr, herror r hstep⟩

/-- **A search ends**: at once, when rules of one literal contradict each other, or in one
of the states that it reaches. -/
theorem Problem.optimize_cases (hp : p.WellFormed) (deadline : Deadline) :
    (p.start = none ∧ p.optimize deadline = .infeasible) ∨
      ∃ s, p.Reached deadline s ∧ p.Ended deadline s (p.optimize deadline) := by
  cases hstart : p.start with
  | none => exact Or.inl ⟨rfl, by rw [Problem.optimize, hstart]⟩
  | some s =>
      have hrun : ∃ s', p.Reached deadline s' ∧ p.Ended deadline s' (p.run deadline p.stepLimit s) :=
        Problem.run_ended hp (.start hstart) (Nat.le_add_left p.stepLimit (s.measure p))
      exact Or.inr (by rwa [Problem.optimize, hstart])

/-- **The optimizer only returns models** of the rules, as it reads them. -/
theorem Problem.metBy_of_optimize (hp : p.WellFormed) {m : Model}
    (h : p.optimize deadline = .best m) :
    m.size = p.variableCount + 1 ∧ p.rules.MetBy m.value := by
  rcases p.optimize_cases hp deadline with ⟨-, hnone⟩ | ⟨s, hr, hend⟩
  · rw [hnone] at h
    exact absurd h (by simp)
  · rw [h] at hend
    generalize hres : Result.best m = r at hend
    cases hend with
    | interrupted => exact absurd hres (by simp)
    | finished s₁ c? c hprop hconf hzero =>
        cases hbest : s₁.best? with
        | none => simp [hbest] at hres
        | some m' =>
            simp only [hbest, Option.elim_some, Result.best.injEq] at hres
            exact hres ▸ hprop.sound.best m' hbest

/-- The best model has a value for every variable and meets the rules. -/
theorem Problem.holds_of_optimize (hp : p.WellFormed) {m : Model}
    (h : p.optimize deadline = .best m) :
    m.size = p.variableCount + 1 ∧ p.rules.holds m.value = true :=
  (Problem.metBy_of_optimize hp h).imp_right RuleSet.MetBy.holds

/-- **Nothing but the deadline interrupts a search.** -/
theorem Problem.up_of_interrupted (hp : p.WellFormed) (h : p.optimize deadline = .interrupted) :
    ∃ k, deadline k = true := by
  rcases p.optimize_cases hp deadline with ⟨-, hnone⟩ | ⟨s, -, hend⟩
  · rw [hnone] at h
    exact absurd h (by simp)
  · rw [h] at hend
    generalize hres : Result.interrupted = r at hend
    cases hend with
    | interrupted up => exact ⟨_, up⟩
    | finished s₁ c? c hprop hconf hzero =>
        cases hbest : s₁.best? with
        | none => simp [hbest] at hres
        | some m => simp [hbest] at hres

/-- **The optimizer loses no model**: with no result there is none, and where weights fit none
scores more than the one that it returns.  Without a deadline it returns. -/
theorem Problem.optimize_keeps (hp : p.WellFormed) (deadline : Deadline) :
    match p.optimize deadline with
    | .infeasible => ∀ val, ¬p.rules.MetBy val
    | .best m => p.objective.Fits → ∀ val, p.rules.MetBy val → ¬p.Beats val m
    | .interrupted => ∃ k, deadline k = true := by
  rcases p.optimize_cases hp deadline with ⟨hstart, hnone⟩ | ⟨s, hr, hend⟩
  · rw [hnone]
    have hunits := (assignUnits_spec hp.inRange (fun _ => Problem.get?_of_mem_zipIdx)
      Trail.Valid.empty rfl).2
    exact hunits (Option.map_eq_none_iff.1 hstart)
  · generalize p.optimize deadline = r at hend
    cases hend with
    | interrupted up => exact ⟨_, up⟩
    | finished s₁ c? c hprop hconf hzero =>
        have hover : ∀ val, p.rules.MetBy val →
            ∃ m, s₁.best? = some m ∧ (p.objective.Fits → ¬p.Beats val m) := fun val =>
          ((hr.keeps hp).propagates hprop).finished hprop hconf hzero
        cases hbest : s₁.best? with
        | none =>
            intro val hval
            obtain ⟨m, hm, -⟩ := hover val hval
            rw [hbest] at hm
            exact absurd hm (by simp)
        | some m =>
            intro hfits val hval
            obtain ⟨m', hm', hbeats⟩ := hover val hval
            rw [hbest] at hm'
            exact Option.some.inj hm' ▸ hbeats hfits

/-- Without short at-most-one rules the search reads the rules as they are. -/
theorem Problem.optimize_spec (hp : p.WellFormed) (hwide : p.rules.Wide) (hfits : p.objective.Fits)
    (deadline : Deadline) :
    match p.optimize deadline with
    | .infeasible => ∀ val, p.rules.holds val = false
    | .best m => ∀ val, p.rules.holds val = true → ¬p.Beats val m
    | .interrupted => ∃ k, deadline k = true := by
  have hkeeps := p.optimize_keeps hp deadline
  cases hres : p.optimize deadline with
  | infeasible =>
      rw [hres] at hkeeps
      exact fun val => Bool.not_eq_true _ ▸ fun hv => hkeeps val (hwide.metBy_iff.2 hv)
  | best m =>
      rw [hres] at hkeeps
      exact fun val hv => hkeeps hfits val (hwide.metBy_iff.2 hv)
  | interrupted =>
      rw [hres] at hkeeps
      exact hkeeps

/-! ### What the optimizer promises -/

/-- **The optimizer only returns models.**  What it returns has a value for every variable,
makes a literal of every ordinary rule true, and of the literals that an at-most-one rule
negates one at most, whatever the objective and the deadline. -/
theorem Problem.best_meets_rules (hp : p.WellFormed) {m : Model}
    (h : p.optimize deadline = .best m) :
    m.size = p.variableCount + 1 ∧
      (∀ r ∈ p.rules.toList, r.isAtMostOne = false → ∃ l ∈ r.literals, l.holds m.value = true) ∧
      ∀ r ∈ p.rules.toList, r.isAtMostOne = true →
        ((r.literals.map Literal.flip).filter fun l => l.holds m.value).length ≤ 1 := by
  obtain ⟨hsize, hholds⟩ := Problem.holds_of_optimize hp h
  rw [RuleSet.holds_iff] at hholds
  refine ⟨hsize, fun r hr hk => (Rule.holds_iff_exists hk _).1 (hholds r hr), fun r hr hk => ?_⟩
  have hr := hholds r hr
  simp only [Rule.holds, hk, if_true, decide_eq_true_eq] at hr
  rw [List.filter_map, List.length_map]
  simpa only [Function.comp_def, Literal.holds_flip] using hr

/-- **The optimizer never loses a solution.**  While time is not up it comes to an end: with
no result when no valuation meets the rules, and else with a model to which no valuation
that meets the rules is preferred by the tiers of the objective. -/
theorem Problem.optimize_is_best (hp : p.WellFormed) (hwide : p.rules.Wide)
    (hfits : p.objective.Fits) (htime : ∀ k, deadline k = false) :
    (p.optimize deadline = .infeasible ∧ ∀ val, p.rules.holds val = false) ∨
      ∃ m, p.optimize deadline = .best m ∧ ∀ val, p.rules.holds val = true →
        Objective.compareScores (p.objective.score val) (p.score m) ≠ .gt := by
  have hspec := p.optimize_spec hp hwide hfits deadline
  cases hres : p.optimize deadline with
  | infeasible =>
      rw [hres] at hspec
      exact Or.inl ⟨rfl, hspec⟩
  | best m =>
      rw [hres] at hspec
      exact Or.inr ⟨m, rfl, hspec⟩
  | interrupted =>
      rw [hres] at hspec
      obtain ⟨k, hk⟩ := hspec
      rw [htime k] at hk
      exact absurd hk Bool.false_ne_true

/-- One of two variables is true, and the second one is wanted more than the first. -/
def rivals : Problem where
  rules := .ofList [.of [.pos 1, .pos 2] .depends, .atMostOne [.pos 1, .pos 2]]
  variableCount := 2
  objective := ⟨[[(.pos 2, 1)], [(.pos 1, 1)]]⟩

/-- The rule of `rivals` has distinct literals of its variables. -/
theorem rivals_wellFormed : rivals.WellFormed where
  inRange := by
    have h : ∀ r ∈ rivals.rules.toList, r.literals.Nodup ∧
        ∀ l ∈ r.literals, 1 ≤ l.atom ∧ l.atom ≤ 2 := by decide +kernel
    exact fun r hr => ⟨(h r hr).1, (h r hr).2⟩
  objective := by decide

/-- The best model of `rivals` makes the second variable true alone. -/
theorem best_meets_rules_rivals : rivals.optimize .never = .best #[false, false, true] ∧
    (#[false, false, true] : Model).size = rivals.variableCount + 1 := by
  have h : rivals.optimize .never = .best #[false, false, true] := by decide +kernel
  exact ⟨h, (Problem.best_meets_rules rivals_wellFormed h).1⟩

/-- No valuation that meets the rule of `rivals` scores more. -/
theorem optimize_is_best_rivals : rivals.rules.Wide ∧ rivals.objective.Fits ∧
    ∃ m, rivals.optimize .never = .best m ∧ ∀ val, rivals.rules.holds val = true →
      Objective.compareScores (rivals.objective.score val) (rivals.score m) ≠ .gt := by
  have hwide : rivals.rules.Wide := by decide +kernel
  have hfits : rivals.objective.Fits := by decide +kernel
  have h : rivals.optimize .never ≠ .infeasible := by decide +kernel
  exact ⟨hwide, hfits, (Problem.optimize_is_best rivals_wellFormed hwide hfits fun _ => rfl).resolve_left
    fun hnone => h hnone.1⟩

end Search
end Loadout
