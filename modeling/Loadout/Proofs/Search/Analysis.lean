/-
# What conflict analysis comes to

The walk back over the trail counts down how many assignments are still ahead of it and how many
variables of the present level it has met and not yet passed, and nothing guards either number.
So the points that it comes to are told one by one (`Walk.Comes`): each is a walk as in
`Walk.Along` with a variable ahead, since it starts with one, what was not met is no such variable,
and passing a forced assignment leaves another one (`Walk.Comes.along`, `Walk.Safe`).

The clause that is learned is false, over different variables, and the only literal of the present
level in it is the first one (`Learns.asserts`).  It follows from the rules as the search reads
them.  What is learned is an ordinary clause, so without short at-most-one rules in the problem
there are none later on (`Problem.Reached.wide`), and the rules are read as they are.
-/

import Loadout.Proofs.Search.Fixpoint

namespace Loadout

/-- Another ordinary rule leaves no at-most-one rule short. -/
theorem RuleSet.Wide.add {rules : RuleSet Nat} (h : rules.Wide) {r : Rule Nat}
    (hr : r.isAtMostOne = false) : (rules.add r).1.Wide := by
  rcases rules.add_cases r with ⟨id, r', -, -, heq⟩ | heq <;> rw [heq]
  · exact h
  · intro r' hr' hk
    rw [RuleSet.toList_push, List.mem_append, List.mem_singleton] at hr'
    rcases hr' with hr' | rfl
    · exact h r' hr' hk
    · rw [hr] at hk
      exact absurd hk Bool.false_ne_true

namespace Search

variable {rules : RuleSet Nat} {n : Nat} {t : Trail Trail.unbounded} {c : Clause}

/-! ### The points of a walk -/

namespace Walk

variable {rest : List Assignment} {w : Walk}

/-- **What a walk back comes to** on its way: the assignments still ahead, and what it has
gathered.  It goes on after an assignment that it has not met, and after one that is not the last
of its level. -/
inductive Comes (rules : RuleSet Nat) (t : Trail Trail.unbounded) (c : Clause) :
    List Assignment → Walk → Prop
  | start : Comes rules t c t.entries (Walk.start.meetAll t t.level c)
  | skip {e : Assignment} {older : List Assignment} {w : Walk} (h : Comes rules t c (e :: older) w)
    (hs : e.variableOf ∉ w.seen) : Comes rules t c older w
  | pass {e : Assignment} {older : List Assignment} {w : Walk} (h : Comes rules t c (e :: older) w)
    (hs : e.variableOf ∈ w.seen) (hmore : 1 < w.pending) : Comes rules t c older (w.pass rules t e)

/-- From each point on the walk is the one from the start. -/
theorem Comes.walkBack_eq (h : Comes rules t c rest w) : walkBack rules t t.level rest w =
    walkBack rules t t.level t.entries (Walk.start.meetAll t t.level c) := by
  induction h with
  | start => rfl
  | skip _ hs ih => rw [← ih, walkBack, if_neg (by simpa using hs)]
  | pass _ hs hmore ih =>
      rw [← ih, walkBack, if_pos (by simpa using hs), if_neg (Nat.not_le.2 hmore), Walk.pass]

/-- **At every point a variable of the present level is ahead.** -/
theorem Comes.along (hrule : ∀ r ∈ rules.toList, r.literals.Nodup) (ht : t.Valid rules n)
    (hpos : 0 < t.level) (hc : Falsified t c) (htop : ∃ l ∈ c, t.levelOf l.atom = t.level)
    (h : Comes rules t c rest w) : rest <:+ t.entries ∧ w.Along t rest ∧ 1 ≤ w.pending := by
  induction h with
  | start =>
      obtain ⟨hal, hp, -⟩ := Along.conflict ht hpos hc htop
      exact ⟨List.suffix_refl _, hal, hp⟩
  | @skip e older w _ hs ih =>
      obtain ⟨hrest, hal, hp⟩ := ih
      have hlev := level_eq_of_ahead ht hrest (hal.pending ▸ hp)
      exact ⟨(List.suffix_cons e older).trans hrest, (hal.skip hlev hs).1, hp⟩
  | @pass e older w _ hs hmore ih =>
      obtain ⟨hrest, hal, hp⟩ := ih
      have hlev := level_eq_of_ahead ht hrest (hal.pending ▸ hp)
      obtain ⟨hal', hp', -⟩ := hal.pass hrule ht hrest hlev hs hmore
      exact ⟨(List.suffix_cons e older).trans hrest, hal', hp'⟩

/-- Where a variable is ahead, an assignment is. -/
theorem Along.ne_nil (h : w.Along t rest) (hp : 1 ≤ w.pending) : rest ≠ [] := by
  rintro rfl
  rw [h.pending] at hp
  exact absurd hp (by simp [Walk.ahead])

/-- **A walk back never counts below zero**: at each point that it comes to there is an assignment
ahead and a variable pending, and the end of the walk from there is that of the whole walk. -/
def Safe (rules : RuleSet Nat) (t : Trail Trail.unbounded) (c : Clause) : Prop :=
  ∀ rest w, Comes rules t c rest w → rest ≠ [] ∧ 1 ≤ w.pending ∧
    walkBack rules t t.level rest w =
      walkBack rules t t.level t.entries (Walk.start.meetAll t t.level c)

/-- A clause that is false, with a literal of the present level above zero, is safe to walk back
from. -/
theorem safe_of_falsified (hrule : ∀ r ∈ rules.toList, r.literals.Nodup) (ht : t.Valid rules n)
    (hpos : 0 < t.level) (hc : Falsified t c) (htop : ∃ l ∈ c, t.levelOf l.atom = t.level) :
    Safe rules t c := by
  intro rest w h
  obtain ⟨-, hal, hpending⟩ := h.along hrule ht hpos hc htop
  exact ⟨hal.ne_nil hpending, hpending, h.walkBack_eq⟩

end Walk

/-! ### What is learned -/

/-- **A clause to assert** after going back: it is false, over different variables, has one literal
of the present level, the first one, and the level to go back to is that of the second one and
bounds all the others, or is zero if there are none. -/
structure Trail.Asserts (t : Trail Trail.unbounded) (learned : Learned) : Prop where
  distinct : ((learned.literal :: learned.others).map (·.atom)).Nodup
  falsified : ∀ l ∈ learned.literal :: learned.others, t.isFalse l = true
  first : t.levelOf learned.literal.atom = t.level
  others : ∀ l ∈ learned.others, t.levelOf l.atom ≤ learned.level
  second : ∀ l, learned.others.head? = some l → t.levelOf l.atom = learned.level
  alone : learned.others = [] → learned.level = 0
  level_lt : learned.level < t.level

/-- What the analysis learns is a clause to assert. -/
theorem Learns.asserts (ht : t.Valid rules n) {learned : Learned} (h : Learns rules t c learned) :
    t.Asserts learned := by
  have hfalse : ∀ l ∈ learned.literal :: learned.others, ∃ e ∈ t.entries, e.literal = l.flip := by
    intro l hl
    rcases List.mem_cons.1 hl with rfl | hl
    · exact h.point.imp fun _ he => ⟨he.1, he.2.1⟩
    · exact (h.others l hl).imp fun _ he => ⟨he.1, he.2.1⟩
  constructor
  case distinct =>
    -- two false literals of one variable are the same
    refine List.Nodup.map_on (fun a ha b hb hab => ?_) h.distinct
    obtain ⟨e, he, hel⟩ := hfalse a ha
    obtain ⟨e', he', hel'⟩ := hfalse b hb
    have : e = e' := ht.distinct.eq_of_variableOf_eq he he' (by
      rw [Trail.variableOf_of_flip hel, Trail.variableOf_of_flip hel', hab])
    exact Literal.flip_inj (hel.symm.trans (this ▸ hel'))
  case falsified => exact fun l hl => ht.distinct.isFalse_iff.2 (hfalse l hl)
  case first =>
    obtain ⟨e, he, hel, hlev⟩ := h.point
    rw [ht.distinct.levelOf_of_flip he hel, hlev]
  case others =>
    intro l hl
    obtain ⟨e, he, hel, -, hle⟩ := h.others l hl
    rwa [ht.distinct.levelOf_of_flip he hel]
  case second =>
    intro l hl
    obtain ⟨e, he, hel, hlev⟩ := h.head l hl
    rw [ht.distinct.levelOf_of_flip he hel, hlev]
  case alone => exact h.level_eq_zero
  case level_lt => exact h.level_lt

/-! ### Rules of a search -/

variable {p : Problem} {s s' s₁ : State} {deadline : Deadline}

/-- Learning leaves no at-most-one rule short. -/
theorem Problem.wide_learn (h : s.rules.Wide) (learned : Learned) :
    (Problem.learn s learned).rules.Wide := by
  rcases hadd : s.rules.add learned.rule with ⟨rules, id⟩
  rw [learn_eq hadd]
  have hwide := h.add (r := learned.rule) rfl
  rwa [hadd] at hwide

/-- Resolving a conflict leaves no at-most-one rule short. -/
theorem Problem.wide_resolve (h : s.rules.Wide) (hres : Problem.resolve s c = some s') :
    s'.rules.Wide := by
  rcases Nat.eq_zero_or_pos (highestLevel s.trail c) with hzero | hpos
  · rw [Problem.resolve, if_pos hzero] at hres
    exact absurd hres (by simp)
  · rw [Problem.resolve_eq hpos] at hres
    obtain ⟨learned, -, rfl⟩ := Option.map_eq_some_iff.1 hres
    refine Problem.wide_learn ?_ learned
    rwa [Problem.lowered_frame]

/-- A step leaves no at-most-one rule short. -/
theorem Problem.wide_step (h : s.rules.Wide) (hstep : p.step deadline s = .ok s') :
    s'.rules.Wide := by
  rw [Problem.step] at hstep
  split at hstep
  · exact absurd hstep (by simp)
  rcases hfrom : p.propagate { s with steps := s.steps + 1 } with ⟨s₁, c?⟩
  have hrules : s₁.rules = s.rules := congrArg (fun x => x.1.rules) hfrom.symm
  simp only [hfrom] at hstep
  split at hstep
  · obtain rfl := Except.ok.inj hstep
    rw [Problem.advance]
    split <;> exact hrules ▸ h
  · split at hstep
    · rename_i hres
      obtain rfl := Except.ok.inj hstep
      exact Problem.wide_resolve (hrules ▸ h) hres
    · exact absurd hstep (by simp)

/-- **A search comes to no short at-most-one rules** that the problem has not. -/
theorem Problem.Reached.wide (hwide : p.rules.Wide) (h : p.Reached deadline s) : s.rules.Wide := by
  induction h with
  | start h =>
      obtain ⟨t, -, rfl⟩ := Option.map_eq_some_iff.1 h
      exact hwide
  | step _ h ih => exact Problem.wide_step ih h

/-- **Conflict analysis is safe, and yields a clause to assert that follows.**  For every conflict
that a search comes to above level zero, of a rule or of the bound, the state is first lowered to
the highest level of the conflict.  The walk back never counts below zero and ends in a clause to
assert, which is then taken in.  It follows from the rules, those that were learned before among
them, and the conflict, where a rule of one literal asks for that literal, whatever its kind; it
follows from the rules as they are where no at-most-one rule of the problem is short. -/
theorem Problem.analysis_safe_and_asserting (hp : p.WellFormed) (hr : p.Reached deadline s)
    {c? : Option Clause} (h : p.propagate { s with steps := s.steps + 1 } = (s₁, c?))
    (hc : p.IsConflict s₁ c? c) (hpos : 0 < highestLevel s₁.trail c) :
    (Problem.lowered s₁ c).trail.level = highestLevel s₁.trail c ∧
    Walk.Safe s₁.rules (Problem.lowered s₁ c).trail c ∧
    ∃ learned, analyze s₁.rules (Problem.lowered s₁ c).trail c = some learned ∧
      Problem.resolve s₁ c = some (Problem.learn (Problem.lowered s₁ c) learned) ∧
      (Problem.lowered s₁ c).trail.Asserts learned ∧
      (∀ val, s₁.rules.MetBy val → (∃ l ∈ c, l.holds val = true) →
        ∃ l ∈ learned.literal :: learned.others, l.holds val = true) ∧
      (p.rules.Wide → ∀ val, s₁.rules.holds val = true → (∃ l ∈ c, l.holds val = true) →
        ∃ l ∈ learned.literal :: learned.others, l.holds val = true) := by
  have hprop := ((hr.valid hp).tick (s.steps + 1)).propagate h
  have hlow := hprop.sound.lowers hprop.below (hc.falsified hprop) hpos
  have hrules : (Problem.lowered s₁ c).rules = s₁.rules := by rw [Problem.lowered_frame]
  have hlevel : 0 < (Problem.lowered s₁ c).trail.level := hlow.level ▸ hpos
  have hnodup := hprop.sound.nodup
  have htrail := hlow.sound.trail
  rw [hrules] at htrail
  obtain ⟨learned, hanalyze, hlearns⟩ := analyze_spec hnodup htrail hlevel hlow.falsified hlow.top
  refine ⟨hlow.level, Walk.safe_of_falsified hnodup htrail hlevel hlow.falsified hlow.top, learned,
    hanalyze, ?_, hlearns.asserts htrail, hlearns.follows,
    fun hwide val hval => hlearns.follows val ?_⟩
  · rw [Problem.resolve_eq hpos, hrules, hanalyze]
    rfl
  · have hrules₁ : s₁.rules = s.rules := by rw [hprop.frame]
    have hwide₁ : s₁.rules.Wide := hrules₁ ▸ hr.wide hwide
    exact hwide₁.metBy_iff.2 hval

/-- The second wish is given up for the first one. -/
theorem analysis_safe_and_asserting_crossed : crossed.rules.Wide ∧ ∃ s s₁ c learned,
    crossed.Reached .never s ∧
      crossed.propagate { s with steps := s.steps + 1 } = (s₁, some c) ∧
      highestLevel s₁.trail c = 2 ∧ learned = ⟨.neg 2, [.neg 1], 1⟩ ∧
      (Problem.lowered s₁ c).trail.Asserts learned ∧
      ∀ val, s₁.rules.holds val = true → (∃ l ∈ c, l.holds val = true) →
        ∃ l ∈ learned.literal :: learned.others, l.holds val = true := by
  have hwide : crossed.rules.Wide := by decide +kernel
  obtain ⟨s, hr, hfound⟩ : ∃ s, crossed.Reached .never s ∧
      (match crossed.propagate { s with steps := s.steps + 1 } with
      | (s₁, some c) => decide (highestLevel s₁.trail c = 2 ∧
          analyze s₁.rules (Problem.lowered s₁ c).trail c = some ⟨.neg 2, [.neg 1], 1⟩)
      | (_, none) => false) = true := Problem.exists_reached 2 (by decide +kernel)
  rcases hp : crossed.propagate { s with steps := s.steps + 1 } with ⟨s₁, _ | c⟩
  · simp [hp] at hfound
  · simp only [hp, decide_eq_true_eq] at hfound
    obtain ⟨hhighest, hlearned⟩ := hfound
    have hc : crossed.IsConflict s₁ (some c) c := rfl
    obtain ⟨-, -, learned, hanalyze, -, hasserts, -, hfollows⟩ :=
      Problem.analysis_safe_and_asserting crossed_wellFormed hr hp hc (by omega)
    obtain rfl := Option.some.inj (hlearned.symm.trans hanalyze)
    exact ⟨hwide, s, s₁, c, _, hr, hp, hhighest, rfl, hasserts, hfollows hwide⟩

end Search
end Loadout
