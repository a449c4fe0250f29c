/-
# States that a search can reach

A state of a search keeps the rules of the problem and adds to them, covers all of them
with watches, has a valid trail, and has the literals of all rules of one literal at level
zero (`State.Sound`).  What is propagated is settled (`State.Valid`).  The first state is
valid (`Problem.valid_of_start`), and so is a state after each move of a search:
propagating (`State.Valid.propagate`), going back (`State.Sound.backTo`), taking in what
was learned (`State.Valid.learn`) and deciding or taking a model (`State.Valid.advance`).

A quiet state without open variables meets all rules (`State.Quiet.metBy`): this is all
that stands between the watches and a model.
-/

import Loadout.Proofs.Search.Conflict
import Loadout.Proofs.Search.Objective
import Loadout.Proofs.Search.Propagate

namespace Loadout
namespace Search

/-- Rules of distinct literals and an objective, both over the variables of the problem. -/
structure Problem.WellFormed (p : Problem) : Prop where
  inRange : ∀ r ∈ p.rules.toList, r.Over p.variableCount
  objective : ∀ l ∈ p.objective.literals, 1 ≤ l.atom ∧ l.atom ≤ p.variableCount

/-- **What holds of a state between any two moves.** -/
structure State.Sound (p : Problem) (s : State) : Prop where
  grows : p.rules.Grows s.rules
  inRange : ∀ r ∈ s.rules.toList, r.Over p.variableCount
  inhabited : ∀ r ∈ s.rules.toList, r.literals ≠ []
  units : ∀ r ∈ s.rules.toList, ∀ l, r.literals = [l] → s.trail.TrueBy 0 l
  covers : s.graph.Covers s.rules p.variableCount
  trail : s.trail.Valid s.rules p.variableCount
  order : s.order = p.objective.decisionOrder p.variableCount
  best : ∀ m, s.best? = some m → m.size = p.variableCount + 1 ∧ p.rules.MetBy m.value

/-- All that is assigned below the present level is settled. -/
def State.SettledBelow (s : State) : Prop :=
  ∀ e ∈ s.trail.entries, e.level < s.trail.level → Settled s.rules s.graph s.trail e

/-- All that is assigned is propagated and settled. -/
structure State.Quiet (s : State) : Prop where
  propagated : s.propagated = s.trail.size
  settled : ∀ e ∈ s.trail.entries, Settled s.rules s.graph s.trail e

/-- **What holds of a state between any two steps.** -/
structure State.Valid (p : Problem) (s : State) : Prop where
  sound : s.Sound p
  before : ∀ e ∈ s.trail.before s.propagated, Settled s.rules s.graph s.trail e
  after : ∀ e ∈ s.trail.after s.propagated, e.level = s.trail.level
  propagated_le : s.propagated ≤ s.trail.size

variable {p : Problem} {s : State}

/-- The rules of a sound state have distinct literals. -/
theorem State.Sound.nodup (h : s.Sound p) : ∀ r ∈ s.rules.toList, r.literals.Nodup :=
  fun r hr => (h.inRange r hr).nodup

/-- What is settled altogether is settled below the present level. -/
theorem State.Quiet.settledBelow (h : s.Quiet) : s.SettledBelow := fun e he _ => h.settled e he

/-- A sound state that is quiet is valid. -/
theorem State.Quiet.valid (h : s.Quiet) (hs : s.Sound p) : s.Valid p where
  sound := hs
  before := fun e he => h.settled e (Trail.mem_of_mem_before he)
  after := fun e he => by
    rw [h.propagated, Trail.after_size] at he
    exact absurd he List.not_mem_nil
  propagated_le := Nat.le_of_eq h.propagated

/-! ### The first state -/

/-- What assigning some rules of one literal makes of a trail. -/
structure Seeded (rules : RuleSet Nat) (n : Nat) (rs : List (Rule Nat × Nat))
    (t t' : Trail Trail.unbounded) : Prop where
  trail : t'.Valid rules n
  level : t'.level = 0
  subset : t.entries ⊆ t'.entries
  units : ∀ x ∈ rs, x.1.literals ≠ [] ∧ ∀ l, x.1.literals = [l] → Assigns t'.entries l

/-- One more rule of one literal, which is true on the trail by now. -/
theorem Seeded.cons {rules : RuleSet Nat} {n : Nat} {rs : List (Rule Nat × Nat)}
    {t t' t'' : Trail Trail.unbounded} (h : Seeded rules n rs t' t'') (hsub : t.entries ⊆ t'.entries)
    {x : Rule Nat × Nat} (hne : x.1.literals ≠ [])
    (hunit : ∀ l, x.1.literals = [l] → Assigns t'.entries l) : Seeded rules n (x :: rs) t t'' where
  trail := h.trail
  level := h.level
  subset := fun _ he => h.subset (hsub he)
  units := List.forall_mem_cons.2 ⟨⟨hne, fun l hl => (hunit l hl).mono h.subset⟩, h.units⟩

/-- **Assigning the rules of one literal** makes all of them true at level zero; when it
fails, no valuation meets the rules. -/
theorem assignUnits_spec {rules : RuleSet Nat} {n : Nat} (hover : ∀ r ∈ rules.toList, r.Over n) :
    ∀ {rs : List (Rule Nat × Nat)} {t : Trail Trail.unbounded},
      (∀ x ∈ rs, rules.get? x.2 = some x.1) → t.Valid rules n → t.level = 0 →
      (∀ t', assignUnits rs t = some t' → Seeded rules n rs t t') ∧
      (assignUnits rs t = none → ∀ val, ¬rules.MetBy val)
  | [], t, _, ht, hl => by
      refine ⟨fun t' h => ?_, fun h => by simp [assignUnits] at h⟩
      obtain rfl := Option.some.inj h
      exact ⟨ht, hl, List.Subset.refl _, fun x hx => absurd hx List.not_mem_nil⟩
  | (r, id) :: rs, t, hrs, ht, hl => by
      have hid : rules.get? id = some r := hrs (r, id) (List.mem_cons_self ..)
      have hmem := RuleSet.mem_of_get? hid
      have hrs' : ∀ x ∈ rs, rules.get? x.2 = some x.1 := fun x hx => hrs x (List.mem_cons_of_mem _ hx)
      rw [assignUnits]
      split
      · rename_i hnil
        refine ⟨fun t' h => by simp at h, fun _ val hval => ?_⟩
        obtain ⟨l, hl, -⟩ := hval.short r hmem (by simp [hnil])
        exact List.not_mem_nil (hnil ▸ hl)
      · rename_i l hone
        have hrange := (hover r hmem).range l (by simp [hone])
        have hsame : ∀ l', r.literals = [l'] → l' = l := fun l' h => by simpa [hone] using h.symm
        rcases t.isOpen_or_assigns l with ho | ha | ha
        · have hj : Justified rules t.entries ⟨l, t.level, some (.rule id)⟩ :=
            ⟨r, hid, Or.inr hone, by simp [hone], by simp [hone]⟩
          rw [Trail.assign_of_isOpen ho]
          obtain ⟨hsome, hnone⟩ := assignUnits_spec hover hrs' (ht.push ho hrange hj) hl
          exact ⟨fun t' h => (hsome t' h).cons (List.subset_cons_self _ _) (by simp [hone])
            fun l' hl' => hsame l' hl' ▸ ⟨_, List.mem_cons_self .., rfl⟩, hnone⟩
        · rw [ht.distinct.assign_of_assigns ha]
          obtain ⟨hsome, hnone⟩ := assignUnits_spec hover hrs' ht hl
          exact ⟨fun t' h => (hsome t' h).cons (List.Subset.refl _) (by simp [hone])
            fun l' hl' => hsame l' hl' ▸ ha, hnone⟩
        · rw [ht.distinct.assign_of_assigns_flip ha]
          refine ⟨fun t' h => by simp at h, fun _ val hval => ?_⟩
          obtain ⟨e, he, hel⟩ := ha
          have hzero : e.level = 0 := Nat.le_zero.1 (hl ▸ ht.level_le e he)
          have hflip := ht.supported.holds_of_level_zero (fun r hr => (hover r hr).nodup) hval
            ht.sorted e he hzero
          obtain ⟨l', hl', hv⟩ := hval.short r hmem (by simp [hone])
          rw [hone, List.mem_singleton] at hl'
          rw [hel, Literal.holds_flip, ← hl', hv] at hflip
          exact absurd hflip (by decide)
      · rename_i hlits hlong
        obtain ⟨hsome, hnone⟩ := assignUnits_spec hover hrs' ht hl
        exact ⟨fun t' h => (hsome t' h).cons (List.Subset.refl _) hlits
          fun l h => absurd h (hlong l), hnone⟩

/-- The rules of a problem are numbered in their order. -/
theorem Problem.get?_of_mem_zipIdx {x : Rule Nat × Nat} (h : x ∈ p.rules.toList.zipIdx) :
    p.rules.get? x.2 = some x.1 := by
  rw [RuleSet.get?_eq]
  exact List.mem_zipIdx_iff_getElem?.1 h

/-- **The first state is valid.** -/
theorem Problem.valid_of_start (hp : p.WellFormed) (h : p.start = some s) : s.Valid p := by
  obtain ⟨t, ht, rfl⟩ := Option.map_eq_some_iff.1 h
  obtain ⟨hsome, -⟩ := assignUnits_spec hp.inRange (fun _ => Problem.get?_of_mem_zipIdx)
    Trail.Valid.empty rfl
  obtain ⟨hvalid, hlevel, -, hunits⟩ := hsome t ht
  have hmem : ∀ r ∈ p.rules.toList, ∃ id, (r, id) ∈ p.rules.toList.zipIdx := by
    intro r hr
    obtain ⟨id, hid⟩ := List.getElem?_of_mem hr
    exact ⟨id, List.mem_zipIdx_iff_getElem?.2 hid⟩
  refine ⟨⟨RuleSet.Grows.refl _, hp.inRange, fun r hr => ?_, fun r hr l hl => ?_,
    WatchGraph.covers_ofRules hp.inRange, hvalid, rfl, fun m hm => by simp at hm⟩, fun e he => ?_,
    fun e he => ?_, Nat.zero_le _⟩
  · obtain ⟨id, hid⟩ := hmem r hr
    exact (hunits _ hid).1
  · obtain ⟨id, hid⟩ := hmem r hr
    exact hlevel ▸ hvalid.trueBy_level ((hunits _ hid).2 l hl)
  · exact absurd he (by simp [Trail.before])
  · have := hvalid.level_le e (Trail.mem_of_mem_after he)
    simp only [hlevel] at this ⊢
    omega

/-! ### Propagating and going back -/

/-- **What propagation does to a state.** -/
structure Problem.Propagates (p : Problem) (s s' : State) (conflict? : Option Clause) : Prop where
  sound : s'.Sound p
  below : s'.SettledBelow
  quiet : conflict? = none → s'.Quiet
  conflict : ∀ c, conflict? = some c → Falsified s'.trail c ∧ s'.rules.Yields c
  fresh : ∀ c, conflict? = some c →
    ∃ e ∈ s'.trail.entries, e.level = s'.trail.level ∧ e.literal.flip ∈ c
  grows : s.trail.Grows s'.trail
  frame : s' = { s with graph := s'.graph, trail := s'.trail, propagated := s'.propagated }

/-- What propagation does to a valid state. -/
theorem State.Valid.propagate (h : s.Valid p) {s' : State} {c? : Option Clause}
    (hp : p.propagate s = (s', c?)) : p.Propagates s s' c? := by
  rcases hfrom : propagateFrom s.rules (p.variableCount + 1) s.graph s.trail s.propagated with
    ⟨graph, trail, propagated, conflict?⟩
  simp only [Problem.propagate, hfrom, Prod.mk.injEq] at hp
  obtain ⟨rfl, rfl⟩ := hp
  obtain ⟨hprop, hnone, hbelow⟩ := propagateFrom_spec h.sound.inRange h.sound.covers h.sound.trail
    h.before h.after h.propagated_le (by omega) hfrom
  have hsub := hprop.grows.subset
  refine ⟨⟨h.sound.grows, h.sound.inRange, h.sound.inhabited, fun r hr l hl => ?_, hprop.covers,
    hprop.trail, h.sound.order, h.sound.best⟩, hbelow, fun hc => ?_, hprop.conflict, hprop.fresh, hprop.grows, rfl⟩
  · exact (h.sound.units r hr l hl).mono hsub (Nat.le_refl _)
  · exact ⟨(hnone hc).1, (hnone hc).2⟩

/-- **Going back** needs no repair: what is left was settled. -/
theorem State.Sound.backTo (h : s.Sound p) {k : Nat} (hk : k ≤ s.trail.level)
    (hs : ∀ e ∈ s.trail.entries, e.level ≤ k → Settled s.rules s.graph s.trail e) :
    (Problem.backTo s k).Sound p ∧ (Problem.backTo s k).Quiet := by
  refine ⟨⟨h.grows, h.inRange, h.inhabited, fun r hr l hl => ?_, h.covers, h.trail.backTo hk, h.order,
    h.best⟩, rfl, fun e he => ?_⟩
  · exact h.trail.trueBy_backTo (Nat.zero_le k) (h.units r hr l hl)
  · obtain ⟨he, hek⟩ := h.trail.mem_backTo.1 he
    exact (hs e he hek).backTo h.trail hek

/-! ### Learning -/

/-- The rule of a learned clause. -/
def Learned.rule (l : Learned) : Rule Nat := .of (l.literal :: l.others) .learned

section Learning

variable {c : Clause} {learned : Learned}

/-- The rule of a learned clause has the asserted literal first. -/
theorem Learns.rule_literals (h : Learns s.rules s.trail c learned) :
    learned.rule.literals = learned.literal :: learned.others := eraseDups_of_nodup h.distinct

/-- A learned rule is one over the variables of the problem. -/
theorem Learns.inRange (hs : s.Sound p) (h : Learns s.rules s.trail c learned) :
    learned.rule.Over p.variableCount := by
  refine ⟨Rule.of_nodup _ _, fun l hl => ?_⟩
  rw [h.rule_literals] at hl
  have hfalse : ∃ e ∈ s.trail.entries, e.literal = l.flip := by
    rcases List.mem_cons.1 hl with rfl | hl
    · obtain ⟨e, he, hel, -⟩ := h.point
      exact ⟨e, he, hel⟩
    · obtain ⟨e, he, hel, -⟩ := h.others l hl
      exact ⟨e, he, hel⟩
  obtain ⟨e, he, hel⟩ := hfalse
  have hb := hs.trail.bounded e he
  rwa [Trail.variableOf_of_flip hel] at hb

/-- The learned literal is open once the trail has gone back. -/
theorem Learns.isOpen (hs : s.Sound p) (h : Learns s.rules s.trail c learned) :
    (s.trail.backTo learned.level).isOpen learned.literal.atom = true := by
  obtain ⟨point, hpoint, hpl, hplev⟩ := h.point
  rw [Trail.isOpen_iff]
  intro e he hv
  obtain ⟨he, hle⟩ := hs.trail.mem_backTo.1 he
  have : e = point := hs.trail.distinct.eq_of_variableOf_eq he hpoint (by
    rw [hv, Trail.variableOf_of_flip hpl])
  have hlt := h.level_lt
  rw [this, hplev] at hle
  omega

/-- The other learned literals are false still. -/
theorem Learns.assigns_others (hs : s.Sound p) (h : Learns s.rules s.trail c learned) :
    ∀ l ∈ learned.others, Assigns (s.trail.backTo learned.level).entries l.flip := by
  intro l hl
  obtain ⟨e, he, hel, -, hle⟩ := h.others l hl
  exact ⟨e, hs.trail.mem_backTo.2 ⟨he, hle⟩, hel⟩

/-- **What learning does to a state.** -/
structure Problem.Learnt (p : Problem) (s : State) (learned : Learned) (s' : State) : Prop where
  valid : s'.Valid p
  metBy : ∀ val, s.rules.MetBy val → learned.rule.holds val = true → s'.rules.MetBy val
  trail : ∃ id, s'.trail =
    (s.trail.backTo learned.level).push learned.literal (some (.rule id))
  best : s'.best? = s.best?
  steps : s'.steps = s.steps

/-- A literal on top of what is settled is all that is left to propagate. -/
theorem State.Quiet.valid_push (hq : s.Quiet) {rules : RuleSet Nat} {graph : WatchGraph} {l : Lit}
    {reason? : Option Reason}
    (hs : State.Sound p { s with rules, graph, trail := s.trail.push l reason? })
    (hset : ∀ e ∈ s.trail.entries, Settled rules graph (s.trail.push l reason?) e) :
    State.Valid p { s with rules, graph, trail := s.trail.push l reason? } := by
  have hg := s.trail.grows_push l reason?
  have hle : s.propagated ≤ s.trail.size := Nat.le_of_eq hq.propagated
  refine ⟨hs, fun e he => ?_, fun e he => ?_, Nat.le_trans hle hg.size_le⟩
  · rw [hg.before_eq hle] at he
    exact hset e (Trail.mem_of_mem_before he)
  · rcases hg.mem_after hle he with hold | hnew
    · rw [hq.propagated, Trail.after_size] at hold
      exact absurd hold List.not_mem_nil
    · exact hnew

/-- Learning goes back, adds the rule with its watches, and assigns the asserted literal. -/
theorem learn_eq {rules : RuleSet Nat} {id : Nat} (h : s.rules.add learned.rule = (rules, id)) :
    Problem.learn s learned = { Problem.backTo s learned.level with
      rules
      graph := match learned.others with
        | [] => s.graph
        | other :: _ =>
          if s.rules.size ≤ id then s.graph.watchPair id (learned.literal, other) else s.graph
      trail := ((s.trail.backTo learned.level).assign learned.literal (some (.rule id))).1 } := by
  have hadd : s.rules.add (.of (learned.literal :: learned.others) .learned) = (rules, id) := h
  unfold Problem.learn Problem.backTo
  cases hothers : learned.others with
  | nil =>
      rw [hothers] at hadd
      simp [hadd]
  | cons other others =>
      rw [hothers] at hadd
      simp [hadd]

/-- Where the rule of a learned clause was there already, only its first literal is new. -/
theorem learn_of_known (hs : s.Sound p) (hb : s.SettledBelow) (h : Learns s.rules s.trail c learned)
    {id : Nat} {r : Rule Nat} (hid : s.rules.get? id = some r) (hsame : learned.rule.sameAs r = true)
    (hadd : s.rules.add learned.rule = (s.rules, id)) :
    p.Learnt s learned (Problem.learn s learned) := by
  have hlt : ¬s.rules.size ≤ id := Nat.not_le.2 (RuleSet.get?_lt_size hid)
  have hlearn : Problem.learn s learned = { Problem.backTo s learned.level with
      rules := s.rules, graph := s.graph,
      trail := (s.trail.backTo learned.level).push learned.literal (some (.rule id)) } := by
    rw [learn_eq hadd, Trail.assign_of_isOpen (h.isOpen hs)]
    cases learned.others <;> simp only [hlt, if_false]
  obtain ⟨hsound, hquiet⟩ := hs.backTo (Nat.le_of_lt h.level_lt) fun e he hle =>
    hb e he (Nat.lt_of_le_of_lt hle h.level_lt)
  have hmem := RuleSet.mem_of_get? hid
  have hnd : learned.rule.literals.Nodup := Rule.of_nodup _ _
  obtain ⟨hkind, hlits⟩ := Rule.mem_iff_of_sameAs hnd hsame
  rw [h.rule_literals] at hlits
  have hj : Justified s.rules (s.trail.backTo learned.level).entries
      ⟨learned.literal, learned.level, some (.rule id)⟩ := by
    refine ⟨r, hid, Or.inl (hkind ▸ rfl), (hlits _).1 (List.mem_cons_self ..), fun l hl hne => ?_⟩
    exact h.assigns_others hs l ((List.mem_cons.1 ((hlits l).2 hl)).resolve_left hne)
  have hrange := (h.inRange hs).range learned.literal (by simp [h.rule_literals])
  have hg := (s.trail.backTo learned.level).grows_push learned.literal (some (.rule id))
  rw [hlearn]
  refine ⟨hquiet.valid_push ⟨hsound.grows, hsound.inRange, hsound.inhabited, fun r hr l hl => ?_,
    hsound.covers, hsound.trail.push (h.isOpen hs) hrange hj, hsound.order, hsound.best⟩
    fun e he => (hquiet.settled e he).mono hg.subset, fun _ hval _ => hval, ⟨id, rfl⟩, rfl, rfl⟩
  exact (hsound.units r hr l hl).mono hg.subset (Nat.le_refl _)

/-- The new rule watches its first literal and one that is false at the level that the
trail goes back to, and all that was settled stays so. -/
theorem Learns.settled (hs : s.Sound p) (h : Learns s.rules s.trail c learned) {e : Assignment}
    {reason? : Option Reason} (he : e ∈ (s.trail.backTo learned.level).entries)
    (hset : Settled s.rules s.graph (s.trail.backTo learned.level) e) :
    Settled (s.rules.push learned.rule) (s.graph.addRule s.rules.size learned.rule)
      ((s.trail.backTo learned.level).push learned.literal reason?) e := by
  have hg := (s.trail.backTo learned.level).grows_push learned.literal reason?
  have hnew : (s.trail.backTo learned.level).push learned.literal reason? |>.TrueBy learned.level
      learned.literal := ⟨_, List.mem_cons_self .., rfl, Nat.le_refl _⟩
  intro id
  have hobeyed := (hset id).mono hg.subset
  by_cases hid : id = s.rules.size
  · refine ⟨fun r hr hk => ?_, fun a b hp => ?_⟩
    · rw [RuleSet.get?_push, if_pos hid] at hr
      obtain rfl := Option.some.inj hr
      exact absurd hk (by simp [Learned.rule])
    rcases WatchGraph.pair?_addRule s.graph s.rules.size learned.rule id with
      ⟨first, second, rest, hlits, -, hp'⟩ | ⟨-, hp'⟩
    · rw [hp', if_pos hid] at hp
      rw [h.rule_literals] at hlits
      obtain ⟨rfl, hothers⟩ := List.cons.inj hlits
      obtain ⟨rfl, rfl⟩ := Prod.mk.inj (Option.some.inj hp)
      obtain ⟨a, ha, hal, halev⟩ := h.head second (by simp [hothers])
      refine ⟨fun hopen => ?_, fun hsecond => ?_⟩
      · have := Trail.isOpen_iff.1 (h.isOpen hs) e he
        exact absurd (by rw [hopen]; rfl) this
      · have hae : a = e := hs.trail.distinct.eq_of_variableOf_eq ha (hs.trail.mem_backTo.1 he).1 (by
          rw [Assignment.variableOf, Assignment.variableOf, hal, hsecond, Literal.flip_flip])
        rw [← hae, halev]
        exact hnew
    · rw [hp'] at hp
      exact absurd (hs.covers.pair?_lt_size hp) (by omega)
  · refine ⟨fun r hr => ?_, fun a b hp => ?_⟩
    · rw [RuleSet.get?_push, if_neg hid] at hr
      exact hobeyed.excluded r hr
    · rcases WatchGraph.pair?_addRule s.graph s.rules.size learned.rule id with
        ⟨_, _, _, -, -, hp'⟩ | ⟨-, hp'⟩
      · rw [hp', if_neg hid] at hp
        exact hobeyed.partner a b hp
      · exact hobeyed.partner a b (hp' ▸ hp)

/-- A new rule comes in with its watches. -/
theorem learn_of_new (hs : s.Sound p) (hb : s.SettledBelow) (h : Learns s.rules s.trail c learned)
    (hadd : s.rules.add learned.rule = (s.rules.push learned.rule, s.rules.size)) :
    p.Learnt s learned (Problem.learn s learned) := by
  have hlearn : Problem.learn s learned = { Problem.backTo s learned.level with
      rules := s.rules.push learned.rule, graph := s.graph.addRule s.rules.size learned.rule,
      trail := (s.trail.backTo learned.level).push learned.literal (some (.rule s.rules.size)) } := by
    have hlits := h.rule_literals
    have hk : learned.rule.isAtMostOne = false := rfl
    rw [learn_eq hadd, Trail.assign_of_isOpen (h.isOpen hs)]
    simp only [WatchGraph.addRule, hlits, hk]
    cases learned.others <;> simp
  obtain ⟨hsound, hquiet⟩ := hs.backTo (Nat.le_of_lt h.level_lt) fun e he hle =>
    hb e he (Nat.lt_of_le_of_lt hle h.level_lt)
  have hgrow := s.rules.grows_push learned.rule
  have hlits := h.rule_literals
  have hj : Justified (s.rules.push learned.rule) (s.trail.backTo learned.level).entries
      ⟨learned.literal, learned.level, some (.rule s.rules.size)⟩ := by
    refine ⟨learned.rule, by rw [RuleSet.get?_push, if_pos rfl], Or.inl rfl, by simp [hlits],
      fun l hl hne => ?_⟩
    rw [hlits] at hl
    exact h.assigns_others hs l ((List.mem_cons.1 hl).resolve_left hne)
  have hover := h.inRange hs
  have hrange := hover.range learned.literal (by simp [hlits])
  have hg := (s.trail.backTo learned.level).grows_push learned.literal (some (.rule s.rules.size))
  have hmem : ∀ r, r ∈ (s.rules.push learned.rule).toList ↔ r ∈ s.rules.toList ∨ r = learned.rule := by
    simp
  rw [hlearn]
  refine ⟨hquiet.valid_push ⟨hsound.grows.trans hgrow, fun r hr => ?_, fun r hr => ?_,
    fun r hr l hl => ?_, hsound.covers.addRule hover,
    (hsound.trail.grow hgrow).push (h.isOpen hs) hrange hj, hsound.order, hsound.best⟩
    fun e he => h.settled hs he (hquiet.settled e he), fun val hval hlearned => ?_, ⟨_, rfl⟩,
    rfl, rfl⟩
  · exact ((hmem r).1 hr).elim (hsound.inRange r) fun e => e ▸ hover
  · exact ((hmem r).1 hr).elim (hsound.inhabited r) fun e => e ▸ by simp [hlits]
  · rcases (hmem r).1 hr with hr | rfl
    · exact (hsound.units r hr l hl).mono hg.subset (Nat.le_refl _)
    · -- a learned clause of one literal is learned at level zero
      rw [hlits, List.cons.injEq] at hl
      exact ⟨_, List.mem_cons_self .., hl.1, Nat.le_of_eq (h.level_eq_zero hl.2)⟩
  · refine ⟨?_, fun r hr hshort => ?_⟩
    · simpa [RuleSet.holds, hlearned] using hval.holds
    · rcases (hmem r).1 hr with hr | rfl
      · exact hval.short r hr hshort
      · exact (Rule.holds_iff_exists rfl val).1 hlearned

/-- **Learning keeps a state valid** and adds the learned clause to the rules. -/
theorem State.Sound.learn (hs : s.Sound p) (hb : s.SettledBelow)
    (h : Learns s.rules s.trail c learned) : p.Learnt s learned (Problem.learn s learned) := by
  rcases s.rules.add_cases learned.rule with ⟨id, r, hid, hsame, hadd⟩ | hadd
  · exact learn_of_known hs hb h hid hsame hadd
  · exact learn_of_new hs hb h hadd

/-! ### Resolving a conflict -/

/-- The level of a clause, as it is counted up: at least where the count began and at least that of
each literal, and no more than the largest of these. -/
theorem le_foldl_max (t : Trail Trail.unbounded) : ∀ (c : Clause) (k : Nat),
    k ≤ c.foldl (fun n l => max n (t.levelOf l.atom)) k ∧
      (∀ l ∈ c, t.levelOf l.atom ≤ c.foldl (fun n l => max n (t.levelOf l.atom)) k) ∧
      (c.foldl (fun n l => max n (t.levelOf l.atom)) k = k ∨
        ∃ l ∈ c, t.levelOf l.atom = c.foldl (fun n l => max n (t.levelOf l.atom)) k)
  | [], k => ⟨Nat.le_refl k, fun _ h => absurd h List.not_mem_nil, Or.inl rfl⟩
  | l :: c, k => by
      obtain ⟨hle, hall, heq⟩ := le_foldl_max t c (max k (t.levelOf l.atom))
      rw [List.foldl_cons]
      refine ⟨by omega, List.forall_mem_cons.2 ⟨by omega, hall⟩, ?_⟩
      rcases heq with heq | ⟨x, hx, hxe⟩
      · rcases Nat.le_total (t.levelOf l.atom) k with hk | hk
        · exact Or.inl (heq.trans (Nat.max_eq_left hk))
        · exact Or.inr ⟨l, List.mem_cons_self .., (heq.trans (Nat.max_eq_right hk)).symm⟩
      · exact Or.inr ⟨x, List.mem_cons_of_mem _ hx, hxe⟩

/-- The highest level of a clause bounds those of its literals, and is one of them unless it
is zero. -/
theorem highestLevel_spec (t : Trail Trail.unbounded) (c : Clause) :
    (∀ l ∈ c, t.levelOf l.atom ≤ highestLevel t c) ∧
      (0 < highestLevel t c → ∃ l ∈ c, t.levelOf l.atom = highestLevel t c) := by
  obtain ⟨-, hall, heq⟩ := le_foldl_max t c 0
  exact ⟨hall, fun hpos => heq.resolve_left (Nat.ne_of_gt hpos)⟩

/-- **What a resolved conflict leaves**: the trail goes back below the present level and has
one more literal there, and the new rules ask for no more than the old ones and the
conflict. -/
structure Problem.Resolved (p : Problem) (s : State) (c : Clause) (s' : State) : Prop where
  valid : s'.Valid p
  follows : ∀ val, s.rules.MetBy val → (∃ l ∈ c, l.holds val = true) → s'.rules.MetBy val
  trail : ∃ k l reason?, k < s.trail.level ∧ s'.trail = (s.trail.backTo k).push l reason?
  best : s'.best? = s.best?
  steps : s'.steps = s.steps

/-- At the level of a false clause something is learned from it. -/
theorem State.Sound.resolve_at (hs : s.Sound p) (hb : s.SettledBelow) (hpos : 0 < s.trail.level)
    (hc : Falsified s.trail c) (hlevel : ∃ l ∈ c, s.trail.levelOf l.atom = s.trail.level) :
    ∃ s', (analyze s.rules s.trail c).map (Problem.learn s) = some s' ∧ p.Resolved s c s' := by
  obtain ⟨learned, hana, hl⟩ := analyze_spec hs.nodup hs.trail hpos hc hlevel
  have hlearnt := hs.learn hb hl
  refine ⟨_, by rw [hana]; rfl, hlearnt.valid, fun val hval hex => ?_, ?_, hlearnt.best,
    hlearnt.steps⟩
  · obtain ⟨l, hlmem, hlv⟩ := hl.follows val hval hex
    exact hlearnt.metBy val hval
      ((Rule.holds_iff_exists rfl val).2 ⟨l, hl.rule_literals ▸ hlmem, hlv⟩)
  · obtain ⟨id, htrail⟩ := hlearnt.trail
    exact ⟨learned.level, learned.literal, _, hl.level_lt, htrail⟩

/-- The state at the highest level of a clause. -/
def Problem.lowered (s : State) (c : Clause) : State :=
  if highestLevel s.trail c < s.trail.level then backTo s (highestLevel s.trail c) else s

/-- Going to the highest level of a clause changes the trail and what is propagated only. -/
theorem Problem.lowered_frame (s : State) (c : Clause) : Problem.lowered s c =
    { s with trail := (Problem.lowered s c).trail, propagated := (Problem.lowered s c).propagated } := by
  rw [Problem.lowered]
  split <;> rfl

/-- Going to the highest level of a clause never raises the level. -/
theorem Problem.level_lowered_le (s : State) (c : Clause) :
    (Problem.lowered s c).trail.level ≤ s.trail.level := by
  rw [Problem.lowered]
  split
  · rename_i hback
    exact Nat.le_of_lt hback
  · exact Nat.le_refl _

/-- Below the highest level of the clause nothing has changed. -/
theorem Problem.backTo_lowered {k : Nat} (hk : k < highestLevel s.trail c) :
    (Problem.lowered s c).trail.backTo k = s.trail.backTo k := by
  rw [Problem.lowered]
  split
  · exact s.trail.backTo_backTo (Nat.le_of_lt hk)
  · rfl

/-- Above level zero a conflict is resolved at the highest level of its clause. -/
theorem Problem.resolve_eq (hpos : 0 < highestLevel s.trail c) : Problem.resolve s c =
    (analyze (Problem.lowered s c).rules (Problem.lowered s c).trail c).map
      (Problem.learn (Problem.lowered s c)) := by
  rw [Problem.resolve, if_neg (Nat.ne_of_gt hpos)]
  rfl

/-- **A false clause at its highest level**: going back to it loses no literal of the clause. -/
structure Problem.Lowers (p : Problem) (s : State) (c : Clause) (s' : State) : Prop where
  sound : s'.Sound p
  below : s'.SettledBelow
  falsified : Falsified s'.trail c
  level : s'.trail.level = highestLevel s.trail c
  top : ∃ l ∈ c, s'.trail.levelOf l.atom = s'.trail.level

/-- Going to the highest level keeps a state sound, and the clause false. -/
theorem State.Sound.lowers (hs : s.Sound p) (hb : s.SettledBelow) (hc : Falsified s.trail c)
    (hpos : 0 < highestLevel s.trail c) : p.Lowers s c (Problem.lowered s c) := by
  obtain ⟨hall, hex⟩ := highestLevel_spec s.trail c
  have hown : ∀ l ∈ c, ∃ e ∈ s.trail.entries, e.literal = l.flip ∧
      e.level = s.trail.levelOf l.atom := by
    intro l hl
    obtain ⟨e, he, hel⟩ := hc l hl
    exact ⟨e, he, hel, (hs.trail.distinct.levelOf_of_flip he hel).symm⟩
  obtain ⟨top, htop, htoplev⟩ := hex hpos
  rw [Problem.lowered]
  split
  · rename_i hback
    obtain ⟨hsound, hquiet⟩ := hs.backTo (Nat.le_of_lt hback) fun e he hle =>
      hb e he (Nat.lt_of_le_of_lt hle hback)
    have hkeep : ∀ l ∈ c, ∃ e ∈ (s.trail.backTo (highestLevel s.trail c)).entries,
        e.literal = l.flip ∧ e.level = s.trail.levelOf l.atom := by
      intro l hl
      obtain ⟨e, he, hel, hlev⟩ := hown l hl
      exact ⟨e, hs.trail.mem_backTo.2 ⟨he, hlev ▸ hall l hl⟩, hel, hlev⟩
    refine ⟨hsound, hquiet.settledBelow, fun l hl => (hkeep l hl).imp fun _ h => ⟨h.1, h.2.1⟩, rfl, ?_⟩
    obtain ⟨e, he, hel, hlev⟩ := hkeep top htop
    exact ⟨top, htop, (hsound.trail.distinct.levelOf_of_flip he hel).trans (hlev.trans htoplev)⟩
  · rename_i hback
    obtain ⟨e, he, -, hlev⟩ := hown top htop
    have hle := hs.trail.level_le e he
    exact ⟨hs, hb, hc, by omega, top, htop, by omega⟩

/-- **A false clause is resolved**, unless it is false at level zero. -/
theorem State.Sound.resolve (hs : s.Sound p) (hb : s.SettledBelow) (hc : Falsified s.trail c) :
    (Problem.resolve s c = none → ∀ l ∈ c, s.trail.TrueBy 0 l.flip) ∧
      ∀ s', Problem.resolve s c = some s' → p.Resolved s c s' := by
  by_cases hzero : highestLevel s.trail c = 0
  · rw [Problem.resolve, if_pos hzero]
    refine ⟨fun _ l hl => ?_, fun s' h => by simp at h⟩
    obtain ⟨e, he, hel⟩ := hc l hl
    refine ⟨e, he, hel, ?_⟩
    rw [← hs.trail.distinct.levelOf_of_flip he hel, ← hzero]
    exact (highestLevel_spec s.trail c).1 l hl
  have hpos : 0 < highestLevel s.trail c := Nat.pos_of_ne_zero hzero
  have hlow := hs.lowers hb hc hpos
  obtain ⟨s', hs', hres⟩ := hlow.sound.resolve_at hlow.below (hlow.level ▸ hpos) hlow.falsified hlow.top
  have hframe := Problem.lowered_frame s c
  rw [Problem.resolve_eq hpos, hs']
  refine ⟨fun h => by simp at h, fun s'' h => ?_⟩
  obtain rfl := Option.some.inj h
  refine ⟨hres.valid, fun val hval => hres.follows val (hframe ▸ hval), ?_,
    hres.best.trans (by rw [hframe]), hres.steps.trans (by rw [hframe])⟩
  obtain ⟨k, l, reason?, hk, ht⟩ := hres.trail
  have hkc : k < highestLevel s.trail c := hlow.level ▸ hk
  exact ⟨k, l, reason?, Nat.lt_of_lt_of_le hk (Problem.level_lowered_le s c),
    by rw [ht, Problem.backTo_lowered hkc]⟩

end Learning

/-! ### Deciding and taking a model -/

/-- All variables have values. -/
def Trail.Complete (t : Trail Trail.unbounded) (n : Nat) : Prop :=
  ∀ v, 1 ≤ v → v ≤ n → t.isOpen v = false

/-- The values of the variables in the model of a trail. -/
abbrev Trail.valuation (t : Trail Trail.unbounded) (n : Nat) : Nat → Bool := Model.value (t.model n)

/-- The valuation of a trail makes its literals true. -/
theorem Trail.valuation_eq (t : Trail Trail.unbounded) {n v : Nat} (hv : v ≤ n) :
    t.valuation n v = t.isTrue (.pos v) := by
  have hlt : v < n + 1 := Nat.lt_succ_of_le hv
  simp [Model.value, Trail.model, hlt]

/-- **The model of a complete trail** makes those literals true that the trail has. -/
theorem Trail.Valid.holds_model {rules : RuleSet Nat} {n : Nat} {t : Trail Trail.unbounded}
    (ht : t.Valid rules n) (hc : t.Complete n) {l : Lit} (hl : 1 ≤ l.atom ∧ l.atom ≤ n) :
    l.holds (t.valuation n) = true ↔ Assigns t.entries l := by
  obtain ⟨v, b⟩ := l
  have hpos : t.isTrue (.pos v) = true ↔ Assigns t.entries (.pos v) := ht.distinct.isTrue_iff
  have hopen : t.isOpen (Literal.pos v).atom = false := hc v hl.1 hl.2
  rw [Literal.holds, t.valuation_eq hl.2]
  cases b with
  | true =>
      show (t.isTrue (.pos v) == true) = true ↔ Assigns t.entries (.pos v)
      rw [beq_true, hpos]
  | false =>
      show (t.isTrue (.pos v) == false) = true ↔ Assigns t.entries (Literal.pos v).flip
      rw [beq_false, Bool.not_eq_true', ← Bool.not_eq_true, hpos]
      constructor
      · intro hnot
        rcases t.isOpen_or_assigns (.pos v) with ho | ha | ha
        · rw [hopen] at ho
          exact absurd ho Bool.false_ne_true
        · exact absurd ha hnot
        · exact ha
      · exact fun ha h => ht.distinct.not_both h ha

/-- A literal of a complete trail that does not hold is false. -/
theorem Trail.Valid.assigns_flip_of_model {rules : RuleSet Nat} {n : Nat}
    {t : Trail Trail.unbounded} (ht : t.Valid rules n) (hc : t.Complete n) {l : Lit}
    (hl : 1 ≤ l.atom ∧ l.atom ≤ n) (hv : l.holds (t.valuation n) = false) :
    Assigns t.entries l.flip := by
  have hl' : 1 ≤ l.flip.atom ∧ l.flip.atom ≤ n := hl
  rw [← ht.holds_model hc hl', Literal.holds_flip, hv]
  rfl

/-- What makes a literal false has been settled, so every rule obeys it. -/
theorem State.Quiet.obeyed (hq : s.Quiet) {l : Lit} (hl : Assigns s.trail.entries l.flip) (id : Nat) :
    ∃ k, Obeyed s.rules s.graph s.trail l k id := by
  obtain ⟨e, he, hel⟩ := hl
  exact ⟨e.level, by simpa [hel] using hq.settled e he id⟩

/-- **The model of a quiet state without open variables meets all rules.** -/
theorem State.Quiet.metBy (hq : s.Quiet) (hs : s.Sound p) (hc : s.trail.Complete p.variableCount) :
    s.rules.MetBy (s.trail.valuation p.variableCount) := by
  have hholds : ∀ r ∈ s.rules.toList, ∀ l ∈ r.literals, Assigns s.trail.entries l →
      l.holds (s.trail.valuation p.variableCount) = true := fun r hr l hl =>
    (hs.trail.holds_model hc ((hs.inRange r hr).range l hl)).2
  have hshort : ∀ r ∈ s.rules.toList, r.literals.length < 2 →
      ∃ l, r.literals = [l] ∧ l.holds (s.trail.valuation p.variableCount) = true := by
    intro r hr hlong
    have hpos := List.length_pos_iff.2 (hs.inhabited r hr)
    obtain ⟨l, hl⟩ := List.length_eq_one_iff.1 (by omega : r.literals.length = 1)
    exact ⟨l, hl, hholds r hr l (by simp [hl]) (hs.units r hr l hl).assigns⟩
  constructor
  case short =>
    intro r hr hlong
    obtain ⟨l, hl, hv⟩ := hshort r hr hlong
    exact ⟨l, by simp [hl], hv⟩
  rw [RuleSet.holds_iff]
  intro r hr
  obtain ⟨id, hid⟩ := RuleSet.exists_get?_of_mem hr
  have hover := hs.inRange r hr
  have hsettled : ∀ f ∈ r.literals, f.holds (s.trail.valuation p.variableCount) = false →
      ∃ k, Obeyed s.rules s.graph s.trail f k id := fun f hf hv =>
    hq.obeyed (hs.trail.assigns_flip_of_model hc (hover.range f hf) hv) id
  by_cases hlong : 2 ≤ r.literals.length
  · cases hk : r.isAtMostOne with
    | true =>
        rw [Rule.holds_atMostOne_iff hk hover.nodup]
        intro a ha b hb hab
        by_cases hv : a.holds (s.trail.valuation p.variableCount) = true
        · exact Or.inl hv
        · obtain ⟨k, hobeyed⟩ := hsettled a ha (by simpa using hv)
          exact Or.inr (hholds r hr b hb (hobeyed.excluded r hid hk ha b hb hab.symm).assigns)
    | false =>
        rw [Rule.holds_iff_exists hk]
        obtain ⟨a, b, hp, -, ha, hb, -⟩ := hs.covers.pair id r hid hk hlong
        by_cases hv : a.holds (s.trail.valuation p.variableCount) = true
        · exact ⟨a, ha, hv⟩
        · obtain ⟨k, hobeyed⟩ := hsettled a ha (by simpa using hv)
          exact ⟨b, hb, hholds r hr b hb ((hobeyed.partner a b hp).1 rfl).assigns⟩
  · obtain ⟨l, hl, hv⟩ := hshort r hr (Nat.lt_of_not_le hlong)
    cases hk : r.isAtMostOne with
    | true =>
        rw [Rule.holds_atMostOne_iff hk hover.nodup]
        exact fun a ha _ _ _ => Or.inl (by rw [hl, List.mem_singleton] at ha; rw [ha, hv])
    | false => exact (Rule.holds_iff_exists hk _).2 ⟨l, by simp [hl], hv⟩

/-- **What comes after propagation without a conflict**: a decision, or a model. -/
inductive Problem.Advances (p : Problem) (s : State) : State → Prop where
  | decide (l : Lit) (isOpen : s.trail.isOpen l.atom = true) :
    Advances p s { s with trail := (s.trail.atLevel (s.trail.level + 1)).push l none }
  | take (complete : s.trail.Complete p.variableCount) :
    Advances p s { s with best? := some (s.trail.model p.variableCount) }

/-- What meets the rules of a sound state meets those of the problem. -/
theorem State.Sound.metBy_problem (hs : s.Sound p) {val : Nat → Bool} (hv : s.rules.MetBy val) :
    p.rules.MetBy val := by
  refine ⟨?_, fun r hr => hv.short r (hs.grows.mem hr)⟩
  have hholds := hv.holds
  rw [RuleSet.holds_iff] at hholds ⊢
  exact fun r hr => hholds r (hs.grows.mem hr)

/-- **Advancing keeps a state valid.** -/
theorem State.Quiet.advance (hp : p.WellFormed) (hs : s.Sound p) (hq : s.Quiet) :
    (p.advance s).Valid p ∧ p.Advances s (p.advance s) := by
  rw [Problem.advance]
  split
  · rename_i l hnext
    have ho : s.trail.isOpen l.atom = true := by simpa using List.find?_some hnext
    have hmem : l ∈ p.objective.decisionOrder p.variableCount :=
      hs.order ▸ List.mem_of_find?_eq_some hnext
    have hrange := (Objective.exists_mem_decisionOrder hp.objective l.atom).1 ⟨l, hmem, rfl⟩
    have hassign : (s.trail.atLevel (s.trail.level + 1)).assign l none =
        ((s.trail.atLevel (s.trail.level + 1)).push l none, true) :=
      Trail.assign_of_isOpen (t := s.trail.atLevel (s.trail.level + 1)) ho none
    rw [hassign]
    refine ⟨?_, .decide l ho⟩
    have hup : State.Quiet { s with trail := s.trail.atLevel (s.trail.level + 1) } :=
      ⟨hq.propagated, fun e he => (hq.settled e he).mono (List.Subset.refl _)⟩
    have hg := (s.trail.atLevel (s.trail.level + 1)).grows_push l none
    refine hup.valid_push (p := p) ⟨hs.grows, hs.inRange, hs.inhabited, fun r hr x hx => ?_, hs.covers,
      hs.trail.decide ho hrange, hs.order, hs.best⟩ fun e he => (hq.settled e he).mono hg.subset
    exact (hs.units r hr x hx).mono hg.subset (Nat.le_refl _)
  · rename_i hnext
    have hc : s.trail.Complete p.variableCount := by
      intro v hv hvn
      obtain ⟨l, hl, rfl⟩ := (Objective.exists_mem_decisionOrder hp.objective v).2 ⟨hv, hvn⟩
      rw [← hs.order] at hl
      simpa using List.find?_eq_none.1 hnext l hl
    refine ⟨State.Quiet.valid (s := { s with best? := _ }) ⟨hq.propagated, hq.settled⟩
      ⟨hs.grows, hs.inRange, hs.inhabited, hs.units, hs.covers, hs.trail, hs.order, fun m hm => ?_⟩,
      .take hc⟩
    obtain rfl := Option.some.inj hm
    exact ⟨Array.size_ofFn, hs.metBy_problem (hq.metBy hs hc)⟩

end Search
end Loadout
