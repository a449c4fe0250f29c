/-
# Propagation reaches every rule

Acceptance of a model never looks at the rules again, so propagation alone has to make
sure of them.  The fact that carries this is about one false literal `f` and one rule:
the rule *obeys* the falsity of `f` when it does not watch `f`, or what it watches
besides is true, at the level of `f` or below (`Obeyed`).  An assignment is *settled*
when all rules obey it (`Settled`).

A look at a rule either makes it obey, moves its watch to a literal that is not false,
or finds a false clause (`lookAtPair_spec`, `excludeOthers_spec`).  Moves do not unsettle
what is settled: the literal that stays in the pair is not false and settled, since its
partner would be true.  So a round over a watch list settles one more
assignment (`propagateFalse_spec`), and rounds up to the end of the trail settle all of
them (`propagateFrom_spec`).  A round that a conflict cuts short settles nothing at the
present level but unsettles nothing below it either, which is why going back on the
trail needs no repair.
-/

import Loadout.Proofs.Search.Watch

namespace Loadout

/-- One rule of the set asks for the clause. -/
def RuleSet.Yields (rules : RuleSet Nat) (c : Search.Clause) : Prop :=
  ∃ r ∈ rules.toList, ∀ val, r.holds val = true → ∃ l ∈ c, l.holds val = true

namespace Search

variable {rules : RuleSet Nat} {n : Nat} {g : WatchGraph} {t t' : Trail Trail.unbounded}

/-- The rule of a number has done what the falsity of a literal at a level asks of it. -/
structure Obeyed (rules : RuleSet Nat) (g : WatchGraph) (t : Trail Trail.unbounded) (f : Lit)
    (k : Nat) (id : Nat) : Prop where
  excluded : ∀ r, rules.get? id = some r → r.isAtMostOne = true → f ∈ r.literals →
    ∀ l ∈ r.literals, l ≠ f → t.TrueBy k l
  partner : ∀ a b, g.pair? id = some (a, b) → (a = f → t.TrueBy k b) ∧ (b = f → t.TrueBy k a)

/-- A rule that obeys goes on to obey on a longer trail. -/
theorem Obeyed.mono {f : Lit} {k id : Nat} (h : Obeyed rules g t f k id)
    (ht : t.entries ⊆ t'.entries) : Obeyed rules g t' f k id where
  excluded := fun r hr hk hf l hl hne => (h.excluded r hr hk hf l hl hne).mono ht (Nat.le_refl _)
  partner := fun a b hp =>
    ⟨fun ha => ((h.partner a b hp).1 ha).mono ht (Nat.le_refl _),
      fun hb => ((h.partner a b hp).2 hb).mono ht (Nat.le_refl _)⟩

/-- What a rule has to obey depends on the pair that it watches only. -/
theorem Obeyed.congr {g' : WatchGraph} {f : Lit} {k id : Nat} (h : Obeyed rules g t f k id)
    (hp : g'.pair? id = g.pair? id) : Obeyed rules g' t f k id where
  excluded := h.excluded
  partner := fun a b hab => h.partner a b (hp ▸ hab)

/-- All rules have done what an assignment asks of them. -/
def Settled (rules : RuleSet Nat) (g : WatchGraph) (t : Trail Trail.unbounded) (e : Assignment) :
    Prop :=
  ∀ id, Obeyed rules g t e.literal.flip e.level id

/-- What is settled stays so on a longer trail. -/
theorem Settled.mono {e : Assignment} (h : Settled rules g t e) (ht : t.entries ⊆ t'.entries) :
    Settled rules g t' e := fun id => (h id).mono ht

/-- What is settled stays so when the trail goes back, if it is still there. -/
theorem Settled.backTo (ht : t.Valid rules n) {k : Nat} {e : Assignment} (hk : e.level ≤ k)
    (h : Settled rules g t e) : Settled rules g (t.backTo k) e := fun id =>
  { excluded := fun r hr ha hf l hl hne =>
      ht.trueBy_backTo hk ((h id).excluded r hr ha hf l hl hne)
    partner := fun a b hp =>
      ⟨fun ha => ht.trueBy_backTo hk (((h id).partner a b hp).1 ha),
        fun hb => ht.trueBy_backTo hk (((h id).partner a b hp).2 hb)⟩ }

/-- All literals of the clause are false. -/
def Falsified (t : Trail Trail.unbounded) (c : Clause) : Prop := ∀ l ∈ c, Assigns t.entries l.flip

/-! ### A look at one rule -/

/-- Excluding the others of an at-most-one rule makes them true, or finds two literals of
it that are false. -/
theorem excludeOthers_spec {r : Rule Nat} {cause : Lit} (hr : r ∈ rules.toList) (hover : r.Over n)
    (hk : r.isAtMostOne = true) (hc : cause ∈ r.literals) :
    ∀ {ls : List Lit} {t : Trail Trail.unbounded}, ls ⊆ r.literals → t.Valid rules n →
      Assigns t.entries cause.flip →
      (excludeOthers cause ls t).1.Valid rules n ∧ t.Grows (excludeOthers cause ls t).1 ∧
      ((excludeOthers cause ls t).2 = none →
        ∀ l ∈ ls, l ≠ cause → Assigns (excludeOthers cause ls t).1.entries l) ∧
      (∀ c, (excludeOthers cause ls t).2 = some c → ∃ l ∈ r.literals, l ≠ cause ∧ c = [cause, l] ∧
        Assigns (excludeOthers cause ls t).1.entries l.flip)
  | [], t, _, ht, _ => by
      simp only [excludeOthers]
      exact ⟨ht, Trail.Grows.refl t, fun _ l hl => absurd hl List.not_mem_nil, fun c h => by
        simp at h⟩
  | l :: ls, t, hls, ht, hf => by
      have hl : l ∈ r.literals := hls (List.mem_cons_self ..)
      have hls' : ls ⊆ r.literals := fun x hx => hls (List.mem_cons_of_mem _ hx)
      rw [excludeOthers]
      by_cases he : l = cause
      · obtain ⟨hv, hg, hn, hs⟩ := excludeOthers_spec hr hover hk hc hls' ht hf
        simp only [he, if_true]
        refine ⟨hv, hg, fun hnone x hx hne => ?_, hs⟩
        rcases List.mem_cons.1 hx with rfl | hx
        · exact absurd rfl hne
        · exact hn hnone x hx hne
      simp only [he, if_false]
      rcases t.isOpen_or_assigns l with ho | ha | ha
      · have hj : Justified rules t.entries ⟨l, t.level, some (.excludedBy cause)⟩ :=
          ⟨hf, fun e => he e.symm, r, hr, hk, hc, hl⟩
        have hg := Trail.grows_push t l (some (.excludedBy cause))
        rw [Trail.assign_of_isOpen ho]
        obtain ⟨hv, hg', hn, hs⟩ := excludeOthers_spec hr hover hk hc hls'
          (ht.push ho (hover.range l hl) hj) (hf.mono hg.subset)
        refine ⟨hv, hg.trans hg', fun hnone x hx hne => ?_, hs⟩
        rcases List.mem_cons.1 hx with rfl | hx
        · exact Assigns.mono hg'.subset ⟨_, List.mem_cons_self .., rfl⟩
        · exact hn hnone x hx hne
      · rw [ht.distinct.assign_of_assigns ha]
        obtain ⟨hv, hg, hn, hs⟩ := excludeOthers_spec hr hover hk hc hls' ht hf
        refine ⟨hv, hg, fun hnone x hx hne => ?_, hs⟩
        rcases List.mem_cons.1 hx with rfl | hx
        · exact ha.mono hg.subset
        · exact hn hnone x hx hne
      · rw [ht.distinct.assign_of_assigns_flip ha]
        refine ⟨ht, Trail.Grows.refl t, fun h => by simp at h, fun c h => ?_⟩
        exact ⟨l, hl, he, (Option.some.inj h).symm, ha⟩

section Looks

variable {id : Nat} {r : Rule Nat} {f : Lit}

/-- What is known when a round comes to a rule. -/
structure Looking (rules : RuleSet Nat) (n : Nat) (t : Trail Trail.unbounded) (id : Nat)
    (r : Rule Nat) (f : Lit) : Prop where
  rule : rules.get? id = some r
  inRange : r.Over n
  trail : t.Valid rules n
  falsified : Assigns t.entries f.flip

/-- The two literals of a rule that watches a false literal. -/
structure Pairs (r : Rule Nat) (f : Lit) (pair : Lit × Lit) (other : Lit) : Prop where
  ordinary : r.isAtMostOne = false
  mem : other ∈ r.literals
  eq : pair = (f, other) ∨ pair = (other, f)
  ne : f ≠ other
  watched : f ∈ r.literals

/-- The other literal of a pair is the one that is not the false one. -/
theorem Pairs.other_eq {pair : Lit × Lit} {other : Lit} (h : Pairs r f pair other) :
    (if pair.1 = f then pair.2 else pair.1) = other := by
  rcases h.eq with rfl | rfl
  · simp
  · simp [h.ne.symm]

/-- All that is not watched is false when there is no literal to move to. -/
theorem Pairs.falsified_of_find?_eq_none {pair : Lit × Lit} {other : Lit}
    (h : Pairs r f pair other) (hl : Looking rules n t id r f)
    (hn : (r.literals.find? fun l => l ≠ pair.1 && l ≠ pair.2 && !t.isFalse l) = none) :
    ∀ l ∈ r.literals, l ≠ other → Assigns t.entries l.flip := by
  intro l hmem hne
  by_cases hf : l = f
  · exact hf ▸ hl.falsified
  · have hno := List.find?_eq_none.1 hn l hmem
    rw [← hl.trail.distinct.isFalse_iff]
    rcases h.eq with rfl | rfl <;> simpa [hf, hne] using hno

/-- What a look at an ordinary rule that watches a false literal comes to. -/
theorem lookAtPair_spec {pair : Lit × Lit} {other : Lit} (h : Pairs r f pair other)
    (hl : Looking rules n t id r f) :
    (∃ t', lookAtPair id r f pair t = .keep t' ∧ t'.Valid rules n ∧ t.Grows t' ∧
      Assigns t'.entries other) ∨
    (∃ new, lookAtPair id r f pair t = .move other new ∧ new ∈ r.literals ∧ new ≠ f ∧
      new ≠ other ∧ ¬Assigns t.entries new.flip) ∨
    (lookAtPair id r f pair t = .conflict t r.literals ∧ Falsified t r.literals) := by
  unfold lookAtPair
  simp only [h.other_eq]
  by_cases htrue : t.isTrue other = true
  · exact Or.inl ⟨t, by simp [htrue], hl.trail, Trail.Grows.refl t,
      hl.trail.distinct.isTrue_iff.1 htrue⟩
  rw [if_neg htrue]
  split
  · rename_i new hnew
    have hmem := List.mem_of_find?_eq_some hnew
    have hcond := List.find?_some hnew
    simp only [Bool.and_eq_true, decide_eq_true_eq, Bool.not_eq_true'] at hcond
    refine Or.inr (Or.inl ⟨new, rfl, hmem, ?_, ?_, ?_⟩)
    · rcases h.eq with rfl | rfl
      · exact hcond.1.1
      · exact hcond.1.2
    · rcases h.eq with rfl | rfl
      · exact hcond.1.2
      · exact hcond.1.1
    · rw [← hl.trail.distinct.isFalse_iff, hcond.2]
      exact Bool.false_ne_true
  · rename_i hnone
    have hrest := h.falsified_of_find?_eq_none hl hnone
    rcases t.isOpen_or_assigns other with ho | ha | ha
    · have hj : Justified rules t.entries ⟨other, t.level, some (.rule id)⟩ :=
        ⟨r, hl.rule, Or.inl h.ordinary, h.mem, hrest⟩
      rw [Trail.assign_of_isOpen ho]
      exact Or.inl ⟨_, rfl, hl.trail.push ho (hl.inRange.range other h.mem) hj,
        Trail.grows_push t other _, _, List.mem_cons_self .., rfl⟩
    · exact absurd (hl.trail.distinct.isTrue_iff.2 ha) htrue
    · rw [hl.trail.distinct.assign_of_assigns_flip ha]
      refine Or.inr (Or.inr ⟨rfl, fun l hmem => ?_⟩)
      by_cases hne : l = other
      · exact hne ▸ ha
      · exact hrest l hmem hne

/-- The pair of a covered rule that watches a false literal. -/
theorem exists_pairs {g' : WatchGraph} (hcov : g'.Covers rules n) (hid : rules.get? id = some r)
    (hk : r.isAtMostOne = false) (hw : id ∈ g'.watching f) :
    ∃ pair other, g'.pair? id = some pair ∧ Pairs r f pair other := by
  obtain ⟨r', hr', hlong⟩ := hcov.long f id hw
  rw [hid] at hr'
  obtain rfl := Option.some.inj hr'
  obtain ⟨a, b, hp, hab, ha, hb, hmem⟩ := hcov.pair id r hid hk hlong
  rcases (hmem f).1 hw with rfl | rfl
  · exact ⟨_, b, hp, hk, hb, Or.inl rfl, hab, ha⟩
  · exact ⟨_, a, hp, hk, ha, Or.inr rfl, hab.symm, hb⟩

/-- A watched pair has the false literal first or second. -/
theorem Pairs.pair?_cases {pair : Lit × Lit} {other : Lit} (h : Pairs r f pair other)
    (hpair : g.pair? id = some pair) :
    g.pair? id = some (f, other) ∨ g.pair? id = some (other, f) := by
  rcases h.eq with rfl | rfl
  · exact Or.inl hpair
  · exact Or.inr hpair

/-- A pair whose other literal is true obeys. -/
theorem Pairs.obeyed {pair : Lit × Lit} {other : Lit} (h : Pairs r f pair other)
    (hid : rules.get? id = some r) (hpair : g.pair? id = some pair) (ht : t.Valid rules n)
    (ho : Assigns t.entries other) : Obeyed rules g t f t.level id where
  excluded := fun r' hr' hk => by
    rw [hid] at hr'
    rw [← Option.some.inj hr', h.ordinary] at hk
    exact absurd hk Bool.false_ne_true
  partner := fun a b hp => by
    rw [hpair] at hp
    obtain rfl := Option.some.inj hp
    have htrue := ht.trueBy_level ho
    rcases h.eq with he | he <;> cases he
    · exact ⟨fun _ => htrue, fun hb => absurd hb.symm h.ne⟩
    · exact ⟨fun ha => absurd ha.symm h.ne, fun _ => htrue⟩

end Looks

/-! ### A round over the rules that watch a literal -/

/-- **A round under way.**  The rules `done` have been looked at and go on watching the false
literal, the rules `todo` are still to be looked at, and the assignments in `settled` stay
settled all the time. -/
structure Sweeping (rules : RuleSet Nat) (n : Nat) (g : WatchGraph) (t : Trail Trail.unbounded)
    (f : Lit) (settled : List Assignment) (done todo : List Nat) : Prop where
  covers : (g.giveBack f (done ++ todo)).Covers rules n
  cleared : g.watching f = []
  trail : t.Valid rules n
  falsified : Assigns t.entries f.flip
  obeyed : ∀ id ∈ done, Obeyed rules g t f t.level id
  settled : ∀ e ∈ settled, e ∈ t.entries ∧ Settled rules g t e

section Rounds

variable {f : Lit} {settled : List Assignment} {done todo : List Nat} {id : Nat} {r : Rule Nat}

/-- The false literal has a place among the watch lists. -/
theorem Sweeping.slot_lt (h : Sweeping rules n g t f settled done todo) :
    WatchGraph.slot f < g.watchers.size := by
  obtain ⟨e, he, hl⟩ := h.falsified
  have hb := h.trail.bounded e he
  rw [Trail.variableOf_of_flip hl] at hb
  exact WatchGraph.slot_lt (by simpa using h.covers.room) hb.2

/-- Giving back what a round looked at changes the list of the false literal only. -/
theorem Sweeping.watching_giveBack (h : Sweeping rules n g t f settled done todo) (l : Lit) :
    (g.giveBack f (done ++ todo)).watching l = if l = f then done ++ todo else g.watching l := by
  rw [WatchGraph.watching_giveBack h.slot_lt, h.cleared, List.nil_append]

/-- A round stays under way while the trail grows. -/
theorem Sweeping.mono (h : Sweeping rules n g t f settled done todo) (ht' : t'.Valid rules n)
    (hgrow : t.Grows t') : Sweeping rules n g t' f settled done todo where
  covers := h.covers
  cleared := h.cleared
  trail := ht'
  falsified := h.falsified.mono hgrow.subset
  obeyed := fun x hx => by
    rw [hgrow.level]
    exact (h.obeyed x hx).mono hgrow.subset
  settled := fun e he =>
    ⟨hgrow.subset (h.settled e he).1, (h.settled e he).2.mono hgrow.subset⟩

/-- The rule keeps its watch: it obeys from now on. -/
theorem Sweeping.keep (h : Sweeping rules n g t f settled done (id :: todo))
    (ho : Obeyed rules g t f t.level id) : Sweeping rules n g t f settled (done ++ [id]) todo where
  covers := by simpa using h.covers
  cleared := h.cleared
  trail := h.trail
  falsified := h.falsified
  obeyed := fun x hx => by
    rcases List.mem_append.1 hx with hx | hx
    · exact h.obeyed x hx
    · exact List.mem_singleton.1 hx ▸ ho
  settled := h.settled

/-- The rule watches another literal, one that is not false.  No settled assignment minds:
the literal that stays would have its partner, which is false, for a true one. -/
theorem Sweeping.move (h : Sweeping rules n g t f settled done (id :: todo)) {pair : Lit × Lit}
    {other new : Lit} (hid : rules.get? id = some r) (hpair : g.pair? id = some pair)
    (hp : Pairs r f pair other) (hnew : new ∈ r.literals) (hrange : new.atom ≤ n) (hf : new ≠ f)
    (ho : new ≠ other) (hopen : ¬Assigns t.entries new.flip) :
    Sweeping rules n ((g.setPair id (other, new)).watch new id) t f settled done todo := by
  have hslot : WatchGraph.slot new < g.watchers.size :=
    WatchGraph.slot_lt (by simpa using h.covers.room) hrange
  have hwatch : ∀ l, ((g.setPair id (other, new)).watch new id).watching l =
      if l = new then g.watching new ++ [id] else g.watching l := by
    intro l
    rw [WatchGraph.watching_watch (by simpa using hslot)]
    rfl
  have hpair' : ∀ id', ((g.setPair id (other, new)).watch new id).pair? id' =
      if id' = id then some (other, new) else g.pair? id' := by
    intro id'
    rw [WatchGraph.pair?_watch, WatchGraph.pair?_setPair]
  have hcleared : ((g.setPair id (other, new)).watch new id).watching f = [] := by
    rw [hwatch, if_neg hf.symm, h.cleared]
  have hfalse : ¬Assigns t.entries f := fun hf' => h.trail.distinct.not_both hf' h.falsified
  have hid_done : id ∉ done := by
    have hnd := h.covers.nodup f
    rw [h.watching_giveBack, if_pos rfl] at hnd
    exact fun hm => (List.nodup_append.1 hnd).2.2 id hm id (List.mem_cons_self ..) rfl
  have hlt : WatchGraph.slot f < ((g.setPair id (other, new)).watch new id).watchers.size := by
    simpa using h.slot_lt
  refine ⟨?_, hcleared, h.trail, h.falsified, fun x hx => ?_, fun e he => ?_⟩
  · refine h.covers.move hid (hp.pair?_cases hpair) hnew hf ho
      (by rw [h.watching_giveBack, if_pos rfl]) (by simp) (fun l => ?_) hpair'
    rw [WatchGraph.watching_giveBack hlt, hcleared, h.watching_giveBack, hwatch]
    by_cases hl : l = f
    · simp [hl]
    · by_cases hl' : l = new
      · subst hl'
        simp [hf]
      · simp [hl, hl']
  · have hne : x ≠ id := fun e => hid_done (e ▸ hx)
    refine ⟨(h.obeyed x hx).excluded, fun a b hab => ?_⟩
    rw [hpair', if_neg hne] at hab
    exact (h.obeyed x hx).partner a b hab
  · obtain ⟨hmem, hs⟩ := h.settled e he
    refine ⟨hmem, fun x => ⟨(hs x).excluded, fun a b hab => ?_⟩⟩
    rw [hpair'] at hab
    split at hab
    · rename_i hx
      subst hx
      obtain ⟨rfl, rfl⟩ := Prod.mk.inj (Option.some.inj hab)
      refine ⟨fun ha => ?_, fun hb => ?_⟩
      · have hpart := (hs x).partner
        rcases hp.eq with rfl | rfl
        · exact absurd ((hpart _ _ hpair).2 ha).assigns hfalse
        · exact absurd ((hpart _ _ hpair).1 ha).assigns hfalse
      · exact absurd ⟨e, hmem, by rw [hb, Literal.flip_flip]⟩ hopen
    · exact (hs x).partner a b hab

/-- An at-most-one rule whose other literals are true obeys. -/
theorem obeyed_of_excluded (hid : rules.get? id = some r) (hk : r.isAtMostOne = true)
    (hcov : ∀ pair, g.pair? id = some pair → ∃ r, rules.get? id = some r ∧ r.isAtMostOne = false)
    (ht : t.Valid rules n) (ho : ∀ l ∈ r.literals, l ≠ f → Assigns t.entries l) :
    Obeyed rules g t f t.level id where
  excluded := fun r' hr' _ _ l hl hne => by
    rw [hid] at hr'
    obtain rfl := Option.some.inj hr'
    exact ht.trueBy_level (ho l hl hne)
  partner := fun a b hp => by
    obtain ⟨r', hr', hk'⟩ := hcov _ hp
    rw [hid] at hr'
    rw [← Option.some.inj hr', hk] at hk'
    exact absurd hk'.symm Bool.false_ne_true

/-- What a round leaves behind: either all rules have been looked at, or it stopped at a
false clause that one rule asks for, with the literal that the round is about. -/
structure Swept (rules : RuleSet Nat) (n : Nat) (t : Trail Trail.unbounded) (f : Lit)
    (settled : List Assignment) (kept : List Nat) (s : Sweep Trail.unbounded) : Prop where
  grows : t.Grows s.trail
  sweeping : ∃ done rest, done ++ rest = kept ++ s.kept ∧
    Sweeping rules n s.graph s.trail f settled done rest ∧ (s.conflict? = none → rest = [])
  conflict : ∀ c, s.conflict? = some c → Falsified s.trail c ∧ rules.Yields c
  watched : ∀ c, s.conflict? = some c → f ∈ c

/-- The rest of a round after a rule that kept its watch. -/
theorem Swept.keep {s : Sweep Trail.unbounded} (hgrow : t.Grows t')
    (h : Swept rules n t' f settled (done ++ [id]) s) :
    Swept rules n t f settled done { s with kept := id :: s.kept } := by
  obtain ⟨hg, ⟨d, rest, hd, hs, hn⟩, hc, hw⟩ := h
  exact ⟨hgrow.trans hg, ⟨d, rest, by simpa using hd, hs, hn⟩, hc, hw⟩

/-- A round that stops at a false clause. -/
theorem Sweeping.stop (h : Sweeping rules n g t f settled done todo) (ht' : t'.Valid rules n)
    (hgrow : t.Grows t') {c : Clause} (hc : Falsified t' c) (hy : rules.Yields c) (hf : f ∈ c) :
    Swept rules n t f settled done ⟨g, t', todo, some c⟩ where
  grows := hgrow
  sweeping := ⟨done, todo, rfl, h.mono ht' hgrow, fun hnone => by simp at hnone⟩
  conflict := fun c' hc' => Option.some.inj hc' ▸ ⟨hc, hy⟩
  watched := fun c' hc' => Option.some.inj hc' ▸ hf

/-- **A round over watching rules** keeps what a round under way has. -/
theorem sweep_spec (hover : ∀ r ∈ rules.toList, r.Over n) :
    ∀ {todo : List Nat} {g : WatchGraph} {t : Trail Trail.unbounded} {done : List Nat},
      Sweeping rules n g t f settled done todo →
      Swept rules n t f settled done (sweep rules f todo g t)
  | [], g, t, done, h =>
      ⟨Trail.Grows.refl t, ⟨done, [], rfl, h, fun _ => rfl⟩, fun c hc => by simp [sweep] at hc,
        fun c hc => by simp [sweep] at hc⟩
  | id :: todo, g, t, done, h => by
      have hmem : id ∈ (g.giveBack f (done ++ id :: todo)).watching f := by
        rw [h.watching_giveBack, if_pos rfl]
        simp
      obtain ⟨r, hid, hlong⟩ := h.covers.long f id hmem
      have hr := RuleSet.mem_of_get? hid
      have hl : Looking rules n t id r f := ⟨hid, hover r hr, h.trail, h.falsified⟩
      rw [sweep]
      simp only [hid]
      unfold lookAt
      cases hk : r.isAtMostOne with
      | true =>
          have hf : f ∈ r.literals := (h.covers.atMostOne id r hid hk hlong f).1 hmem
          have hpaired : ∀ pair, g.pair? id = some pair →
              ∃ r, rules.get? id = some r ∧ r.isAtMostOne = false := fun pair hp => by
            obtain ⟨r', hr', hk', -⟩ := h.covers.paired id pair hp
            exact ⟨r', hr', hk'⟩
          obtain ⟨hv, hg, hn, hs⟩ := excludeOthers_spec hr (hover r hr) hk hf
            (List.Subset.refl _) h.trail h.falsified
          simp only [if_true]
          rcases hx : excludeOthers f r.literals t with ⟨t', _ | c⟩
          · simp only [hx] at hv hg hn
            have ho := obeyed_of_excluded hid hk hpaired hv (hn trivial)
            exact (sweep_spec hover ((h.mono hv hg).keep ho)).keep hg
          · simp only [hx] at hv hg hs
            obtain ⟨l, hl', hne, rfl, hfalse⟩ := hs c rfl
            refine h.stop hv hg (fun x hx => ?_) ⟨r, hr, fun val hval => ?_⟩ (List.mem_cons_self ..)
            · rcases List.mem_cons.1 hx with rfl | hx
              · exact h.falsified.mono hg.subset
              · exact List.mem_singleton.1 hx ▸ hfalse
            · rcases (Rule.holds_atMostOne_iff hk (hover r hr).nodup val).1 hval f hf l hl'
                hne.symm with hv | hv
              · exact ⟨f, by simp, hv⟩
              · exact ⟨l, by simp, hv⟩
      | false =>
          obtain ⟨pair, other, hpair, hp⟩ := exists_pairs h.covers hid hk hmem
          rw [WatchGraph.pair?_giveBack] at hpair
          simp only [hpair]
          rcases lookAtPair_spec hp hl with ⟨t', hlook, hv, hg, ho⟩ | ⟨new, hlook, hnew, hf, ho, hopen⟩ |
            ⟨hlook, hfalse⟩
          · simp only [hlook]
            exact (sweep_spec hover ((h.mono hv hg).keep (hp.obeyed hid hpair hv ho))).keep hg
          · simp only [hlook]
            exact sweep_spec hover
              (h.move hid hpair hp hnew ((hover r hr).range new hnew).2 hf ho hopen)
          · simp only [hlook]
            exact h.stop h.trail (Trail.Grows.refl t) hfalse
              ⟨r, hr, fun val hval => (Rule.holds_iff_exists hk val).1 hval⟩ hp.watched

/-- A rule that does not watch a literal obeys its falsity. -/
theorem obeyed_of_not_mem (hcov : g.Covers rules n) {k : Nat} (hid : id ∉ g.watching f) :
    Obeyed rules g t f k id where
  excluded := fun r hr hk hf l hl hne => by
    have hlong : 2 ≤ r.literals.length := by
      by_contra hshort
      match hlits : r.literals, hf, hl with
      | [], hf, _ => exact absurd hf List.not_mem_nil
      | [x], hf, hl => exact hne ((List.mem_singleton.1 hl).trans (List.mem_singleton.1 hf).symm)
      | _ :: _ :: _, _, _ => simp [hlits] at hshort
    exact absurd ((hcov.atMostOne id r hr hk hlong f).2 hf) hid
  partner := fun a b hp => by
    obtain ⟨r, -, -, -, -, -, -, hmem⟩ := hcov.of_pair hp
    exact ⟨fun ha => absurd ((hmem f).2 (Or.inl ha.symm)) hid,
      fun hb => absurd ((hmem f).2 (Or.inr hb.symm)) hid⟩

/-- What propagation keeps, and what its conflicts are: false clauses that one rule asks for,
with a literal that became false at the present level. -/
structure Propagated (rules : RuleSet Nat) (n : Nat) (t : Trail Trail.unbounded)
    (g' : WatchGraph) (t' : Trail Trail.unbounded) (conflict? : Option Clause) : Prop where
  covers : g'.Covers rules n
  trail : t'.Valid rules n
  grows : t.Grows t'
  conflict : ∀ c, conflict? = some c → Falsified t' c ∧ rules.Yields c
  fresh : ∀ c, conflict? = some c → ∃ e ∈ t'.entries, e.level = t'.level ∧ e.literal.flip ∈ c

/-- A round is a sweep over the rules that watch the literal, which get it back afterwards. -/
theorem propagateFalse_eq (rules : RuleSet Nat) (g : WatchGraph) (t : Trail Trail.unbounded)
    (f : Lit) {s : Sweep Trail.unbounded} (hs : sweep rules f (g.watching f) (g.clear f) t = s) :
    propagateFalse rules g t f = (s.graph.giveBack f s.kept, s.trail, s.conflict?) := by
  subst hs
  rfl

/-- **A round settles the assignment that it is about**, unless it finds a conflict, and
unsettles none. -/
theorem propagateFalse_spec (hover : ∀ r ∈ rules.toList, r.Over n) (hcov : g.Covers rules n)
    (ht : t.Valid rules n) {e : Assignment} (he : e ∈ t.entries) (hlevel : e.level = t.level)
    (hs : ∀ a ∈ settled, a ∈ t.entries ∧ Settled rules g t a) {g' : WatchGraph}
    {t' : Trail Trail.unbounded} {c? : Option Clause}
    (hp : propagateFalse rules g t e.literal.flip = (g', t', c?)) :
    Propagated rules n t g' t' c? ∧ (∀ a ∈ settled, Settled rules g' t' a) ∧
      (c? = none → Settled rules g' t' e) := by
  have hfalse : Assigns t.entries e.literal.flip.flip := ⟨e, he, by simp⟩
  have hatom : e.literal.flip.atom ≤ n := (ht.bounded e he).2
  generalize hf : e.literal.flip = f at hp hfalse hatom
  have hslot : WatchGraph.slot f < (g.clear f).watchers.size :=
    WatchGraph.slot_lt (by simpa [WatchGraph.clear] using hcov.room) hatom
  have hstart : Sweeping rules n (g.clear f) t f settled [] (g.watching f) := by
    refine ⟨hcov.congr (by simp [WatchGraph.clear]) (fun l => ?_) fun _ => rfl, ?_, ht, hfalse,
      fun _ h => absurd h List.not_mem_nil, fun a ha => ⟨(hs a ha).1, fun id => ?_⟩⟩
    · rw [WatchGraph.watching_giveBack hslot, WatchGraph.watching_clear, WatchGraph.watching_clear]
      by_cases hl : l = f <;> simp [hl]
    · rw [WatchGraph.watching_clear, if_pos rfl]
    · exact ((hs a ha).2 id).congr rfl
  have hswept := sweep_spec hover hstart
  generalize hsw : sweep rules f (g.watching f) (g.clear f) t = s at hswept
  obtain ⟨hgrow, ⟨done, rest, hlist, hsweep, hnone⟩, hconf, hwatched⟩ := hswept
  rw [propagateFalse_eq rules g t f hsw, Prod.mk.injEq, Prod.mk.injEq] at hp
  obtain ⟨rfl, rfl, rfl⟩ := hp
  rw [List.nil_append] at hlist
  have hcov' := hsweep.covers
  rw [hlist] at hcov'
  have hfresh : ∀ c, s.conflict? = some c →
      ∃ e ∈ s.trail.entries, e.level = s.trail.level ∧ e.literal.flip ∈ c := fun c hc =>
    ⟨e, hgrow.subset he, hlevel.trans hgrow.level.symm, hf ▸ hwatched c hc⟩
  refine ⟨⟨hcov', hsweep.trail, hgrow, hconf, hfresh⟩,
    fun a ha id => ((hsweep.settled a ha).2 id).congr rfl, fun hn id => ?_⟩
  obtain rfl := hnone hn
  rw [List.append_nil] at hlist
  rw [hf, hlevel, ← hgrow.level]
  by_cases hid : id ∈ done
  · exact (hsweep.obeyed id hid).congr rfl
  · refine obeyed_of_not_mem hcov' ?_
    have hw := hsweep.watching_giveBack f
    rw [List.append_nil, if_pos rfl, hlist] at hw
    rw [hw, ← hlist]
    exact hid

/-- **Propagation settles every assignment**, or ends in a conflict with all levels below
the present one settled. -/
theorem propagateFrom_spec (hover : ∀ r ∈ rules.toList, r.Over n) :
    ∀ {fuel : Nat} {g : WatchGraph} {t : Trail Trail.unbounded} {i : Nat}, g.Covers rules n →
      t.Valid rules n → (∀ e ∈ t.before i, Settled rules g t e) →
      (∀ e ∈ t.after i, e.level = t.level) → i ≤ t.size → n < fuel + i →
      ∀ {g' : WatchGraph} {t' : Trail Trail.unbounded} {i' : Nat} {c? : Option Clause},
        propagateFrom rules fuel g t i = (g', t', i', c?) →
        Propagated rules n t g' t' c? ∧
          (c? = none → i' = t'.size ∧ ∀ e ∈ t'.entries, Settled rules g' t' e) ∧
          ∀ e ∈ t'.entries, e.level < t'.level → Settled rules g' t' e
  | 0, g, t, i, _, ht, _, _, hi, hfuel, _, _, _, _, _ => by
      have := ht.length_le
      simp only [Trail.size] at hi
      omega
  | fuel + 1, g, t, i, hcov, ht, hbefore, hafter, hi, hfuel, g', t', i', c?, hp => by
      rw [propagateFrom] at hp
      cases hat : t.at? i with
      | none =>
          simp only [hat, Prod.mk.injEq] at hp
          obtain ⟨rfl, rfl, rfl, rfl⟩ := hp
          have hsize : i = t.size := by
            rw [Trail.at?_eq, List.getElem?_eq_none_iff, List.length_reverse] at hat
            exact Nat.le_antisymm hi hat
          have hall : ∀ e ∈ t.entries, Settled rules g t e := fun e he =>
            hbefore e (hsize ▸ Trail.mem_before_size.2 he)
          exact ⟨⟨hcov, ht, Trail.Grows.refl t, fun c hc => by simp at hc, fun c hc => by simp at hc⟩,
            fun _ => ⟨hsize, hall⟩, fun e he _ => hall e he⟩
      | some e =>
          simp only [hat] at hp
          have hmem : e ∈ t.entries := Trail.mem_of_mem_after (Trail.mem_after_of_at? hat)
          have hlevel := hafter e (Trail.mem_after_of_at? hat)
          have hi' : i + 1 ≤ t.size := by
            rw [Trail.at?_eq] at hat
            have hlt := (List.getElem?_eq_some_iff.1 hat).1
            rwa [List.length_reverse] at hlt
          rcases hround : propagateFalse rules g t e.literal.flip with ⟨g₁, t₁, c₁⟩
          obtain ⟨hprop, hkeep, hdone⟩ := propagateFalse_spec hover hcov ht hmem hlevel
            (fun a (ha : a ∈ t.before i) => ⟨Trail.mem_of_mem_before ha, hbefore a ha⟩) hround
          have hbefore₁ : t₁.before i = t.before i := hprop.grows.before_eq hi
          cases c₁ with
          | some c =>
              simp only [hround, Prod.mk.injEq] at hp
              obtain ⟨rfl, rfl, rfl, rfl⟩ := hp
              refine ⟨hprop, fun h => by simp at h, fun a ha hlt => ?_⟩
              rcases Trail.mem_before_or_after (i := i) ha with hb | hb
              · exact hkeep a (hbefore₁ ▸ hb)
              · rw [hprop.grows.level] at hlt
                rcases hprop.grows.mem_after hi hb with hb | hb
                · exact absurd (hafter a hb) (Nat.ne_of_lt hlt)
                · exact absurd hb (Nat.ne_of_lt hlt)
          | none =>
              simp only [hround] at hp
              have hbefore' : ∀ a ∈ t₁.before (i + 1), Settled rules g₁ t₁ a := by
                intro a ha
                rw [hprop.grows.before_eq hi', Trail.mem_before_succ hat] at ha
                rcases ha with ha | rfl
                · exact hkeep a ha
                · exact hdone rfl
              have hafter' : ∀ a ∈ t₁.after (i + 1), a.level = t₁.level := by
                intro a ha
                rw [hprop.grows.level]
                exact (hprop.grows.mem_after hi' ha).elim
                  (fun h => hafter a (Trail.mem_after_of_mem_after_succ h)) id
              obtain ⟨hprop', hnone, hsome⟩ := propagateFrom_spec hover hprop.covers hprop.trail
                hbefore' hafter' (Nat.le_trans hi' hprop.grows.size_le) (by omega) hp
              exact ⟨⟨hprop'.covers, hprop'.trail, hprop.grows.trans hprop'.grows, hprop'.conflict,
                hprop'.fresh⟩, hnone, hsome⟩

end Rounds

end Search
end Loadout
