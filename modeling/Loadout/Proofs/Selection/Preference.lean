/-
# Which selections are preferred

Of two consistent selections that one is preferred which has the first candidate in order
that only one of them has, where candidates that are loaded only if something recommends
them do not count at first; then the one that leaves fewer recommended targets unmet; and
then the one that leaves out the first of the candidates that did not count
(`Store.Prefers`).

The tiers of an instance for selecting score just that.  A tier of one literal is worth one
or nothing, so a score that is not beaten has the first candidate in which it differs
(`Objective.exists_first_lt`); the tier of unmet targets is worth what is not given up
(`Instance.Plain.weigh_unmet`), and a valuation gives up no less than its selection leaves
unmet (`Instance.Plain.unmet_le`).  A selection has a valuation that gives up just that
(`Instance.ofSelection`).
-/

import Loadout.Proofs.Selection.Choices

namespace Loadout

/-! ### Comparing scores tier by tier -/

namespace Objective

/-- Scores are compared tier by tier, so what comes first decides first. -/
theorem compareScores_append : ∀ {a a' : List Nat}, a.length = a'.length → ∀ b b' : List Nat,
    compareScores (a ++ b) (a' ++ b') = (compareScores a a').then (compareScores b b')
  | [], [], _, _, _ => rfl
  | x :: a, x' :: a', h, b, b' => by
      simp only [List.cons_append, compareScores, compareScores_append (Nat.succ_inj.1 h) b b',
        Ordering.then_assoc]

/-- Scores that compare as equal are equal. -/
theorem eq_of_compareScores {a b : List Nat} (h : compareScores a b = .eq) : a = b := by
  rw [compareScores_eq_compare] at h
  exact Std.LawfulEqOrd.eq_of_compare h

/-- **The lesser of two scores falls short in the first tier in which they differ.** -/
theorem exists_first_lt {α : Type} {f g : α → Nat} : ∀ {l : List α},
    compareScores (l.map f) (l.map g) = .lt →
      ∃ before x after, l = before ++ x :: after ∧ (∀ y ∈ before, f y = g y) ∧ f x < g x
  | [], h => by simp at h
  | x :: l, h => by
      simp only [List.map_cons, compareScores] at h
      rcases Nat.lt_trichotomy (f x) (g x) with hlt | heq | hgt
      · exact ⟨[], x, l, rfl, fun y hy => absurd hy List.not_mem_nil, hlt⟩
      · rw [heq, Nat.compare_eq_eq.2 rfl, Ordering.eq_then] at h
        obtain ⟨before, y, after, rfl, hsame, hlt⟩ := exists_first_lt h
        exact ⟨x :: before, y, after, rfl, List.forall_mem_cons.2 ⟨heq, hsame⟩, hlt⟩
      · rw [Nat.compare_eq_gt.2 hgt] at h
        exact Ordering.noConfusion h

variable {α : Type}

/-- Tiers without literals do not count. -/
theorem compareScores_ofTiers (tiers : List (List (Literal α × Nat))) (w v : α → Bool) :
    compareScores ((ofTiers tiers).score w) ((ofTiers tiers).score v) =
      compareScores (tiers.map fun t => weigh t (·.holds w)) (tiers.map fun t => weigh t (·.holds v)) := by
  rw [score, score, ofTiers]
  induction tiers with
  | nil => rfl
  | cons t tiers ih =>
      cases t with
      | nil =>
          have hzero : ∀ u : α → Bool, weigh ([] : List (Literal α × Nat)) (·.holds u) = 0 :=
            fun _ => rfl
          simp only [List.filter_cons, List.isEmpty_nil, Bool.not_true, Bool.false_eq_true, if_false,
            List.map_cons, compareScores, hzero, Nat.compare_eq_eq.2, Ordering.eq_then]
          exact ih
      | cons x t =>
          simp only [List.filter_cons, List.isEmpty_cons, Bool.not_false, if_true, List.map_cons,
            compareScores]
          rw [ih]

/-- A tier of one literal is worth one or nothing. -/
theorem weigh_singleton (l : Literal α) (counts : Literal α → Bool) :
    weigh [(l, 1)] counts = if counts l then 1 else 0 := by
  cases h : counts l <;> simp [weigh, h, UInt64.size]

end Objective

namespace Store

/-- At the first candidate of a list that only one of two selections has, the first selection
has it. -/
def FirstIn (cs : List Candidate) (a b : List CandidateId) : Prop :=
  ∃ before c after, cs = before ++ c :: after ∧ (∀ x ∈ before, x.id ∈ a ↔ x.id ∈ b) ∧
    c.id ∈ a ∧ c.id ∉ b

/-- Whether the store has something that meets a dependency. -/
def canMeet (s : Store) (d : Dependency) : Bool := s.records.any (·.meets d)

/-- The targets of recommendations that could be met, each once. -/
def recommended (s : Store) : List String :=
  (s.records.flatMap fun c => (c.descriptor.dependencies.filter fun d =>
    d.relation = .recommends && s.canMeet d).map (·.target)).eraseDups

/-- What is recommended is the target of a recommendation that could be met. -/
theorem mem_recommended {s : Store} {target : String} :
    target ∈ s.recommended ↔ ∃ c ∈ s.records, ∃ d ∈ c.descriptor.dependencies,
      d.relation = .recommends ∧ s.canMeet d = true ∧ d.target = target := by
  simp only [recommended, List.mem_eraseDups, List.mem_flatMap, List.mem_map, List.mem_filter,
    Bool.and_eq_true, decide_eq_true_eq, and_assoc]

/-- Whether a selected candidate recommends a target in vain, although it could be met. -/
def isUnmet (s : Store) (selection : List CandidateId) (target : String) : Bool :=
  s.records.any fun c => selection.contains c.id && c.descriptor.dependencies.any fun d =>
    d.relation = .recommends && d.target = target && s.canMeet d &&
      !s.records.any fun m => selection.contains m.id && m.meets d

/-- A target is unmet where a selected candidate recommends it, it could be met, and nothing
selected meets it. -/
theorem isUnmet_iff {s : Store} {selection : List CandidateId} {target : String} :
    s.isUnmet selection target = true ↔ ∃ c ∈ s.records, c.id ∈ selection ∧
      ∃ d ∈ c.descriptor.dependencies, d.relation = .recommends ∧ d.target = target ∧
        s.canMeet d = true ∧ ¬∃ m ∈ s.records, m.id ∈ selection ∧ m.meets d = true := by
  simp only [isUnmet, List.any_eq_true, Bool.and_eq_true, List.contains_eq_mem,
    decide_eq_true_eq, Bool.not_eq_true', ← Bool.not_eq_true, and_assoc]

/-- The recommended targets that a selection leaves unmet. -/
def unmet (s : Store) (selection : List CandidateId) : List String :=
  s.recommended.filter (s.isUnmet selection)

/-- The candidates in order that are loaded only where something recommends them, or the
others. -/
def deferred (s : Store) (order : List CandidateId) (is : Bool) : List Candidate :=
  (s.getAll order).filter fun c => Instance.isDeferred c == is

/-- **The first selection is preferred to the second one.** -/
def Prefers (s : Store) (order a b : List CandidateId) : Prop :=
  FirstIn (s.deferred order false) a b ∨
    ((∀ c ∈ s.deferred order false, c.id ∈ a ↔ c.id ∈ b) ∧
      ((s.unmet a).length < (s.unmet b).length ∨
        ((s.unmet a).length = (s.unmet b).length ∧ FirstIn (s.deferred order true) b a)))

end Store

/-! ### The tier of unmet targets -/

namespace Instance

variable {i : Instance} {w v : Choice → Bool}

/-- The tier that wants no target to be given up. -/
def unmetTier (i : Instance) : List (Literal Choice × Nat) :=
  i.targets.map fun target => (.neg (.unmet target), 1)

/-- To avoid unmet targets is the tier that wants none to be given up. -/
theorem avoid_unmet : i.avoid unmetCost? = i.unmetTier := by
  rw [avoid, unmetTier, targets, List.map_filterMap]
  refine List.filterMap_congr fun c _ => ?_
  cases c <;> rfl

namespace Plain

/-- **The tiers of an instance for selecting**: candidates, unmet targets and candidates that
nothing asks for. -/
theorem tiers_eq (h : i.Plain) : i.tiers =
    (i.store.deferred i.order false).map (fun c => [(selected c.id, 1)]) ++ [i.unmetTier] ++
      (i.store.deferred i.order true).map fun c => [((selected c.id).flip, 1)] := by
  have hfalse : ∀ c : Candidate, (!isDeferred c) = (isDeferred c == false) := fun c => by
    cases isDeferred c <;> rfl
  have htrue : ∀ c : Candidate, isDeferred c = (isDeferred c == true) := fun c => by
    cases isDeferred c <;> rfl
  have hplain : i.candidates.filter (fun c => !isDeferred c) = i.store.deferred i.order false :=
    List.filter_congr fun c _ => hfalse c
  have hlast : i.candidates.filter isDeferred = i.store.deferred i.order true :=
    List.filter_congr fun c _ => htrue c
  rw [tiers, purposeTiers, h.purpose, List.nil_append, hplain, hlast, ← avoid_unmet]
  rfl

/-- Only targets that are recommended can be given up. -/
theorem recommended_of_mem_targets (h : i.Plain) {target : String} (ht : target ∈ i.targets) :
    target ∈ i.store.recommended := by
  obtain ⟨c, hc, d, hd, hrel, hmet, rfl⟩ := h.grounded.occurs (mem_targets.1 ht)
  obtain ⟨m, hm, hmd⟩ := (exists_offer_iff h.isRepair_eq).1 hmet
  exact Store.mem_recommended.2 ⟨c, hc, d, hd, hrel, List.any_eq_true.2 ⟨m, hm, hmd⟩, rfl⟩

/-- Every target that is recommended can be given up. -/
theorem mem_targets_of_recommended (h : i.Plain) {target : String}
    (ht : target ∈ i.store.recommended) : target ∈ i.targets := by
  obtain ⟨c, hc, d, hd, hrel, hmeet, rfl⟩ := Store.mem_recommended.1 ht
  obtain ⟨index, hindex⟩ := List.getElem?_of_mem hd
  obtain ⟨m, hm, hmd⟩ := List.any_eq_true.1 hmeet
  have hmem : selected m.id ∈ i.matchLiterals d (i.store.matching d) :=
    h.grounded.mem_matchLiterals_all.2 ⟨_, ofCandidate_mem_offers hm, hmd, rfl⟩
  have hne : (i.matchLiterals d (i.store.matching d)).isEmpty = false :=
    List.isEmpty_eq_false_iff_exists_mem.2 ⟨_, hmem⟩
  generalize hrule : Rule.implication (selected c.id) (i.matchLiterals d (i.store.matching d) ++
    [.pos (.unmet d.target)]) .recommends = r
  have hfamily : i.dependencyRules c.id d index = [r] := by
    simp [dependencyRules, hrel, recommendsRules, hne, hrule]
  have hr : r ∈ i.allDependencyRules := by
    refine List.mem_flatMap.2 ⟨c, h.mem_candidates.2 hc, List.mem_flatMap.2
      ⟨(d, index), List.mem_zipIdx_iff_getElem?.2 hindex, ?_⟩⟩
    show r ∈ i.dependencyRules c.id d index
    rw [hfamily]
    exact List.mem_singleton_self _
  have hl : Literal.pos (Choice.unmet d.target) ∈ r.literals := by
    rw [← hrule]
    exact Rule.mem_of.2 (by simp)
  exact mem_targets.2 (mem_choices.2 (Or.inr (Or.inl (mem_atomsOf hr hl))))

/-- **What can be given up is what is recommended and could be met.** -/
theorem mem_targets_iff (h : i.Plain) {target : String} :
    target ∈ i.targets ↔ target ∈ i.store.recommended :=
  ⟨h.recommended_of_mem_targets, h.mem_targets_of_recommended⟩

/-- The targets that can be given up are the recommended ones, in some order. -/
theorem targets_perm (h : i.Plain) : i.targets.Perm i.store.recommended :=
  (List.perm_ext_iff_of_nodup nodup_targets (nodup_eraseDups _)).2 fun _ => h.mem_targets_iff

end Plain

/-! ### Valuations and selections -/

/-- What is given up by a valuation. -/
def givenUp (i : Instance) (w : Choice → Bool) : List String :=
  i.targets.filter fun target => w (.unmet target)

namespace Plain

/-- What is given up is read off the choices that come up. -/
theorem givenUp_eq (w : Choice → Bool) :
    i.givenUp w = (i.choices.filter w).filterMap unmetTarget? := by
  rw [givenUp, targets, List.filter_filterMap, List.filterMap_filter]
  refine List.filterMap_congr fun c _ => ?_
  cases c with
  | unmet target => cases h : w (.unmet target) <;> simp [unmetTarget?, h]
  | _ => simp [unmetTarget?]

/-- The tier is worth the targets that are not given up. -/
theorem weigh_add_givenUp (hfits : i.targets.length < UInt64.size) (w : Choice → Bool) :
    Objective.weigh i.unmetTier (·.holds w) + (i.givenUp w).length = i.targets.length := by
  rw [givenUp_eq, ← spent_unmet, ← avoid_unmet, targets, ← spent_unmet]
  exact weigh_avoid (by rwa [spent_unmet]) w

/-- **A valuation gives up what its selection leaves unmet.** -/
theorem unmet_le (h : i.Plain) (hheeds : i.Heeds v) :
    (i.store.unmet (i.chosen v)).length ≤ (i.givenUp v).length := by
  have hperm : (i.givenUp v).Perm (i.store.recommended.filter fun target => v (.unmet target)) :=
    h.targets_perm.filter _
  rw [hperm.length_eq, Store.unmet]
  refine (List.monotone_filter_right _ fun target hunmet => ?_).length_le
  obtain ⟨c, hc, hs, d, hd, hrel, rfl, hmeet, hnone⟩ := Store.isUnmet_iff.1 hunmet
  have hex : ∃ m ∈ i.store.records, m.meets d = true := by
    simpa [Store.canMeet] using hmeet
  refine (hheeds c hc ((h.id_mem_chosen hc).1 hs) d hd hrel hex).resolve_left ?_
  rintro ⟨m, hm, hmd, hv⟩
  exact hnone ⟨m, hm, (h.id_mem_chosen hm).2 hv, hmd⟩

end Plain

/-- **The valuation of a selection**: it gives up what the selection leaves unmet. -/
def ofSelection (s : Store) (selection : List CandidateId) : Choice → Bool
  | .candidate id => selection.contains id
  | .unmet target => s.isUnmet selection target
  | _ => false

namespace Plain

/-- The valuation of a selection selects it. -/
theorem chosen_ofSelection (h : i.Plain) {selection : List CandidateId}
    (hknown : ∀ id ∈ selection, id ∈ i.store.ids) (id : CandidateId) :
    id ∈ i.chosen (ofSelection i.store selection) ↔ id ∈ selection := by
  rw [chosen, List.mem_filter, h.order]
  simp only [ofSelection, List.contains_eq_mem, decide_eq_true_eq]
  exact and_iff_right_of_imp (hknown id)

/-- **A consistent selection meets the rules** with what it leaves unmet given up. -/
theorem holds_ofSelection (h : i.Plain) {selection : List CandidateId}
    (hcon : i.store.Consistent i.preselected selection) :
    ∀ r ∈ i.ruleList, r.holds (ofSelection i.store selection) = true := by
  have hchosen := hcon.congr fun id => (h.chosen_ofSelection hcon.known id).symm
  refine h.holds_of_consistent hchosen fun c hc hv d hd hrel hex => ?_
  simp only [ofSelection, List.contains_eq_mem, decide_eq_true_eq] at hv ⊢
  by_cases hmet : ∃ m ∈ i.store.records, m.meets d = true ∧ m.id ∈ selection
  · exact Or.inl hmet
  · refine Or.inr (Store.isUnmet_iff.2 ⟨c, hc, hv, d, hd, hrel, rfl, ?_, ?_⟩)
    · simpa [Store.canMeet] using hex
    · rintro ⟨m, hm, hs, hmd⟩
      exact hmet ⟨m, hm, hmd, hs⟩

/-- The valuation of a selection gives up as much as the selection leaves unmet. -/
theorem givenUp_ofSelection (h : i.Plain) (selection : List CandidateId) :
    (i.givenUp (ofSelection i.store selection)).length = (i.store.unmet selection).length :=
  (h.targets_perm.filter _).length_eq

/-! ### The best valuation -/

/-- What a candidate is worth that should be selected, or left out. -/
def worth (wanted : Bool) (w : Choice → Bool) (c : Candidate) : Nat :=
  if w (.candidate c.id) == wanted then 1 else 0

/-- A candidate is worth the same just where it is selected by both or by neither. -/
theorem worth_eq_iff {wanted : Bool} {c : Candidate} :
    worth wanted w c = worth wanted v c ↔ (w (.candidate c.id) = true ↔ v (.candidate c.id) = true) := by
  rw [worth, worth]
  cases wanted <;> cases w (.candidate c.id) <;> cases v (.candidate c.id) <;> simp

/-- A candidate is worth less just where the second valuation does with it what is wanted, and the
first does not. -/
theorem worth_lt_iff {wanted : Bool} {c : Candidate} :
    worth wanted w c < worth wanted v c ↔
      w (.candidate c.id) = !wanted ∧ v (.candidate c.id) = wanted := by
  rw [worth, worth]
  cases wanted <;> cases w (.candidate c.id) <;> cases v (.candidate c.id) <;> simp

/-- **How valuations compare**: by the candidates, then by what is given up, then by the
candidates that nothing asks for. -/
theorem compareScores_eq (h : i.Plain) (w v : Choice → Bool) :
    Objective.compareScores (i.encode.objective.score w) (i.encode.objective.score v) =
      (Objective.compareScores ((i.store.deferred i.order false).map (worth true w))
        ((i.store.deferred i.order false).map (worth true v))).then
      ((compare (Objective.weigh i.unmetTier (·.holds w))
        (Objective.weigh i.unmetTier (·.holds v))).then
      (Objective.compareScores ((i.store.deferred i.order true).map (worth false w))
        ((i.store.deferred i.order true).map (worth false v)))) := by
  have hselected : ∀ u : Choice → Bool, (fun c : Candidate =>
      Objective.weigh [(selected c.id, 1)] (·.holds u)) = worth true u := by
    intro u
    funext c
    rw [Objective.weigh_singleton, worth]
    rfl
  have hleft : ∀ u : Choice → Bool, (fun c : Candidate =>
      Objective.weigh [((selected c.id).flip, 1)] (·.holds u)) = worth false u := by
    intro u
    funext c
    rw [Objective.weigh_singleton, worth]
    rfl
  have hone : ∀ a b : Nat, Objective.compareScores [a] [b] = compare a b := fun a b => by
    rw [Objective.compareScores, Objective.compareScores, Ordering.then_eq]
  rw [encode, Objective.compareScores_ofTiers, h.tiers_eq]
  simp only [List.map_append, List.map_map, Function.comp_def, hselected, hleft, List.map_cons,
    List.map_nil]
  rw [Objective.compareScores_append (by simp), Objective.compareScores_append (by simp), hone,
    Ordering.then_assoc]

/-- Where the worths of candidates in order are smaller, the first candidate that differs decides.
-/
theorem firstIn_of_lt (h : i.Plain) {wanted : Bool} {cs : List Candidate}
    (hcs : ∀ c ∈ cs, c ∈ i.store.records)
    (hlt : Objective.compareScores (cs.map (worth wanted w)) (cs.map (worth wanted v)) = .lt) :
    ∃ before c after, cs = before ++ c :: after ∧
      (∀ x ∈ before, x.id ∈ i.chosen w ↔ x.id ∈ i.chosen v) ∧ c ∈ i.store.records ∧
        w (.candidate c.id) = (!wanted) ∧ v (.candidate c.id) = wanted := by
  obtain ⟨before, c, after, rfl, hsame, hc⟩ := Objective.exists_first_lt hlt
  obtain ⟨hw, hv⟩ := worth_lt_iff.1 hc
  refine ⟨before, c, after, rfl, fun x hx => ?_, hcs c (by simp), hw, hv⟩
  have hx' := hcs x (List.mem_append_left _ hx)
  rw [h.id_mem_chosen hx', h.id_mem_chosen hx']
  exact worth_eq_iff.1 (hsame x hx)

/-- Where the worths are the same, so is the selection among these candidates. -/
theorem agree_of_eq (h : i.Plain) {wanted : Bool} {cs : List Candidate}
    (hcs : ∀ c ∈ cs, c ∈ i.store.records)
    (heq : Objective.compareScores (cs.map (worth wanted w)) (cs.map (worth wanted v)) = .eq) :
    ∀ c ∈ cs, c.id ∈ i.chosen w ↔ c.id ∈ i.chosen v := by
  intro c hc
  rw [h.id_mem_chosen (hcs c hc), h.id_mem_chosen (hcs c hc)]
  exact worth_eq_iff.1 (List.map_inj_left.1 (Objective.eq_of_compareScores heq) c hc)

/-- What is deferred are the candidates of a kind of loading. -/
theorem mem_deferred (h : i.Plain) {c : Candidate} {is : Bool} :
    c ∈ i.store.deferred i.order is ↔ c ∈ i.store.records ∧ isDeferred c = is := by
  rw [Store.deferred, List.mem_filter, beq_iff_eq]
  exact and_congr_left fun _ => h.mem_candidates

/-- Selections that agree on all candidates are the same. -/
theorem same_of_agree (h : i.Plain) {other : List CandidateId} (hknown : ∀ id ∈ other, id ∈ i.store.ids)
    (hagree : ∀ is, ∀ c ∈ i.store.deferred i.order is, c.id ∈ i.chosen v ↔ c.id ∈ other) (id : CandidateId) :
    id ∈ i.chosen v ↔ id ∈ other := by
  by_cases hid : id ∈ i.store.ids
  · obtain ⟨c, hc, rfl⟩ := Store.mem_ids.1 hid
    exact hagree (isDeferred c) c (h.mem_deferred.2 ⟨hc, rfl⟩)
  · constructor
    · exact fun hmem => absurd ((h.order id).1 (List.mem_filter.1 hmem).1) hid
    · exact fun hmem => absurd (hknown id hmem) hid

/-- **A valuation that is not beaten selects what is preferred** to every other selection of
candidates whose valuation does not beat it. -/
theorem prefers (h : i.Plain) (hfits : i.targets.length < UInt64.size) (hheeds : i.Heeds v)
    {other : List CandidateId} (hknown : ∀ id ∈ other, id ∈ i.store.ids)
    (hne : ¬∀ id, id ∈ i.chosen v ↔ id ∈ other)
    (hbest : Objective.compareScores (i.encode.objective.score (ofSelection i.store other))
      (i.encode.objective.score v) ≠ .gt) : i.store.Prefers i.order (i.chosen v) other := by
  generalize hw : ofSelection i.store other = w at hbest
  have hchosen : ∀ id, id ∈ i.chosen w ↔ id ∈ other := fun id => hw ▸ h.chosen_ofSelection hknown id
  have hrecords : ∀ is, ∀ c ∈ i.store.deferred i.order is, c ∈ i.store.records := fun is c hc =>
    (h.mem_deferred.1 hc).1
  have hup : (i.givenUp w).length = (i.store.unmet other).length := hw ▸ h.givenUp_ofSelection other
  have hunmet := h.unmet_le hheeds
  have hwu := weigh_add_givenUp hfits w
  have hvu := weigh_add_givenUp hfits v
  rw [h.compareScores_eq] at hbest
  cases hfirst : Objective.compareScores ((i.store.deferred i.order false).map (worth true w))
      ((i.store.deferred i.order false).map (worth true v)) with
  | gt =>
      rw [hfirst] at hbest
      exact absurd rfl hbest
  | lt =>
      obtain ⟨before, c, after, hcs, hsame, hc, hcw, hcv⟩ := h.firstIn_of_lt (hrecords false) hfirst
      refine Or.inl ⟨before, c, after, hcs, fun x hx => (hsame x hx).symm.trans (hchosen x.id),
        (h.id_mem_chosen hc).2 hcv, fun hother => ?_⟩
      have := (h.id_mem_chosen hc).1 ((hchosen c.id).2 hother)
      rw [hcw] at this
      exact absurd this (by decide)
  | eq =>
      rw [hfirst, Ordering.eq_then] at hbest
      have hagree : ∀ c ∈ i.store.deferred i.order false, c.id ∈ i.chosen v ↔ c.id ∈ other :=
        fun c hc => (h.agree_of_eq (hrecords false) hfirst c hc).symm.trans (hchosen c.id)
      refine Or.inr ⟨hagree, ?_⟩
      rcases Nat.lt_trichotomy (Objective.weigh i.unmetTier (·.holds w))
        (Objective.weigh i.unmetTier (·.holds v)) with hlt | heq | hgt
      · exact Or.inl (by omega)
      · rw [heq, Nat.compare_eq_eq.2 rfl, Ordering.eq_then] at hbest
        rcases Nat.lt_or_eq_of_le (show (i.store.unmet (i.chosen v)).length ≤
          (i.store.unmet other).length by omega) with hless | hsame
        · exact Or.inl hless
        refine Or.inr ⟨hsame, ?_⟩
        cases hlast : Objective.compareScores ((i.store.deferred i.order true).map (worth false w))
            ((i.store.deferred i.order true).map (worth false v)) with
        | gt => exact absurd hlast hbest
        | lt =>
            obtain ⟨before, c, after, hcs, hsame, hc, hcw, hcv⟩ :=
              h.firstIn_of_lt (hrecords true) hlast
            refine ⟨before, c, after, hcs, fun x hx => (hchosen x.id).symm.trans (hsame x hx),
              (hchosen c.id).1 ((h.id_mem_chosen hc).2 (by simpa using hcw)), fun hmem => ?_⟩
            have := (h.id_mem_chosen hc).1 hmem
            rw [hcv] at this
            exact absurd this (by decide)
        | eq =>
            -- nothing is left in which the two could differ
            have hagree' : ∀ c ∈ i.store.deferred i.order true, c.id ∈ i.chosen v ↔ c.id ∈ other :=
              fun c hc => (h.agree_of_eq (hrecords true) hlast c hc).symm.trans (hchosen c.id)
            refine absurd (h.same_of_agree hknown fun is => ?_) hne
            cases is with
            | false => exact hagree
            | true => exact hagree'
      · rw [Nat.compare_eq_gt.2 hgt] at hbest
        exact absurd rfl hbest

end Plain
end Instance
end Loadout
