/-
# Choices and their numbers

An encoding numbers its choices.  All choices in rules and tiers are numbered, each once
(`Encoding.Closed`, `Instance.closed_encode`), so the numbered problem is well-formed
(`Encoding.Closed.wellFormed`), and valuations of numbers and of choices are the same
thing: a model tells the choices (`Encoding.Closed.mem_decode_iff`), and choices lift to
numbers (`Encoding.lift`) with all rules and scores (`Encoding.Closed.holds_lift`,
`Encoding.Closed.metBy_lift`, `Encoding.Closed.score_lift`).
-/

import Loadout.Proofs.Search.Optimize
import Loadout.Proofs.Store.Index
import Loadout.Selection.Encoding

namespace Loadout

section Renaming

variable {α β : Type} {f : α → β} {val : β → Bool}

/-- A renamed literal holds where the old one does under the names. -/
theorem Literal.holds_map (f : α → β) (val : β → Bool) (l : Literal α) :
    (l.map f).holds val = l.holds (val ∘ f) := rfl

/-- A renamed rule holds where the old one does under the names. -/
theorem Rule.holds_map (f : α → β) (val : β → Bool) (r : Rule α) :
    (r.map f).holds val = r.holds (val ∘ f) := by
  have hk : (r.map f).isAtMostOne = r.isAtMostOne := rfl
  simp only [holds, hk]
  simp only [map, List.filter_map, List.length_map, List.any_map, Function.comp_def,
    Literal.holds_map]

/-- Renaming keeps the order of the rules. -/
theorem RuleSet.toList_map (f : α → β) (s : RuleSet α) :
    (s.map f).toList = s.toList.map (Rule.map f) := by
  simp [map, toList]

/-- Renamed rules hold where the old ones do under the names. -/
theorem RuleSet.holds_map (f : α → β) (val : β → Bool) (s : RuleSet α) :
    (s.map f).holds val = s.holds (val ∘ f) := by
  simp only [holds, toList_map, List.all_map, Function.comp_def, Rule.holds_map]

/-- The search reads the same rules over other atoms in the same way. -/
theorem RuleSet.metBy_map (f : α → β) (val : β → Bool) (s : RuleSet α) :
    (s.map f).MetBy val ↔ s.MetBy (val ∘ f) := by
  have hshort : (∀ r ∈ (s.map f).toList, r.literals.length < 2 →
      ∃ l ∈ r.literals, l.holds val = true) ↔
        ∀ r ∈ s.toList, r.literals.length < 2 → ∃ l ∈ r.literals, l.holds (val ∘ f) = true := by
    rw [toList_map, List.forall_mem_map]
    simp only [Rule.map, List.length_map, List.mem_map, exists_exists_and_eq_and, Literal.holds_map]
  exact ⟨fun h => ⟨holds_map f val s ▸ h.holds, hshort.1 h.short⟩,
    fun h => ⟨(holds_map f val s).trans h.holds, hshort.2 h.short⟩⟩

/-- A renamed objective scores what the old one does under the names. -/
theorem Objective.score_map (f : α → β) (val : β → Bool) (o : Objective α) :
    (o.map f).score val = o.score (val ∘ f) := by
  simp only [score, map, List.map_map]
  refine List.map_congr_left fun tier _ => ?_
  simp only [Function.comp_def, weigh_eq, total, List.filter_map, List.map_map, Literal.holds_map]

/-- A rule holds by the values of its atoms alone. -/
theorem Rule.holds_congr {v w : α → Bool} {r : Rule α} (h : ∀ l ∈ r.literals, v l.atom = w l.atom) :
    r.holds v = r.holds w := by
  have hl : ∀ l ∈ r.literals, l.holds v = l.holds w := fun l hl => by
    simp only [Literal.holds, h l hl]
  have hf : (r.literals.filter fun l => !l.holds v) = r.literals.filter fun l => !l.holds w :=
    List.filter_congr fun l hm => by rw [hl l hm]
  have ha : r.literals.any (·.holds v) = r.literals.any (·.holds w) := by
    rw [Bool.eq_iff_iff, List.any_eq_true, List.any_eq_true]
    exact exists_congr fun l => and_congr_right fun hm => by rw [hl l hm]
  simp only [holds, hf, ha]

/-- So are the rules read by the values of their atoms alone. -/
theorem RuleSet.MetBy.congr {v w : α → Bool} {s : RuleSet α} (h : s.MetBy v)
    (hvw : ∀ r ∈ s.toList, ∀ l ∈ r.literals, v l.atom = w l.atom) : s.MetBy w where
  holds := (s.holds_iff w).2 fun r hr => Rule.holds_congr (hvw r hr) ▸ (s.holds_iff v).1 h.holds r hr
  short := fun r hr hshort => by
    obtain ⟨l, hl, hv⟩ := h.short r hr hshort
    exact ⟨l, hl, by rwa [Literal.holds, ← hvw r hr l hl]⟩

/-- A score counts the values of the atoms of the objective alone. -/
theorem Objective.score_congr {v w : α → Bool} {o : Objective α}
    (h : ∀ l ∈ o.literals, v l.atom = w l.atom) : o.score v = o.score w := by
  refine List.map_congr_left fun tier ht => weigh_congr fun x hx => ?_
  simp only [Literal.holds, h x.1 (mem_literals.2 ⟨tier, ht, x, hx, rfl⟩)]

end Renaming

namespace Encoding

/-- **Everything is numbered**, each choice once, and rules hold distinct literals. -/
structure Closed (e : Encoding) : Prop where
  nodup : e.choices.Nodup
  rules : ∀ r ∈ e.rules.toList, r.literals.Nodup ∧ ∀ l ∈ r.literals, l.atom ∈ e.choices
  objective : ∀ l ∈ e.objective.literals, l.atom ∈ e.choices

variable {e : Encoding}

/-- Numbers go from one to the number of choices. -/
theorem number_range {c : Choice} (h : c ∈ e.choices) :
    1 ≤ e.number c ∧ e.number c ≤ e.choices.length :=
  ⟨Nat.succ_pos _, List.idxOf_lt_length_of_mem h⟩

/-- Each choice has a number of its own. -/
theorem number_inj {a b : Choice} (ha : a ∈ e.choices) (h : e.number a = e.number b) : a = b :=
  (List.idxOf_inj ha).1 (Nat.succ_inj.1 h)

/-- **The numbered problem is well-formed.** -/
theorem Closed.wellFormed (h : e.Closed) : e.problem.WellFormed where
  inRange := fun r' hr' => by
    obtain ⟨r, hr, rfl⟩ := List.mem_map.1 (RuleSet.toList_map e.number e.rules ▸ hr')
    obtain ⟨hnd, hin⟩ := h.rules r hr
    constructor
    · show (r.literals.map (Literal.map e.number)).Nodup
      refine List.Nodup.map_on (fun a ha b hb hab => ?_) hnd
      have hatom : a.atom = b.atom :=
        number_inj (hin a ha) (congrArg (fun l : Literal Nat => l.atom) hab)
      have hsign : (a.map e.number).positive = (b.map e.number).positive := by rw [hab]
      obtain ⟨x, p⟩ := a
      obtain ⟨y, q⟩ := b
      exact congrArg₂ Literal.mk hatom hsign
    · intro l' hl'
      obtain ⟨l, hl, rfl⟩ := List.mem_map.1 hl'
      exact number_range (hin l hl)
  objective := fun l' hl' => by
    obtain ⟨tier', ht', x', hx', rfl⟩ := Objective.mem_literals.1 hl'
    obtain ⟨tier, ht, rfl⟩ := List.mem_map.1 ht'
    obtain ⟨x, hx, rfl⟩ := List.mem_map.1 hx'
    exact number_range (h.objective x.1 (Objective.mem_literals.2 ⟨tier, ht, x, hx, rfl⟩))

/-- **What a model decides**: the choices at whose numbers it is true. -/
theorem Closed.mem_decode_iff (h : e.Closed) {m : Search.Model} {c : Choice} :
    c ∈ e.decode m ↔ c ∈ e.choices ∧ m.value (e.number c) = true := by
  rw [decode, List.mem_map]
  constructor
  · rintro ⟨⟨a, n⟩, hx, rfl⟩
    obtain ⟨hat, hv⟩ := List.mem_filter.1 hx
    have hat : e.choices[n]? = some a := List.mem_zipIdx_iff_getElem?.1 hat
    have hv : m.value (n + 1) = true := hv
    obtain ⟨hlt, rfl⟩ := List.getElem?_eq_some_iff.1 hat
    refine ⟨List.getElem_mem hlt, ?_⟩
    rw [number, h.nodup.idxOf_getElem n hlt]
    exact hv
  · rintro ⟨hc, hv⟩
    refine ⟨(c, e.choices.idxOf c), List.mem_filter.2 ⟨?_, hv⟩, rfl⟩
    exact List.mem_zipIdx_iff_getElem?.2 (List.getElem?_idxOf hc)

/-- The values of choices at their numbers. -/
def lift (e : Encoding) (w : Choice → Bool) : Nat → Bool
  | 0 => false
  | n + 1 => ((e.choices[n]?).map w).getD false

/-- A lifted valuation has the values of the choices at their numbers. -/
theorem lift_number {w : Choice → Bool} {c : Choice} (h : c ∈ e.choices) :
    e.lift w (e.number c) = w c := by
  rw [number, lift, List.getElem?_idxOf h]
  rfl

/-- **Rules hold of choices and of their numbers alike.** -/
theorem Closed.holds_lift (h : e.Closed) (w : Choice → Bool) :
    e.problem.rules.holds (e.lift w) = e.rules.holds w := by
  refine (RuleSet.holds_map e.number _ e.rules).trans ?_
  rw [Bool.eq_iff_iff, RuleSet.holds_iff, RuleSet.holds_iff]
  refine forall_congr' fun r => imp_congr_right fun hr => ?_
  rw [Rule.holds_congr fun l hl => lift_number ((h.rules r hr).2 l hl)]

/-- The search reads the rules of choices and of their numbers in the same way. -/
theorem Closed.metBy_lift (h : e.Closed) {w : Choice → Bool} (hw : e.rules.MetBy w) :
    e.problem.rules.MetBy (e.lift w) :=
  (RuleSet.metBy_map e.number _ e.rules).2 <| hw.congr fun r hr l hl =>
    (lift_number ((h.rules r hr).2 l hl)).symm

/-- **Scores are the same of choices and of their numbers.** -/
theorem Closed.score_lift (h : e.Closed) (w : Choice → Bool) :
    e.problem.objective.score (e.lift w) = e.objective.score w := by
  refine (Objective.score_map e.number _ e.objective).trans ?_
  exact Objective.score_congr fun l hl => lift_number (h.objective l hl)

end Encoding

namespace Instance

variable {i : Instance}

/-- What a rule is about is among what all rules are about. -/
theorem mem_atomsOf {rules : List (Rule Choice)} {r : Rule Choice} {l : Literal Choice}
    (hr : r ∈ rules) (hl : l ∈ r.literals) : l.atom ∈ atomsOf rules :=
  List.mem_flatMap.2 ⟨r, hr, List.mem_map_of_mem hl⟩

/-- What comes up are the candidates of the order, and what the rules are about. -/
theorem mem_choices {c : Choice} : c ∈ i.choices ↔
    c ∈ i.order.map Choice.candidate ∨ c ∈ atomsOf i.allDependencyRules ∨
      c ∈ (i.providedKeys.flatMap i.providerLiterals).map (·.atom) ∨
      c ∈ atomsOf i.allLoadRules ∨ c ∈ atomsOf i.preselectionRules := by
  simp only [choices, List.mem_eraseDups, List.mem_append, or_assoc]

/-- Every candidate of the order comes up. -/
theorem candidate_mem_choices {id : CandidateId} (h : id ∈ i.order) :
    Choice.candidate id ∈ i.choices := mem_choices.2 (Or.inl (List.mem_map_of_mem h))

/-- **Where rules come from**: dependencies, identifiers with several providers, load
conditions and what was asked for. -/
theorem mem_ruleList {r : Rule Choice} : r ∈ i.ruleList ↔
    (∃ c ∈ i.candidates, ∃ d index, c.descriptor.dependencies[index]? = some d ∧
      r ∈ i.dependencyRules c.id d index) ∨
    (∃ key ∈ i.providedKeys, r ∈ i.exclusionRules key) ∨
    (∃ c ∈ i.candidates, r ∈ i.loadRules c) ∨
    ∃ id ∈ i.preselected, r = .assertion (selected id) .preselected := by
  simp only [ruleList, allDependencyRules, allLoadRules, preselectionRules, dependencyRulesOf,
    List.mem_append, List.mem_flatMap, List.mem_map, Prod.exists, List.mem_zipIdx_iff_getElem?,
    or_assoc, eq_comm]

/-- **Two sorts of rules**: those about several providers are at-most-one rules, and all
others are ordinary ones. -/
theorem ruleList_cases {r : Rule Choice} (h : r ∈ i.ruleList) :
    (∃ literals kind, r = .of literals kind ∧ kind ≠ .sameIdentifier) ∨
      ∃ key ∈ i.providedKeys, 1 < (i.providerLiterals key).length ∧
        r = .atMostOne (i.providerLiterals key) := by
  rcases mem_ruleList.1 h with ⟨c, -, d, index, -, hr⟩ | ⟨key, hkey, hr⟩ | ⟨c, -, hr⟩ | ⟨id, -, rfl⟩
  · left
    rw [dependencyRules] at hr
    split at hr
    · exact ⟨_, _, List.mem_singleton.1 hr, by decide⟩
    · rw [recommendsRules] at hr
      split at hr
      · exact absurd hr List.not_mem_nil
      · exact ⟨_, _, List.mem_singleton.1 hr, by decide⟩
    · obtain ⟨m, -, rfl⟩ := List.mem_map.1 hr
      exact ⟨_, _, rfl, by decide⟩
    · exact absurd hr List.not_mem_nil
    · exact absurd hr List.not_mem_nil
  · right
    rw [exclusionRules] at hr
    split at hr
    · rename_i hseveral
      exact ⟨key, hkey, hseveral, List.mem_singleton.1 hr⟩
    · exact absurd hr List.not_mem_nil
  · left
    rw [loadRules] at hr
    split at hr
    · split at hr
      · rw [rootRules] at hr
        split at hr
        · rcases List.mem_cons.1 hr with rfl | hr
          · exact ⟨_, _, rfl, by decide⟩
          · exact ⟨_, _, List.mem_singleton.1 hr, by decide⟩
        · exact ⟨_, _, List.mem_singleton.1 hr, by decide⟩
      · exact absurd hr List.not_mem_nil
    · rw [nestedRules] at hr
      rcases List.mem_append.1 hr with hr | hr
      · split at hr
        · obtain ⟨p, -, rfl⟩ := List.mem_map.1 hr
          exact ⟨_, _, rfl, by decide⟩
        · exact absurd hr List.not_mem_nil
      · exact ⟨_, _, List.mem_singleton.1 hr, by decide⟩
  · exact Or.inl ⟨_, _, rfl, by decide⟩

/-- All rules are made of distinct literals. -/
theorem nodup_of_mem_ruleList {r : Rule Choice} (h : r ∈ i.ruleList) : r.literals.Nodup := by
  rcases ruleList_cases h with ⟨literals, kind, rfl, -⟩ | ⟨key, -, -, rfl⟩
  · exact Rule.of_nodup literals kind
  · exact Rule.of_nodup _ _

/-- The choices of all rules are numbered. -/
theorem atom_mem_choices {r : Rule Choice} (h : r ∈ i.ruleList) {l : Literal Choice}
    (hl : l ∈ r.literals) : l.atom ∈ i.choices := by
  rw [mem_choices]
  simp only [ruleList, List.mem_append] at h
  rcases h with ((h | h) | h) | h
  · exact Or.inr (Or.inl (mem_atomsOf h hl))
  · obtain ⟨key, hkey, hr⟩ := List.mem_flatMap.1 h
    rw [exclusionRules] at hr
    split at hr
    · rw [List.mem_singleton.1 hr, Rule.atMostOne, Rule.mem_of] at hl
      obtain ⟨x, hx, rfl⟩ := List.mem_map.1 hl
      exact Or.inr (Or.inr (Or.inl (List.mem_map.2 ⟨x, List.mem_flatMap.2 ⟨key, hkey, hx⟩, rfl⟩)))
    · exact absurd hr List.not_mem_nil
  · exact Or.inr (Or.inr (Or.inr (Or.inl (mem_atomsOf h hl))))
  · exact Or.inr (Or.inr (Or.inr (Or.inr (mem_atomsOf h hl))))

/-- The choices of the objective are numbered. -/
theorem objective_mem_choices {l : Literal Choice} (h : l ∈ (Objective.ofTiers i.tiers).literals) :
    l.atom ∈ i.choices := by
  obtain ⟨tier, ht, x, hx, rfl⟩ := Objective.mem_literals.1 h
  have ht := (List.mem_filter.1 ht).1
  have havoid : ∀ {cost? : Choice → Option Nat}, x ∈ i.avoid cost? → x.1.atom ∈ i.choices := by
    intro cost? hx
    obtain ⟨c, hc, hmap⟩ := List.mem_filterMap.1 hx
    obtain ⟨n, -, rfl⟩ := Option.map_eq_some_iff.1 hmap
    exact hc
  have hcandidate : ∀ c ∈ i.candidates, Choice.candidate c.id ∈ i.choices := fun c hc =>
    candidate_mem_choices (Store.mem_getAll hc).2
  simp only [tiers, List.mem_append, List.mem_map, List.mem_singleton] at ht
  rcases ht with ((ht | ⟨c, hc, rfl⟩) | rfl) | ⟨c, hc, rfl⟩
  · rw [purposeTiers] at ht
    split at ht
    · exact absurd ht List.not_mem_nil
    · rw [List.mem_singleton.1 ht] at hx
      exact havoid hx
    · rcases List.mem_cons.1 ht with rfl | ht
      · exact havoid hx
      · rw [List.mem_singleton.1 ht] at hx
        obtain ⟨c, hc, hmap⟩ := List.mem_filterMap.1 hx
        split at hmap
        · obtain ⟨a, -, rfl⟩ := Option.map_eq_some_iff.1 hmap
          exact hc
        · simp at hmap
  · rw [List.mem_singleton.1 hx]
    exact hcandidate c (List.mem_filter.1 hc).1
  · exact havoid hx
  · rw [List.mem_singleton.1 hx]
    exact hcandidate c (List.mem_filter.1 hc).1

/-- **An encoding numbers all of its choices.** -/
theorem closed_encode (i : Instance) : i.encode.Closed where
  nodup := nodup_eraseDups _
  rules := fun _ hr =>
    have hmem := RuleSet.mem_of_mem_ofList hr
    ⟨nodup_of_mem_ruleList hmem, fun _ => atom_mem_choices hmem⟩
  objective := fun _ => objective_mem_choices

/-- The rules of an encoding say what the list of rules says. -/
theorem holds_encode (i : Instance) (w : Choice → Bool) :
    i.encode.rules.holds w = true ↔ ∀ r ∈ i.ruleList, r.holds w = true :=
  RuleSet.holds_ofList (fun _ => nodup_of_mem_ruleList) w

end Instance
end Loadout
