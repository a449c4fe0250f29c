/-
# Relaxed instances are conservative

Models of an encoding are valuations of its numbers; what is read off them are the choices that
come up and obey the instance (`Encoding.Models`, `Instance.Exact.models_iff`).  Which choices come
up and how they are numbered is different for every purpose.  But the sets that models select
without exceptions are the same for all of them (`Solver.selects_iff`).

Hence what is found when solving has failed makes an exception: an explanation names a dependency,
and a fix changes something (`Solver.exists_fix`).
-/

import Loadout.Proofs.Selection.Cheapest
import Loadout.Proofs.Selection.Unfixable

namespace Loadout

namespace Encoding

variable {e : Encoding} {made : List Choice} {w : Choice → Bool}

/-- **The choices of a model**: values of all numbers that meet the numbered rules, read back. -/
def Models (e : Encoding) (made : List Choice) : Prop :=
  ∃ m : Search.Model, m.size = e.choices.length + 1 ∧ e.problem.rules.holds m.value = true ∧
    e.decode m = made

/-- What is read off a model, by the numbers of choices. -/
theorem Closed.decode_eq (h : e.Closed) (m : Search.Model) :
    e.decode m = e.choices.filter fun c => m.value (e.number c) := by
  have hnumber : ∀ x ∈ e.choices.zipIdx, m.value (x.2 + 1) = m.value (e.number x.1) := by
    rintro ⟨c, n⟩ hx
    have hat : e.choices[n]? = some c := List.mem_zipIdx_iff_getElem?.1 hx
    obtain ⟨hlt, rfl⟩ := List.getElem?_eq_some_iff.1 hat
    rw [number, h.nodup.idxOf_getElem n hlt]
  rw [decode, List.filter_congr hnumber]
  conv_rhs => rw [← List.zipIdx_map_fst 0 e.choices, List.filter_map]
  rfl

/-- **Choices that meet the rules are those of a model**, as far as they are numbered. -/
theorem Closed.models_filter (h : e.Closed) (hw : e.rules.holds w = true) :
    e.Models (e.choices.filter w) := by
  let m : Search.Model := Array.ofFn fun n : Fin (e.choices.length + 1) => e.lift w n
  have hvalue : ∀ n ≤ e.choices.length, m.value n = e.lift w n := by
    intro n hn
    have hlt : n < e.choices.length + 1 := Nat.lt_succ_of_le hn
    simp [m, Search.Model.value, hlt]
  refine ⟨m, by simp [m], ?_, ?_⟩
  · rw [← h.holds_lift, RuleSet.holds_iff] at hw
    rw [RuleSet.holds_iff]
    intro r hr
    rw [Rule.holds_congr fun l hl => hvalue _ ((h.wellFormed.inRange r hr).range l hl).2]
    exact hw r hr
  · rw [h.decode_eq]
    exact List.filter_congr fun c hc => by rw [hvalue _ (number_range hc).2, lift_number hc]

/-- **What models are**: numbered choices that meet the rules. -/
theorem Closed.models_iff (h : e.Closed) :
    e.Models made ↔ e.rules.holds made.contains = true ∧ e.choices.filter made.contains = made := by
  constructor
  · rintro ⟨m, -, hm, rfl⟩
    have hvalue : ∀ c ∈ e.choices, (m.value ∘ e.number) c = (e.decode m).contains c := fun c hc =>
      h.value_number m hc
    refine ⟨?_, ?_⟩
    · have hrules : e.rules.holds (m.value ∘ e.number) = true :=
        (RuleSet.holds_map e.number m.value e.rules).symm.trans hm
      rw [RuleSet.holds_iff] at hrules ⊢
      intro r hr
      rw [← Rule.holds_congr fun l hl => hvalue _ ((h.rules r hr).2 l hl)]
      exact hrules r hr
    · conv_rhs => rw [h.decode_eq m]
      exact (List.filter_congr hvalue).symm
  · rintro ⟨hrules, hmade⟩
    exact hmade ▸ h.models_filter hrules

end Encoding

namespace Instance

variable {i : Instance} {w : Choice → Bool} {made : List Choice}

/-- **What models are**: choices that come up and obey the instance. -/
theorem Exact.models_iff (h : i.Exact) :
    i.encode.Models made ↔ i.Obeys made.contains ∧ i.choices.filter made.contains = made := by
  rw [i.closed_encode.models_iff, i.holds_encode, h.holds_iff]
  rfl

/-- **The choices that obey an exact instance are those of a model.** -/
theorem Exact.models_filter (h : i.Exact) (hw : i.Obeys w) :
    i.encode.Models (i.choices.filter w) :=
  i.closed_encode.models_filter ((i.holds_encode w).2 (h.holds_iff.2 hw))

end Instance

namespace Solver

variable {s : Solver} {made : List Choice}

/-- What the choices of a valuation select. -/
theorem selection_filter (s : Solver) (purpose : Purpose) (w : Choice → Bool) :
    s.selection ((s.posed purpose).choices.filter w) = (s.posed purpose).chosen w := by
  refine List.filter_congr fun id hid => ?_
  have hmem : Choice.candidate id ∈ (s.posed purpose).choices :=
    Instance.candidate_mem_choices hid
  rw [isSelected, Bool.eq_iff_iff, List.contains_iff_mem, List.mem_filter]
  exact and_iff_right hmem

/-- **Without exceptions the purpose does not matter** for what models select. -/
theorem exists_models_without (h : ∀ purpose, (s.posed purpose).Exact) {p : Purpose}
    (hmade : (s.encode p).Models made) (hnone : ∀ c ∈ made, c.isException = false) (q : Purpose) :
    ∃ other, (s.encode q).Models other ∧ (∀ c ∈ other, c.isException = false) ∧
      s.selection other = s.selection made := by
  obtain ⟨hobeys, -⟩ := (h p).models_iff.1 hmade
  have hplain : (s.posed q).Obeys (Instance.plain made.contains) := hobeys.plain_contains hnone q
  refine ⟨_, (h q).models_filter hplain, fun c hc => ?_, ?_⟩
  · obtain ⟨-, hw⟩ := List.mem_filter.1 hc
    cases c <;> first | rfl | exact absurd hw Bool.false_ne_true
  · rw [selection_filter]
    rfl

/-- **Models without exceptions select the same** for every two purposes. -/
theorem selects_iff (h : ∀ purpose, (s.posed purpose).Exact) (p q : Purpose)
    (selection : List CandidateId) :
    (∃ made, (s.encode p).Models made ∧ (∀ c ∈ made, c.isException = false) ∧
      s.selection made = selection) ↔
    ∃ made, (s.encode q).Models made ∧ (∀ c ∈ made, c.isException = false) ∧
      s.selection made = selection := by
  constructor
  · rintro ⟨made, hmade, hnone, rfl⟩
    exact exists_models_without h hmade hnone q
  · rintro ⟨made, hmade, hnone, rfl⟩
    exact exists_models_without h hmade hnone p

/-! ### Which exceptions models make -/

section Made

variable (h : ∀ purpose, (s.posed purpose).Grounded)

include h

/-- What models make comes up in the instance. -/
theorem known_of_models {purpose : Purpose} (hmade : (s.encode purpose).Models made) {c : Choice}
    (hc : c ∈ made) : c ∈ (s.posed purpose).choices := by
  obtain ⟨-, hfilter⟩ := (h purpose).models_iff.1 hmade
  exact (List.mem_filter.1 (hfilter ▸ hc)).1

/-- There are none for selecting. -/
theorem isException_of_select (hmade : (s.encode .select).Models made) :
    ∀ c ∈ made, c.isException = false := by
  intro c hc
  rw [← Bool.not_eq_true]
  intro hexception
  rcases ((h .select).occurs (known_of_models h hmade hc)).isException_cases hexception with
    ⟨hpurpose, -⟩ | ⟨hrepair, -⟩
  · exact absurd hpurpose (by simp [posed])
  · exact absurd hrepair Bool.false_ne_true

/-- For explaining they are waivers. -/
theorem not_waived_iff (hmade : (s.encode .explain).Models made) :
    (∀ source index, .waived source index ∉ made) ↔ ∀ c ∈ made, c.isException = false := by
  refine ⟨fun hnone c hc => ?_, fun hnone source index hc =>
    absurd (hnone _ hc) (by simp [Choice.isException])⟩
  rw [← Bool.not_eq_true]
  intro hexception
  rcases ((h .explain).occurs (known_of_models h hmade hc)).isException_cases hexception with
    ⟨-, source, index, rfl⟩ | ⟨hrepair, -⟩
  · exact hnone source index hc
  · exact absurd hrepair Bool.false_ne_true

/-- For repairing they are additions and removals. -/
theorem not_changed_iff {standIns : List StandIn}
    (hmade : (s.encode (.repair standIns)).Models made) :
    ((∀ n, .added n ∉ made) ∧ ∀ id, .removed id ∉ made) ↔ ∀ c ∈ made, c.isException = false := by
  refine ⟨fun hnone c hc => ?_, fun hnone => ⟨fun n hc => ?_, fun id hc => ?_⟩⟩
  · rw [← Bool.not_eq_true]
    intro hexception
    have hoccurs := (h (.repair standIns)).occurs (known_of_models h hmade hc)
    rcases hoccurs.isException_cases hexception with ⟨hpurpose, -⟩ | ⟨-, ⟨n, rfl⟩ | ⟨id, rfl⟩⟩
    · exact absurd hpurpose (by simp [posed])
    · exact hnone.1 n hc
    · exact hnone.2 id hc
  · exact absurd (hnone _ hc) (by simp [Choice.isException])
  · exact absurd (hnone _ hc) (by simp [Choice.isException])

/-- What models select for selecting, they select without exceptions for any other purpose. -/
theorem selects_select_iff (purpose : Purpose) (selection : List CandidateId) :
    (∃ made, (s.encode .select).Models made ∧ s.selection made = selection) ↔
      ∃ made, (s.encode purpose).Models made ∧ (∀ c ∈ made, c.isException = false) ∧
        s.selection made = selection := by
  rw [← selects_iff (fun purpose => (h purpose).toExact) .select]
  refine exists_congr fun made => and_congr_right fun hmade => ?_
  exact (and_iff_right (isException_of_select h hmade)).symm

end Made

/-! ### What the analysis of a failure finds -/

/-- Where groups list no member twice, there is a model just where the rules can be met as the
search reads them. -/
theorem exists_models_iff (ho : s.order.Nodup) (hg : ∀ g ∈ s.store.groups, g.members.Nodup)
    (purpose : Purpose) :
    (∃ made, (s.encode purpose).Models made) ↔ ∃ w, (s.encode purpose).rules.MetBy w := by
  constructor
  · rintro ⟨made, m, -, hm, -⟩
    have hwide := Instance.wide (i := s.posed purpose) ho hg
    exact ⟨_, (RuleSet.metBy_map _ m.value _).1 (hwide.metBy_iff.2 hm)⟩
  · rintro ⟨w, hw⟩
    exact ⟨_, (s.posed purpose).closed_encode.models_filter hw.holds⟩

/-- Where there is nothing to select, solving fails in time. -/
theorem exists_failure_of_time (hnone : ∀ w, ¬(s.encode .select).rules.MetBy w)
    (htime : ∀ k, s.deadline k = false) : ∃ f, s.solve = .ok (.failure f) := by
  have hup : ¬∃ k, s.deadline k = true := fun ⟨k, hk⟩ =>
    Bool.false_ne_true ((htime k).symm.trans hk)
  have hselect : s.best .select = .ok none := by
    cases hbest : s.best .select with
    | error e => exact absurd (up_of_best_eq_error hbest) hup
    | ok made? =>
        cases made? with
        | none => rfl
        | some made => exact absurd (metBy_of_best hbest) (hnone _)
  cases hanalyze : s.analyze with
  | error e => exact absurd (up_of_analyze_eq_error hanalyze) hup
  | ok f => exact ⟨f, solve_eq_failure_iff.2 ⟨hselect, hanalyze⟩⟩

/-- **Any fix changes something** where solving has failed. -/
theorem exists_fix (hs : s.store.Prepared) (ho : s.order.Perm s.store.ids)
    (hnone : ∀ made, ¬(s.encode .select).Models made) {explained : List Choice}
    {standIns : List StandIn} {fix? : Option Fix} (h : s.fix explained standIns = .ok fix?)
    (hfeasible : ∃ w, (s.encode (.repair standIns)).rules.MetBy w) :
    ∃ F, fix? = some F ∧ F.isEmpty = false := by
  have hground := grounded_posed hs.indexed hs.ranked ho
  cases fix? with
  | none =>
      obtain ⟨w, hw⟩ := hfeasible
      exact absurd hw ((fix_eq_none_iff h).1 rfl w)
  | some F =>
      obtain ⟨made, hbest, rfl⟩ := fix_eq_some_iff.1 h
      have hobeys : (s.posed (.repair standIns)).Obeys made.contains :=
        (hground _).holds_iff.1 ((Instance.holds_encode _ _).1 (metBy_of_best hbest).holds)
      have hrepairs : s.Repairs standIns made :=
        ⟨hground _, hs.ranked, hobeys, fun c hc => (hground _).occurs (known_of_best hbest c hc)⟩
      exact ⟨_, rfl, hrepairs.isEmpty_readFix (fun w hw =>
        hnone _ ((hground .select).toExact.models_filter hw)) explained⟩

/-- **Instances with exceptions extend the plain one conservatively.**  Where groups list no member
twice, the search reads the rules of every encoding as they are; the sets that models select for
selecting are those that models select for explaining where nothing is waived, and those that they
select for repairing, whatever the stand-ins, where nothing is added or removed.  So where there is
nothing to select, solving fails unless time is up; a dependency is named if the rules can be met
with waivers, and then something is changed if they can be met with changes, as by every fix. -/
theorem exceptions_conservative (hs : s.store.Prepared)
    (hg : ∀ g ∈ s.store.groups, g.members.Nodup) (ho : s.order.Perm s.store.ids) :
    (∀ purpose (m : Search.Model), (s.encode purpose).problem.rules.MetBy m.value ↔
      (s.encode purpose).problem.rules.holds m.value = true) ∧
    (∀ selection, (∃ made, (s.encode .select).Models made ∧ s.selection made = selection) ↔
      ∃ made, (s.encode .explain).Models made ∧ (∀ source index, .waived source index ∉ made) ∧
        s.selection made = selection) ∧
    (∀ standIns selection,
      (∃ made, (s.encode .select).Models made ∧ s.selection made = selection) ↔
        ∃ made, (s.encode (.repair standIns)).Models made ∧ (∀ n, .added n ∉ made) ∧
          (∀ id, .removed id ∉ made) ∧ s.selection made = selection) ∧
    ((∀ made, ¬(s.encode .select).Models made) →
      ((∀ k, s.deadline k = false) → ∃ f, s.solve = .ok (.failure f)) ∧
      (∀ f, s.solve = .ok (.failure f) → (∃ made, (s.encode .explain).Models made) →
        f.explanations ≠ [] ∧
        ((∃ made, (s.encode (.repair (StandIn.synthesize (missing f.explanations)))).Models made) →
          ∃ F, f.fix? = some F ∧ F.isEmpty = false)) ∧
      ∀ explained standIns fix?, s.fix explained standIns = .ok fix? →
        (∃ made, (s.encode (.repair standIns)).Models made) →
          ∃ F, fix? = some F ∧ F.isEmpty = false) := by
  have hground := grounded_posed hs.indexed hs.ranked ho
  have hnodup : s.order.Nodup := ho.nodup_iff.2 hs.indexed.nodup
  have hfeasible := exists_models_iff hnodup hg
  refine ⟨fun purpose m => (Instance.wide (i := s.posed purpose) hnodup hg).metBy_iff,
    fun selection => ?_, fun standIns selection => ?_, fun hnone => ⟨fun htime => ?_,
      fun f hf hexplain => ?_, fun explained standIns fix? hfix hrepair =>
        exists_fix hs ho hnone hfix ((hfeasible _).1 hrepair)⟩⟩
  · rw [selects_select_iff hground .explain]
    exact exists_congr fun made => and_congr_right fun hmade =>
      and_congr_left fun _ => (not_waived_iff hground hmade).symm
  · rw [selects_select_iff hground (.repair standIns)]
    refine exists_congr fun made => and_congr_right fun hmade => ?_
    rw [← and_assoc, not_changed_iff hground hmade]
  · exact exists_failure_of_time (fun w hw => absurd ((hfeasible .select).2 ⟨w, hw⟩)
      (not_exists.2 hnone)) htime
  · obtain ⟨w, hw⟩ := (hfeasible .explain).1 hexplain
    have hne : f.explanations ≠ [] := fun hempty =>
      (explanations_eq_nil_iff (hground .explain) hnodup hf).1 hempty w hw
    refine ⟨hne, fun hrepair => ?_⟩
    obtain ⟨-, hanalyze⟩ := solve_eq_failure_iff.1 hf
    rcases analyze_cases hanalyze with ⟨-, rfl⟩ | ⟨made, -, -, hfix⟩
    · exact absurd rfl hne
    · exact exists_fix hs ho hnone hfix ((hfeasible _).1 hrepair)

/-- What a search finds are the choices of a model. -/
theorem models_of_best {purpose : Purpose} (hbest : s.best purpose = .ok (some made)) :
    (s.encode purpose).Models made := by
  obtain ⟨m, hm, hmade⟩ := exists_model_of_best hbest
  obtain ⟨hsize, hholds⟩ :=
    Search.Problem.holds_of_optimize (s.posed purpose).closed_encode.wellFormed hm
  exact ⟨m, hsize, hholds, hmade⟩

/-- A mod would like what is not there. -/
def wishful : Store :=
  Store.empty.inserted (found
    { id := "app", version := versionOne, dependencies := [⟨.recommends, "extra", .any⟩] } none)

/-- The store of `wishful` is built by inserting. -/
theorem wishful_built : wishful.Built := Store.Built.empty.inserted _

/-- With the wish that could be added the mod is selected as before; where it depends on what is
not there, a dependency is named and something is added. -/
theorem exceptions_conservative_wishful :
    (∃ made, ((Solver.mk wishful [0] [] .never).encode (.repair [⟨"extra", versionOne⟩])).Models made ∧
      (∀ n, .added n ∉ made) ∧ (∀ id, .removed id ∉ made) ∧
      (Solver.mk wishful [0] [] .never).selection made = [0]) ∧
    ∃ f F, (Solver.mk lonely [0] [] .never).solve = .ok (.failure f) ∧ f.explanations ≠ [] ∧
      f.fix? = some F ∧ F.isEmpty = false := by
  have hgroups : (∀ g ∈ wishful.groups, g.members.Nodup) ∧ ∀ g ∈ lonely.groups, g.members.Nodup := by
    decide +kernel
  have horder : [0].Perm wishful.ids ∧ [0].Perm lonely.ids := by decide +kernel
  constructor
  · have hselect : (Solver.mk wishful [0] [] .never).best .select = .ok (some [.candidate 0]) := by
      decide +kernel
    obtain ⟨-, -, hrepair, -⟩ := exceptions_conservative (s := ⟨wishful, [0], [], .never⟩)
      (.built wishful_built) hgroups.1 horder.1
    exact (hrepair _ _).1 ⟨_, models_of_best hselect, rfl⟩
  · have hselect : (Solver.mk lonely [0] [] .never).best .select = .ok none := by decide +kernel
    have hexplain : (Solver.mk lonely [0] [] .never).best .explain =
        .ok (some [.candidate 0, .waived 0 0]) := by decide +kernel
    have hrepair : (Solver.mk lonely [0] [] .never).best
        (.repair [⟨"lib", .ofComponents [0, 0, 0]⟩]) = .ok (some [.candidate 0, .added 0]) := by
      decide +kernel
    have hdependency : lonely.dependency? (0, 0) = some ⟨.depends, "lib", .any⟩ := by
      decide +kernel
    have hany : StandIn.synthesize [⟨.depends, "lib", .any⟩] =
        [⟨"lib", .ofComponents [0, 0, 0]⟩] :=
      StandIn.synthesize_singleton rfl rfl (by decide +kernel)
    obtain ⟨f, hf, hstandIns, -⟩ :=
      exists_failure hselect hexplain rfl hdependency rfl hany hrepair
    have hnone : ∀ made, ¬((Solver.mk lonely [0] [] .never).encode .select).Models made :=
      not_exists.1 fun hmade => by
        obtain ⟨w, hw⟩ := (exists_models_iff (by decide) hgroups.2 .select).1 hmade
        exact not_metBy_of_best hselect w hw
    obtain ⟨-, -, -, hfailure⟩ := exceptions_conservative (s := ⟨lonely, [0], [], .never⟩)
      (.built lonely_built) hgroups.2 horder.2
    obtain ⟨hnamed, hfix⟩ := (hfailure hnone).2.1 f hf ⟨_, models_of_best hexplain⟩
    obtain ⟨F, hF, hempty⟩ := hfix ⟨_, hstandIns ▸ models_of_best hrepair⟩
    exact ⟨f, F, hf, hnamed, hF, hempty⟩

end Solver
end Loadout
