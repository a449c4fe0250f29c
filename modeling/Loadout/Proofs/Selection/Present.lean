/-
# What an explanation says is there

An explanation of a dependency that is not met lists what there is of its target.  The report calls
all of it the wrong version.  That is so where a mod of the target is selected together with the
source: then just these are listed, and none of them meets the dependency, because what is waived is
violated (`Solver.waived_iff_violates_of_best`).  Where none is selected, everything that provides
the target is listed, also what would meet the dependency and was left out for another reason
(`Solver.present_wrong_where_selected`).

Descriptors may repeat what they provide.  Then some candidates are barred, and what is found need
not be the best of all consistent selections; but it waives no more than it has to among those that
do without the barred ones, and this is all that is needed.
-/

import Loadout.Proofs.Selection.Barred
import Loadout.Proofs.Selection.Explain

namespace Loadout
namespace Solver

variable {s : Solver} {f : Failure} {made : List Choice}

/-- **What is found to explain a failure waives just what its selection violates.** -/
theorem waived_iff_violates_of_best (h : (s.posed .explain).Grounded) (ho : s.order.Nodup)
    (hfits : s.store.edges.length < UInt64.size) (hbest : s.best .explain = .ok (some made))
    {c : Candidate} (hc : c ∈ s.store.records) {d : Dependency} {index : Nat}
    (hd : c.descriptor.dependencies[index]? = some d) :
    .waived c.id index ∈ made ↔ s.store.Violates (s.selection made) c.id d := by
  obtain ⟨hobeys, hbarred⟩ := (h.toExact.metBy_iff ho).1 (metBy_of_best hbest)
  obtain ⟨rest, htiers⟩ := Instance.tiers_explain (i := s.posed .explain) rfl
  refine h.waived_iff_violates rfl hobeys hc hd fun hwaived hwithout => ?_
  refine unbeaten_of_best (fits_posed h hfits rfl) hbest ((h.toExact.metBy_iff ho).2
    ⟨hwithout, fun id hid => ?_⟩) (Instance.beaten_without (nodup_of_best hbest)
      (known_of_best hbest) htiers (h.spent_waiver_lt hfits) hwaived rfl Nat.one_pos)
  rw [hbarred id hid, Bool.and_false]

/-- A candidate is in the selection just where its choice was made. -/
theorem mem_selection_iff (ho : s.order.Perm s.store.ids) {c : Candidate} (hc : c ∈ s.store.records) :
    c.id ∈ s.selection made ↔ isSelected made c.id = true := by
  rw [selection, List.mem_filter]
  exact and_iff_right (ho.mem_iff.2 (Store.mem_ids.2 ⟨c, hc, rfl⟩))

/-- What is chosen of a list, or all of it where nothing is. -/
theorem mem_chosen_or_all {chosen : CandidateId → Bool} {ids : List CandidateId} {id : CandidateId} :
    id ∈ (if (ids.filter chosen).isEmpty then ids else ids.filter chosen) ↔
      id ∈ ids ∧ (chosen id = true ∨ ∀ o ∈ ids, chosen o ≠ true) := by
  split
  · rename_i hnone
    have hall := List.filter_eq_nil_iff.1 (List.isEmpty_iff.1 hnone)
    exact (and_iff_left (Or.inr hall)).symm
  · rename_i hsome
    have hnot : ¬∀ o ∈ ids, chosen o ≠ true := fun h =>
      hsome (List.isEmpty_iff.2 (List.filter_eq_nil_iff.2 h))
    rw [List.mem_filter, or_iff_left hnot]

/-- The others that provide the target of a dependency. -/
theorem mem_others_iff (hi : s.store.Indexed) {source id : CandidateId} {d : Dependency} :
    id ∈ s.byPreference ((s.store.providers d.target).filter (· ≠ source)) ↔
      ∃ p ∈ s.store.records, p.id = id ∧ p.provides d.target = true ∧ p.id ≠ source := by
  rw [byPreference, (List.mergeSort_perm _ _).mem_iff, List.mem_filter, hi.members, decide_eq_true_eq]
  constructor
  · rintro ⟨⟨p, hp, rfl, hprovides⟩, hne⟩
    exact ⟨p, hp, rfl, hprovides, hne⟩
  · rintro ⟨p, hp, rfl, hprovides, hne⟩
    exact ⟨⟨p, hp, rfl, hprovides⟩, hne⟩

/-- **What is listed for a dependency that is not met**: of the others that provide its target those
that are selected, or all of them where none is. -/
theorem mem_present_iff (hi : s.store.Indexed) (ho : s.order.Perm s.store.ids) {source : CandidateId}
    {d : Dependency} (hd : d.relation = .depends) {m : ModRef} :
    m ∈ s.present made source d ↔ ∃ p ∈ s.store.records, p.provides d.target = true ∧ p.id ≠ source ∧
      m = .ofCandidate p ∧ (p.id ∈ s.selection made ∨
        ∀ o ∈ s.store.records, o.provides d.target = true → o.id ≠ source →
          o.id ∉ s.selection made) := by
  have hnone : (∀ id ∈ s.byPreference ((s.store.providers d.target).filter (· ≠ source)),
        isSelected made id ≠ true) ↔ ∀ o ∈ s.store.records,
      o.provides d.target = true → o.id ≠ source → o.id ∉ s.selection made := by
    constructor
    · intro h o hin hprovides hne hsel
      exact h o.id ((mem_others_iff hi).2 ⟨o, hin, rfl, hprovides, hne⟩)
        ((mem_selection_iff ho hin).1 hsel)
    · intro h id hid hsel
      obtain ⟨o, hin, rfl, hprovides, hne⟩ := (mem_others_iff hi).1 hid
      exact h o hin hprovides hne ((mem_selection_iff ho hin).2 hsel)
  rw [present, hd, if_neg (by decide)]
  simp only [List.mem_map, hi.mem_getAll_iff, mem_chosen_or_all, hnone]
  constructor
  · rintro ⟨c, ⟨hc, hid, hsel⟩, rfl⟩
    obtain ⟨p, hp, hpid, hprovides, hne⟩ := (mem_others_iff hi).1 hid
    obtain rfl := hi.eq_of_id_eq hp hc hpid
    exact ⟨p, hp, hprovides, hne, rfl, hsel.imp_left (mem_selection_iff ho hp).2⟩
  · rintro ⟨p, hp, hprovides, hne, rfl, hsel⟩
    exact ⟨p, ⟨hp, (mem_others_iff hi).2 ⟨p, hp, rfl, hprovides, hne⟩,
      hsel.imp_left (mem_selection_iff ho hp).1⟩, rfl⟩

/-! ### What the report calls wrong -/

/-- **The versions that are listed are wrong where the target is selected.**  For each dependency
that a failure explains as not met, two cases tell what is listed of its target:

* another mod that provides it is selected along with the source; then those that are selected are
  listed, and none of them meets the dependency;
* no other one is selected; then all that there are are listed, and with them those that would meet
  the dependency. -/
theorem present_wrong_where_selected (hs : s.store.Prepared) (ho : s.order.Perm s.store.ids)
    (hfits : s.store.edges.length < UInt64.size) (h : s.solve = .ok (.failure f)) :
    ∀ x ∈ f.explanations, x.dependency.relation = .depends →
      ∃ made, s.best .explain = .ok (some made) ∧
        ((∃ o ∈ s.store.records, o.provides x.dependency.target = true ∧ o.id ≠ x.source.id ∧
            o.id ∈ s.selection made) →
          ∀ m, m ∈ x.present ↔ ∃ p ∈ s.store.records, p.provides x.dependency.target = true ∧
            p.id ≠ x.source.id ∧ p.id ∈ s.selection made ∧
            x.dependency.admits p.version = false ∧ m = .ofCandidate p) ∧
        ((∀ o ∈ s.store.records, o.provides x.dependency.target = true → o.id ≠ x.source.id →
            o.id ∉ s.selection made) →
          ∀ m, m ∈ x.present ↔ ∃ p ∈ s.store.records, p.provides x.dependency.target = true ∧
            p.id ≠ x.source.id ∧ m = .ofCandidate p) := by
  intro x hx hrelation
  have hground := grounded_posed hs.indexed hs.ranked ho .explain
  have hnodup : s.order.Nodup := ho.nodup_iff.2 hs.indexed.nodup
  obtain ⟨-, hanalyze⟩ := solve_eq_failure_iff.1 h
  rcases analyze_cases hanalyze with ⟨-, rfl⟩ | ⟨made, hbest, hexplanations, -⟩
  · exact absurd hx List.not_mem_nil
  rw [hexplanations] at hx
  obtain ⟨e, he, hx⟩ := List.mem_filterMap.1 hx
  obtain ⟨c, hc, hid, d, hd, -, hsome⟩ := explain_eq_some hground (known_of_best hbest) he
  obtain rfl := Option.some.inj (hsome.symm.trans hx)
  have hviolates := (waived_iff_violates_of_best hground hnodup hfits hbest hc hd).1
    (hid ▸ mem_waivers.1 he)
  dsimp only at hrelation ⊢
  rw [Store.Violates, hrelation] at hviolates
  have hmem := fun m =>
    (mem_present_iff hs.indexed ho hrelation : m ∈ s.present made e.1 d ↔ _)
  rw [show (ModRef.ofCandidate c).id = e.1 from hid]
  refine ⟨made, hbest, fun hselected m => (hmem m).trans ?_, fun hnone m => (hmem m).trans ?_⟩
  · have hsome : ¬∀ o ∈ s.store.records, o.provides d.target = true → o.id ≠ e.1 →
        o.id ∉ s.selection made := fun hnone => by
      obtain ⟨o, ho, hprovides, hne, hin⟩ := hselected
      exact hnone o ho hprovides hne hin
    simp only [or_iff_left hsome]
    refine exists_congr fun p => and_congr_right fun hp => and_congr_right fun hprovides =>
      and_congr_right fun _ => ⟨fun hm => ⟨hm.2, ?_, hm.1⟩, fun hm => ⟨hm.2.2, hm.1⟩⟩
    rw [← Bool.not_eq_true]
    intro hadmits
    exact hviolates.2 ⟨p, hp, hm.2, by rw [Candidate.meets, hprovides, hadmits]; rfl⟩
  · refine exists_congr fun p => and_congr_right fun _ => and_congr_right fun _ =>
      and_congr_right fun _ => and_iff_left (Or.inr hnone)

/-- Without a deadline every waiver of the search is told by a failure. -/
theorem exists_failure_naming (htime : ∀ k, s.deadline k = false) (hselect : s.best .select = .ok none)
    (hexplain : s.best .explain = .ok (some made)) {e : Edge} (he : .waived e.1 e.2 ∈ made)
    {x : Explanation} (hx : s.explain made e = some x) :
    ∃ f, s.solve = .ok (.failure f) ∧ x ∈ f.explanations := by
  cases hanalyze : s.analyze with
  | error _ =>
      obtain ⟨k, hk⟩ := up_of_analyze_eq_error hanalyze
      exact absurd ((htime k).symm.trans hk) Bool.false_ne_true
  | ok f =>
      refine ⟨f, solve_eq_failure_iff.2 ⟨hselect, hanalyze⟩, ?_⟩
      rcases analyze_cases hanalyze with ⟨hnone, -⟩ | ⟨made', hmade, hexplanations, -⟩
      · exact absurd (hexplain.symm.trans hnone) (by simp)
      · obtain rfl := Option.some.inj (Except.ok.inj (hexplain.symm.trans hmade))
        rw [hexplanations]
        exact List.mem_filterMap.2 ⟨e, mem_waivers.2 he, hx⟩

/-- A mod needs a library inside it, which needs two more that are not there; an older one of it needs
only one. -/
def costlyLibrary : Store :=
  let absent (target : String) : Dependency := ⟨.depends, target, .any⟩
  [found { id := "app", version := versionOne,
           dependencies := [⟨.depends, "lib", ⟨[.greaterOrEqual versionOne]⟩⟩] } none,
    found { id := "lib", version := versionOne, dependencies := [absent "x", absent "y"] } (some 0),
    found { id := "lib", version := .semantic (.ofComponents [0, 9]), dependencies := [absent "z"] }
      (some 0)].foldl Store.inserted .empty

/-- The store of `costlyLibrary` is built by inserting. -/
theorem costlyLibrary_built : costlyLibrary.Built := Store.Built.empty.foldl _

/-- To do without the library costs least, and then it is listed although its version is right. -/
theorem present_wrong_where_selected_costlyLibrary : ∃ f,
    (Solver.mk costlyLibrary [0, 1, 2] [] .never).solve = .ok (.failure f) ∧
    ∃ x ∈ f.explanations, x.dependency.relation = .depends ∧
      ∃ m ∈ x.present, x.dependency.admits m.version = true := by
  have hselect : (Solver.mk costlyLibrary [0, 1, 2] [] .never).best .select = .ok none := by
    decide +kernel
  have hexplain : (Solver.mk costlyLibrary [0, 1, 2] [] .never).best .explain =
      .ok (some [.candidate 0, .waived 0 0]) := by
    decide +kernel
  obtain ⟨x, hx, htold⟩ : ∃ x, (Solver.mk costlyLibrary [0, 1, 2] [] .never).explain
      [.candidate 0, .waived 0 0] (0, 0) = some x ∧ x.source.id = 0 ∧
        x.dependency = ⟨.depends, "lib", ⟨[.greaterOrEqual versionOne]⟩⟩ :=
    ⟨_, rfl, by decide +kernel, by decide +kernel⟩
  obtain ⟨f, h, hin⟩ := exists_failure_naming (fun _ => rfl) hselect hexplain (by decide) hx
  have horder : [0, 1, 2].Perm costlyLibrary.ids := by decide +kernel
  have hfits : costlyLibrary.edges.length < UInt64.size := by decide +kernel
  obtain ⟨made, hmade, -, hall⟩ := present_wrong_where_selected (.built costlyLibrary_built) horder hfits
    h x hin (by rw [htold.2])
  obtain rfl := Option.some.inj (Except.ok.inj (hexplain.symm.trans hmade))
  rw [htold.1, htold.2] at hall
  -- no library is selected, so the one whose version is right is listed
  have hnone : ∀ o ∈ costlyLibrary.records, o.provides "lib" = true → o.id ≠ 0 → o.id ∉
      (Solver.mk costlyLibrary [0, 1, 2] [] .never).selection [.candidate 0, .waived 0 0] := by
    decide +kernel
  have hlib : ∃ p ∈ costlyLibrary.records, p.provides "lib" = true ∧ p.id ≠ 0 ∧
      p.version = versionOne := by
    decide +kernel
  obtain ⟨lib, hlib, hprovides, hne, hversion⟩ := hlib
  refine ⟨f, h, x, hin, by rw [htold.2], _, (hall hnone _).2 ⟨lib, hlib, hprovides, hne, rfl⟩, ?_⟩
  rw [htold.2]
  show Dependency.admits _ lib.version = true
  rw [hversion]
  decide +kernel

end Solver
end Loadout
