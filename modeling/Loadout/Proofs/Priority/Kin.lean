/-
# Ranks without the order of arrival

A rank is made of three things, and none of them depends on the order in which candidates came in,
though all are computed along it.  Families are told by chains of pairs alone
(`Priority.areKin_families_iff`).  The identifiers are listed in ascending order
(`Priority.ascending_identifiers`).  And the score of an identifier is a sum over keys and candidates
(`Store.Catalogued.score_eq`), in which members of a group count as often as they are listed; that
is once where groups list nothing twice.
-/

import Loadout.Proofs.Priority.Families
import Loadout.Proofs.Store.Change
import Loadout.Proofs.Version.Sameness
import Mathlib.Data.List.Perm.Basic

namespace Loadout
namespace Priority

variable {s : Store}

/-! ### Identifiers -/

/-- The identifiers are those that candidates have as their own. -/
theorem mem_identifiers {x : String} : x ∈ identifiers s ↔ ∃ c ∈ s.records, c.identifier = x := by
  rw [identifiers, Group.mem_foldl_insertKey Candidate.identifier]
  exact or_iff_right List.not_mem_nil

/-- **Identifiers are listed in ascending order.** -/
theorem ascending_identifiers (s : Store) : Group.Ascending (identifiers s) :=
  Group.Ascending.foldl_insertKey Candidate.identifier s.records List.Pairwise.nil

/-- All of them are ranked. -/
theorem mem_ranking {x : String} : x ∈ ranking s ↔ ∃ c ∈ s.records, c.identifier = x := by
  rw [ranking, List.mem_map]
  simp only [List.mem_mergeSort, standings, List.mem_map]
  rw [← mem_identifiers]
  simp

/-! ### Scores -/

/-- The order of summands does not matter. -/
theorem total_perm {scores scores' : List Int} (h : scores.Perm scores') :
    total scores = total scores' :=
  have : LeftCommutative (fun a b : Int => a + b) := ⟨Int.add_left_comm⟩
  h.foldr_eq 0

/-- The score of two versions does not depend on how they are written. -/
theorem comparisonScore_congr {a a' b b' : Version} (ha : a.sameAs a' = true)
    (hb : b.sameAs b' = true) : comparisonScore a b = comparisonScore a' b' := by
  rw [comparisonScore, comparisonScore, (Version.compare_congr ha b).1, (Version.compare_congr hb a').2]

/-- The order of members does not matter. -/
theorem groupScore_perm {members members' : List Candidate} (h : members.Perm members')
    (id : String) : groupScore members id = groupScore members' id := by
  have hothers := h.filter fun c => c.identifier != id
  refine total_perm (((h.filter _).flatMap_right _).trans ?_)
  exact List.Perm.flatMap_left _ fun a _ => hothers.map _

/-- Only identifiers and versions of members count. -/
theorem groupScore_map {members : List Candidate} {f : Candidate → Candidate}
    (hid : ∀ c ∈ members, (f c).identifier = c.identifier)
    (hversion : ∀ c ∈ members, c.version.sameAs (f c).version = true) (id : String) :
    groupScore (members.map f) id = groupScore members id := by
  have hmine : (members.map f).filter (fun c => c.identifier == id) =
      (members.filter fun c => c.identifier == id).map f := by
    rw [List.filter_map]
    exact congrArg (List.map f) (List.filter_congr fun c hc => by rw [Function.comp_apply, hid c hc])
  have hothers : (members.map f).filter (fun c => c.identifier != id) =
      (members.filter fun c => c.identifier != id).map f := by
    rw [List.filter_map]
    exact congrArg (List.map f) (List.filter_congr fun c hc => by rw [Function.comp_apply, hid c hc])
  rw [groupScore, groupScore, hmine, hothers, List.flatMap_map]
  congr 1
  refine List.flatMap_congr fun a ha => ?_
  rw [List.map_map]
  refine List.map_congr_left fun b hb => ?_
  exact (comparisonScore_congr (hversion a (List.mem_filter.1 ha).1)
    (hversion b (List.mem_filter.1 hb).1)).symm

end Priority

namespace Store

variable {s : Store}

/-- The keys of groups are what candidates provide. -/
theorem Catalogued.mem_keys_iff (h : s.Catalogued) {key : String} :
    key ∈ s.groups.map (·.identifier) ↔ ∃ c ∈ s.records, c.provides key = true := by
  constructor
  · intro hkey
    obtain ⟨g, hg, rfl⟩ := List.mem_map.1 hkey
    obtain ⟨id, hid⟩ := List.exists_mem_of_ne_nil _ (h.inhabited g hg)
    rw [← Group.membersOf_of_mem h.indexed.sorted hg, ← providers_eq, h.indexed.members] at hid
    obtain ⟨c, hc, -, hprovides⟩ := hid
    exact ⟨c, hc, hprovides⟩
  · rintro ⟨c, hc, hprovides⟩
    exact List.mem_map.2 (exists_group_of_mem_providers
      ((h.indexed.members key c.id).2 ⟨c, hc, rfl, hprovides⟩))

/-- The keys of groups ascend, as the index keeps them. -/
theorem Indexed.ascending_keys (h : s.Indexed) : Group.Ascending (s.groups.map (·.identifier)) :=
  List.pairwise_map.2 h.sorted

/-- **The members of a group** are the candidates that provide its identifier. -/
theorem Indexed.getAll_members_perm (h : s.Indexed) {g : Group} (hg : g ∈ s.groups)
    (hnodup : g.members.Nodup) :
    (s.getAll g.members).Perm (s.records.filter fun c => c.provides g.identifier) := by
  have hmem : ∀ id, id ∈ g.members ↔
      ∃ c ∈ s.records, c.id = id ∧ c.provides g.identifier = true := by
    intro id
    rw [← Group.membersOf_of_mem h.sorted hg, ← providers_eq, h.members]
  have hids : (s.getAll g.members).map (·.id) = g.members := s.map_id_getAll fun id hid => by
    obtain ⟨c, hc, hcid, -⟩ := (hmem id).1 hid
    exact mem_ids.2 ⟨c, hc, hcid⟩
  have hleft : (s.getAll g.members).Nodup := List.Nodup.of_map _ (hids.symm ▸ hnodup)
  refine (List.perm_ext_iff_of_nodup hleft (h.nodup.of_map.filter _)).2 fun c => ?_
  rw [h.mem_getAll_iff, hmem, List.mem_filter]
  refine and_congr_right fun hc => ⟨?_, fun hprovides => ⟨c, hc, rfl, hprovides⟩⟩
  rintro ⟨a, ha, hac, hprovides⟩
  rwa [h.eq_of_id_eq ha hc hac] at hprovides

/-- **The score of an identifier** is a sum over all keys and the candidates that provide them. -/
theorem Catalogued.score_eq (h : s.Catalogued) (hg : ∀ g ∈ s.groups, g.members.Nodup) (id : String) :
    Priority.score s id = Priority.total ((s.groups.map (·.identifier)).map fun key =>
      Priority.groupScore (s.records.filter fun c => c.provides key) id) := by
  rw [Priority.score, List.map_map]
  congr 1
  refine List.map_congr_left fun g hgs => ?_
  exact Priority.groupScore_perm (h.indexed.getAll_members_perm hgs (hg g hgs)) id

end Store
end Loadout
