/-
# The order of preference leaves nothing out

A candidate of the store has a key, since nothing is around it yet when its key is asked
for.  Sorting by key and letting candidates rise only move candidates, so the order of
preference is a permutation of the candidates (`Store.preferenceOrder_perm`).
-/

import Loadout.Priority.Order
import Loadout.Proofs.Store.Index

namespace Loadout
namespace Priority

variable {s : Store}

/-- **Every candidate has a key** when it is asked for first. -/
theorem exists_keyOf (ranks : List String) {id : CandidateId} {c : Candidate}
    (h : s.get? id = some c) (fuel : Nat) (known : KnownKeys) :
    ∃ key known', keyOf s ranks (fuel + 1) [] id known = (some key, known') := by
  rw [keyOf]
  cases hk : known.lookup id with
  | some key => exact ⟨key, known, by simp⟩
  | none =>
      simp only [h]
      exact ⟨_, _, rfl⟩

/-- A fold that puts each number in front with something has the numbers in the end. -/
theorem map_foldl_of_step {α β : Type} {good : CandidateId → Prop}
    {step : List (CandidateId × α) × β → CandidateId → List (CandidateId × α) × β}
    (hstep : ∀ done known id, good id →
      (step (done, known) id).1.map (·.1) = id :: done.map (·.1)) :
    ∀ (ids : List CandidateId) (x : List (CandidateId × α) × β), (∀ id ∈ ids, good id) →
      (ids.foldl step x).1.map (·.1) = ids.reverse ++ x.1.map (·.1)
  | [], _, _ => rfl
  | id :: ids, x, h => by
      obtain ⟨hid, hids⟩ := List.forall_mem_cons.1 h
      rw [List.foldl_cons, map_foldl_of_step hstep ids _ hids, hstep x.1 x.2 id hid,
        List.reverse_cons, List.append_assoc]
      rfl

/-- The keys are those of the candidates, in the order of their numbers. -/
theorem map_keyed (s : Store) : (keyed s).map (·.1) = s.ids := by
  rw [keyed, List.map_reverse]
  refine List.reverse_eq_iff.2 ((map_foldl_of_step ?_ s.ids _ fun _ hid => hid).trans
    (List.append_nil _))
  intro done known id hid
  obtain ⟨c, -, -, hc⟩ := Store.exists_get?_eq_some hid
  obtain ⟨key, known', hkey⟩ := exists_keyOf (ranking s) hc s.size known
  simp only [hkey]
  rfl

/-- A candidate that rises stays with the others. -/
theorem settle_perm (before : List Candidate) (c : Candidate) :
    (settle before c).Perm (c :: before) := by
  rw [settle]
  refine List.perm_middle.trans (List.Perm.cons c ?_)
  rw [List.take_append_drop]

/-- Settling one after the other only moves candidates. -/
theorem foldl_settle_perm : ∀ (cs before : List Candidate),
    (cs.foldl settle before).Perm (cs ++ before)
  | [], _ => List.Perm.refl _
  | c :: cs, before =>
      (foldl_settle_perm cs (settle before c)).trans
        (((settle_perm before c).append_left cs).trans List.perm_middle)

end Priority

namespace Store

variable {s : Store}

/-- Sorting by key only moves candidates. -/
theorem keyOrder_perm (s : Store) : (Priority.keyOrder s).Perm s.ids := by
  have hsorted := (List.mergeSort_perm (Priority.keyed s) fun a b =>
    ((Priority.compareKeys a.2 b.2).then (compare a.1 b.1)).isLE).map (·.1)
  rwa [Priority.map_keyed] at hsorted

/-- All candidates of the order of keys are there. -/
theorem map_id_getAll_keyOrder (s : Store) :
    (s.getAll (Priority.keyOrder s)).map (·.id) = Priority.keyOrder s :=
  s.map_id_getAll s.keyOrder_perm.subset

/-- **The order of preference is a permutation of the candidates**, whatever contains what. -/
theorem preferenceOrder_perm (s : Store) : s.preferenceOrder.Perm s.ids := by
  have hrisen : ((s.getAll (Priority.keyOrder s)).foldl Priority.settle []).Perm
      (s.getAll (Priority.keyOrder s)) := by
    have := Priority.foldl_settle_perm (s.getAll (Priority.keyOrder s)) []
    rwa [List.append_nil] at this
  have horder : s.preferenceOrder.Perm ((s.getAll (Priority.keyOrder s)).map (·.id)) := by
    rw [preferenceOrder]
    exact ((List.reverse_perm _).trans hrisen).map _
  rw [s.map_id_getAll_keyOrder] at horder
  exact horder.trans s.keyOrder_perm

end Store
end Loadout
