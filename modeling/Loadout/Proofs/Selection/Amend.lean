/-
# The store with other mods

A fix takes mods away and brings mods in.  What is left once some candidates are gone are
those that a root which stays still carries (`Store.carried`): they are the candidates at the
end of a chain of containers that are all left (`Store.mem_carried_iff`).  What they are and
provide does not change, and they keep the containers that are left (`Store.Leaves`).

A mod that is brought in is a root of its own under a new number, without dependencies and
aliases (`Store.records_foldl_bring`).
-/

import Loadout.Proofs.Selection.Consistent
import Loadout.Proofs.Store.Settle

namespace Loadout
namespace Store

variable {s : Store} {gone : List CandidateId}

/-! ### What is left -/

/-- What is rooted in a selection is selected. -/
theorem Rooted.mem {selection : List CandidateId} {id : CandidateId}
    (h : s.Rooted selection id) : id ∈ selection := by
  cases h with
  | root _ selected => exact selected
  | nested _ selected => exact selected

/-- More candidates carry no less. -/
theorem Rooted.mono {a b : List CandidateId} (hab : ∀ id ∈ a, id ∈ b) {id : CandidateId}
    (h : s.Rooted a id) : s.Rooted b id := by
  induction h with
  | root hc selected isRoot => exact .root hc (hab _ selected) isRoot
  | nested hc selected hp _ ih => exact .nested hc (hab _ selected) hp ih

/-- The candidates that chains of at most `n` of them carry, without those that are gone. -/
def carriedWithin (s : Store) (gone : List CandidateId) : Nat → List CandidateId
  | 0 => []
  | n + 1 => (s.records.filter fun c => !gone.contains c.id &&
      (c.isRoot || c.parents.any fun p => (s.carriedWithin gone n).contains p)).map (·.id)

/-- **The candidates that roots still carry** once some candidates are gone.  Containment has no
cycles, so no chain is longer than the store. -/
def carried (s : Store) (gone : List CandidateId) : List CandidateId := s.carriedWithin gone s.size

/-- A chain of one candidate more: a root that is not gone, or what is inside the end of a chain. -/
theorem mem_carriedWithin_succ {n : Nat} {id : CandidateId} :
    id ∈ s.carriedWithin gone (n + 1) ↔ ∃ c ∈ s.records, c.id = id ∧ c.id ∉ gone ∧
      (c.isRoot = true ∨ ∃ p ∈ c.parents, p ∈ s.carriedWithin gone n) := by
  simp only [carriedWithin, List.mem_map, List.mem_filter, Bool.and_eq_true, Bool.or_eq_true,
    Bool.not_eq_true', List.contains_eq_mem, decide_eq_false_iff_not, List.any_eq_true,
    decide_eq_true_eq]
  constructor
  · rintro ⟨c, ⟨hc, hstay, hcarried⟩, rfl⟩
    exact ⟨c, hc, rfl, hstay, hcarried⟩
  · rintro ⟨c, hc, rfl, hstay, hcarried⟩
    exact ⟨c, ⟨hc, hstay, hcarried⟩, rfl⟩

/-- Longer chains carry what shorter ones do. -/
theorem carriedWithin_subset_succ : ∀ {n : Nat} {id : CandidateId},
    id ∈ s.carriedWithin gone n → id ∈ s.carriedWithin gone (n + 1)
  | 0, _, h => absurd h List.not_mem_nil
  | n + 1, id, h => by
      obtain ⟨c, hc, hid, hstay, hcarried⟩ := mem_carriedWithin_succ.1 h
      refine mem_carriedWithin_succ.2 ⟨c, hc, hid, hstay, hcarried.imp_right ?_⟩
      rintro ⟨p, hp, hmem⟩
      exact ⟨p, hp, carriedWithin_subset_succ hmem⟩

/-- Chains that are longer by any number carry what shorter ones do. -/
theorem carriedWithin_mono {n m : Nat} (h : n ≤ m) {id : CandidateId}
    (hid : id ∈ s.carriedWithin gone n) : id ∈ s.carriedWithin gone m := by
  induction h with
  | refl => exact hid
  | step _ ih => exact carriedWithin_subset_succ ih

/-- **What is carried is rooted** among what is not gone. -/
theorem rooted_of_mem_carriedWithin : ∀ {n : Nat} {id : CandidateId},
    id ∈ s.carriedWithin gone n → s.Rooted (s.unselected gone) id
  | 0, _, h => absurd h List.not_mem_nil
  | n + 1, id, h => by
      obtain ⟨c, hc, rfl, hstay, hcarried⟩ := mem_carriedWithin_succ.1 h
      have hleft : c.id ∈ s.unselected gone := mem_unselected.2 ⟨Store.mem_ids.2 ⟨c, hc, rfl⟩, hstay⟩
      rcases hcarried with hroot | ⟨p, hp, hmem⟩
      · exact .root hc hleft hroot
      · exact .nested hc hleft hp (rooted_of_mem_carriedWithin hmem)

/-- A chain has no candidate twice, as each lies higher than the one before it. -/
theorem exists_chain {rank : CandidateId → Nat}
    (hrank : ∀ c ∈ s.records, ∀ p ∈ c.parents, p ∈ s.ids ∧ rank p < rank c.id) {id : CandidateId}
    (h : s.Rooted (s.unselected gone) id) : ∃ chain : List CandidateId, chain.Nodup ∧
      chain ⊆ s.ids ∧ (∀ x ∈ chain, rank x ≤ rank id) ∧ id ∈ s.carriedWithin gone chain.length := by
  induction h with
  | @root c hc selected isRoot =>
      refine ⟨[c.id], List.nodup_singleton _, ?_, by simp, ?_⟩
      · simpa using Store.mem_ids.2 ⟨c, hc, rfl⟩
      · exact mem_carriedWithin_succ.2 ⟨c, hc, rfl, (mem_unselected.1 selected).2, Or.inl isRoot⟩
  | @nested c p hc selected hp _ ih =>
      obtain ⟨chain, hnodup, hids, hle, hmem⟩ := ih
      have hlt := (hrank c hc p hp).2
      refine ⟨c.id :: chain, List.nodup_cons.2 ⟨fun hin => ?_, hnodup⟩, ?_, ?_, ?_⟩
      · have := hle c.id hin
        omega
      · exact List.cons_subset.2 ⟨Store.mem_ids.2 ⟨c, hc, rfl⟩, hids⟩
      · intro x hx
        rcases List.mem_cons.1 hx with rfl | hx
        · exact Nat.le_refl _
        · have := hle x hx
          omega
      · exact mem_carriedWithin_succ.2
          ⟨c, hc, rfl, (mem_unselected.1 selected).2, Or.inr ⟨p, hp, hmem⟩⟩

/-- **What is left is what roots carry** through candidates that are left. -/
theorem mem_carried_iff (h : s.Ranked) {id : CandidateId} :
    id ∈ s.carried gone ↔ s.Rooted (s.unselected gone) id := by
  refine ⟨rooted_of_mem_carriedWithin, fun hid => ?_⟩
  obtain ⟨rank, hrank⟩ := h
  obtain ⟨chain, hnodup, hids, -, hmem⟩ := exists_chain hrank hid
  exact carriedWithin_mono (Store.length_le_size hnodup hids) hmem

/-! ### What is left of a store -/

/-- **What is left of a store** once some candidates are gone: the candidates that are still
carried, which are roots where they were. -/
structure Leaves (s : Store) (gone : List CandidateId) (stay : Candidate → Candidate) : Prop where
  records : ∀ m, m ∈ (s.settle (s.carried gone)).records ↔
    ∃ c ∈ s.records, c.id ∈ s.carried gone ∧ stay c = m
  id : ∀ c, (stay c).id = c.id
  descriptor : ∀ c, (stay c).descriptor = c.descriptor
  parents : ∀ c, ∀ p ∈ (stay c).parents, p ∈ c.parents
  kept : ∀ c, ∀ p ∈ c.parents, p ∈ s.carried gone → p ∈ (stay c).parents
  isRoot : ∀ c ∈ s.records, c.id ∈ s.carried gone → (stay c).isRoot = c.isRoot

/-- Whatever goes, something is left of an indexed store. -/
theorem Indexed.exists_leaves (hi : s.Indexed) (hr : s.Ranked) (gone : List CandidateId) :
    ∃ stay, s.Leaves gone stay := by
  obtain ⟨stay, hrecords, htrims⟩ := s.exists_records_settle (s.carried gone)
  have hkept : ∀ c, ∀ p ∈ c.parents, p ∈ s.carried gone → p ∈ (stay c).parents :=
    fun c p hp hin => htrims.kept c p hp fun hout => (mem_unselected.1 hout).2 hin
  refine ⟨stay, fun m => ?_, htrims.id, htrims.descriptor, htrims.parents, hkept,
    fun c hc hin => ?_⟩
  · rw [hrecords]
    simp only [List.mem_map, List.mem_filter, List.contains_eq_mem, decide_eq_true_eq, and_assoc]
  · cases hroot : c.isRoot with
    | true =>
        have hnone : c.parents = [] := List.isEmpty_iff.1 hroot
        refine List.isEmpty_iff.2 (List.eq_nil_iff_forall_not_mem.2 fun p hp => ?_)
        have := htrims.parents c p hp
        rw [hnone] at this
        exact absurd this List.not_mem_nil
    | false =>
        -- something around it is carried as well
        obtain ⟨p, hp, hpin⟩ : ∃ p ∈ c.parents, p ∈ s.carried gone := by
          generalize hid : c.id = id at hin
          cases (mem_carried_iff hr).1 hin with
          | root hd _ hdroot =>
              rw [hi.eq_of_id_eq hc hd hid, hdroot] at hroot
              exact absurd hroot Bool.noConfusion
          | nested hd _ hp around =>
              rw [hi.eq_of_id_eq hc hd hid]
              exact ⟨_, hp, (mem_carried_iff hr).2 around⟩
        exact List.isEmpty_eq_false_iff_exists_mem.2 ⟨p, hkept c p hp hpin⟩

namespace Leaves

variable {stay : Candidate → Candidate}

/-- What stays provides what it did. -/
theorem provides (h : s.Leaves gone stay) (c : Candidate) (key : String) :
    (stay c).provides key = c.provides key := provides_congr (h.descriptor c) key

/-- What stays meets the dependencies that it met. -/
theorem meets (h : s.Leaves gone stay) (c : Candidate) (d : Dependency) :
    (stay c).meets d = c.meets d := by
  rw [Candidate.meets, Candidate.meets, h.provides, Candidate.version, Candidate.version,
    h.descriptor]

/-- What stays is loaded as it was: the parents that it has lost were not carried. -/
theorem load (h : s.Leaves gone stay) {c : Candidate} (hc : c ∈ s.records)
    (hin : c.id ∈ s.carried gone) : (stay c).load = c.load := by
  rw [Candidate.load, Candidate.load, h.descriptor, h.isRoot c hc hin]

end Leaves

/-! ### Mods that are brought in -/

end Store

/-- A stand-in as a mod that is found, with nothing around it, without dependencies and
without aliases. -/
def StandIn.asFound (a : StandIn) : NewCandidate :=
  { descriptor := { id := a.identifier, version := a.version }
    location := .file a.identifier, parent? := none, remap := false }

namespace Store

/-- Brings a stand-in in as a root. -/
def bring (s : Store) (a : StandIn) : Store := s.push a.asFound 0

/-- The candidate that a stand-in becomes. -/
def broughtAs (a : StandIn) (id : CandidateId) : Candidate :=
  { id, descriptor := a.asFound.descriptor, location := a.asFound.location, depth := 0
    remap := false }

/-- A stand-in provides its identifier and nothing else. -/
@[simp] theorem broughtAs_provides (a : StandIn) (id : CandidateId) (key : String) :
    (broughtAs a id).provides key = (a.identifier == key) := by
  rw [Bool.eq_iff_iff, provides_iff, beq_iff_eq, eq_comm]
  exact or_iff_left List.not_mem_nil

/-- A stand-in meets the dependencies on its identifier that admit its version. -/
theorem broughtAs_meets (a : StandIn) (id : CandidateId) (d : Dependency) :
    (broughtAs a id).meets d = (a.identifier == d.target && d.admits a.version) := by
  rw [Candidate.meets, broughtAs_provides]
  rfl

/-- **Stand-ins come in under new numbers**, one after the other. -/
theorem records_foldl_bring : ∀ (standIns : List StandIn) (s : Store),
    (standIns.foldl bring s).records =
      s.records ++ (standIns.zipIdx s.nextId).map fun (a, id) => broughtAs a id
  | [], s => by simp
  | a :: standIns, s => by
      rw [List.foldl_cons, records_foldl_bring standIns, List.zipIdx_cons, List.map_cons]
      show (s.records ++ [broughtAs a s.nextId]) ++ _ = _
      rw [List.append_assoc, List.singleton_append]
      rfl

end Store
end Loadout
