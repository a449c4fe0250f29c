/-
# Depths are distances

New depths are computed layer by layer from the roots.  When a layer is reached, all numbers at
most as far away have been found, each with its distance, and the layer is what lies at the last
of these distances (`Store.Spread`).  The next layer is what the layer contains and what has not
been found, so this holds one step further on (`Store.Spread.next`); and where the next layer is
empty, everything that can be reached has been found (`Store.Spread.complete`).

A layer that leads anywhere has a candidate of the store, which no later layer has.  So there are
enough rounds, in stores of any kind: with cycles, with several containers around one candidate,
and with numbers in the lists of edges that nobody has (`Store.distances_spec`).
-/

import Loadout.Proofs.Store.Effects
import Mathlib.Order.Bounds.Basic

namespace Loadout

/-- **A route** of some length from one of the starts, along edges. -/
inductive Route (start : CandidateId → Prop) (edge : CandidateId → CandidateId → Prop) :
    Nat → CandidateId → Prop
  | start {a : CandidateId} (h : start a) : Route start edge 0 a
  | along {n : Nat} {a b : CandidateId} (route : Route start edge n a) (h : edge a b) :
      Route start edge (n + 1) b

/-- More starts and more edges leave routes as they are. -/
theorem Route.mono {start start' : CandidateId → Prop} {edge edge' : CandidateId → CandidateId → Prop}
    (hstart : ∀ a, start a → start' a) (hedge : ∀ a b, edge a b → edge' a b) {n : Nat}
    {a : CandidateId} (h : Route start edge n a) : Route start' edge' n a := by
  induction h with
  | start h => exact .start (hstart _ h)
  | along _ h ih => exact .along ih (hedge _ _ h)

namespace Store

variable {s : Store} {distance : Nat} {layer : List CandidateId} {found : List (CandidateId × Nat)}

/-- Whether a number is that of a root. -/
def HasRoot (s : Store) (id : CandidateId) : Prop := ∃ c ∈ s.records, c.id = id ∧ c.isRoot = true

/-- **There is a way in**: some number of steps from a root, each to what is inside. -/
def Reaches (s : Store) (n : Nat) (id : CandidateId) : Prop :=
  Route s.HasRoot (fun a b => b ∈ s.childrenOf a) n id

/-- What has been found up to a distance, and the layer at it. -/
structure Spread (s : Store) (distance : Nat) (layer : List CandidateId)
    (found : List (CandidateId × Nat)) : Prop where
  least : ∀ id d, (id, d) ∈ found → d ≤ distance ∧ IsLeast {n | s.Reaches n id} d
  all : ∀ id, ∀ n ≤ distance, s.Reaches n id → ∃ d, (id, d) ∈ found
  layer : ∀ id, id ∈ layer ↔ (id, distance) ∈ found

/-- What is in a layer and has not been found. -/
def nextLayer (s : Store) (layer : List CandidateId) (found : List (CandidateId × Nat)) :
    List CandidateId :=
  ((layer.flatMap s.childrenOf).filter fun c => !found.any (·.1 = c)).eraseDups

/-- What has not been found has no distance. -/
theorem not_any_iff {id : CandidateId} :
    (!found.any (·.1 = id)) = true ↔ ∀ d, (id, d) ∉ found := by
  rw [Bool.not_eq_true', List.any_eq_false]
  constructor
  · exact fun h d hd => h (id, d) hd (decide_eq_true rfl)
  · rintro h ⟨x, d⟩ hd hid
    exact h d (of_decide_eq_true hid ▸ hd)

/-- The next layer is what is inside of this one and has not been found. -/
theorem mem_nextLayer {id : CandidateId} : id ∈ s.nextLayer layer found ↔
    (∃ p ∈ layer, id ∈ s.childrenOf p) ∧ ∀ d, (id, d) ∉ found := by
  rw [nextLayer, List.mem_eraseDups, List.mem_filter, List.mem_flatMap, not_any_iff]

/-- What has been found once the next layer has. -/
theorem mem_append_nextLayer {next : List CandidateId} {id : CandidateId} {d : Nat} :
    (id, d) ∈ found ++ next.map (fun c => (c, distance + 1)) ↔
      (id, d) ∈ found ∨ (id ∈ next ∧ d = distance + 1) := by
  simp only [List.mem_append, List.mem_map, Prod.mk.injEq, eq_comm (a := d)]
  simp

/-- What is in anything that has been found has been found too, or comes next. -/
theorem Spread.mem_or_mem (h : s.Spread distance layer found) {a b : CandidateId} {d : Nat}
    (ha : (a, d) ∈ found) (hb : b ∈ s.childrenOf a) :
    (∃ d, (b, d) ∈ found) ∨ b ∈ s.nextLayer layer found := by
  by_cases hfound : ∃ d, (b, d) ∈ found
  · exact Or.inl hfound
  refine Or.inr (mem_nextLayer.2 ⟨⟨a, ?_, hb⟩, not_exists.1 hfound⟩)
  obtain ⟨hle, hleast⟩ := h.least a d ha
  -- nearer than the layer, it would have led to a number that has been found
  rcases Nat.lt_or_eq_of_le hle with hlt | rfl
  · exact absurd (h.all b (d + 1) hlt (.along hleast.1 hb)) hfound
  · exact (h.layer a).2 ha

/-- At distance zero roots have been found. -/
theorem spread_start (s : Store) : s.Spread 0 ((s.records.filter (·.isRoot)).map (·.id))
    (((s.records.filter (·.isRoot)).map (·.id)).map fun r => (r, 0)) := by
  have hroot : ∀ id, id ∈ (s.records.filter (·.isRoot)).map (·.id) ↔ s.HasRoot id := by
    intro id
    simp only [List.mem_map, List.mem_filter, HasRoot, and_assoc, and_comm (a := _ = id)]
  refine ⟨fun id d hin => ?_, fun id n hn hreach => ?_, fun id => by simp⟩
  · obtain ⟨r, hr, heq⟩ := List.mem_map.1 hin
    obtain ⟨rfl, rfl⟩ := Prod.mk.inj heq
    exact ⟨Nat.le_refl 0, .start ((hroot r).1 hr), fun n _ => Nat.zero_le n⟩
  · obtain rfl := Nat.le_zero.1 hn
    cases hreach with
    | start h => exact ⟨0, List.mem_map.2 ⟨id, (hroot id).2 h, rfl⟩⟩

/-- **What comes next is one step further away.** -/
theorem Spread.next (h : s.Spread distance layer found) :
    s.Spread (distance + 1) (s.nextLayer layer found)
      (found ++ (s.nextLayer layer found).map fun c => (c, distance + 1)) := by
  refine ⟨fun id d hin => ?_, fun id n hn hreach => ?_, fun id => ?_⟩
  · rcases mem_append_nextLayer.1 hin with hold | ⟨hnew, rfl⟩
    · obtain ⟨hle, hleast⟩ := h.least id d hold
      exact ⟨Nat.le_succ_of_le hle, hleast⟩
    · obtain ⟨⟨p, hp, hchild⟩, hnot⟩ := mem_nextLayer.1 hnew
      obtain ⟨-, hleast⟩ := h.least p distance ((h.layer p).1 hp)
      refine ⟨Nat.le_refl _, .along hleast.1 hchild, fun n hn => ?_⟩
      by_contra hlt
      obtain ⟨d, hd⟩ := h.all id n (by omega) hn
      exact hnot d hd
  · rcases Nat.lt_or_eq_of_le hn with hlt | rfl
    · obtain ⟨d, hd⟩ := h.all id n (Nat.le_of_lt_succ hlt) hreach
      exact ⟨d, mem_append_nextLayer.2 (Or.inl hd)⟩
    · cases hreach with
      | along hp hchild =>
          obtain ⟨d, hd⟩ := h.all _ distance (Nat.le_refl _) hp
          rcases h.mem_or_mem hd hchild with ⟨d, hd⟩ | hnew
          · exact ⟨d, mem_append_nextLayer.2 (Or.inl hd)⟩
          · exact ⟨distance + 1, mem_append_nextLayer.2 (Or.inr ⟨hnew, rfl⟩)⟩
  · rw [mem_append_nextLayer, and_iff_left rfl]
    refine (or_iff_right fun hold => ?_).symm
    exact absurd (h.least id _ hold).1 (Nat.not_succ_le_self distance)

/-- **Where nothing comes next, all has been found.** -/
theorem Spread.complete (h : s.Spread distance layer found) (hnone : s.nextLayer layer found = [])
    {n : Nat} {id : CandidateId} (hreach : s.Reaches n id) : ∃ d, (id, d) ∈ found := by
  induction hreach with
  | start hroot => exact h.all _ 0 (Nat.zero_le _) (.start hroot)
  | along _ hchild ih =>
      obtain ⟨d, hd⟩ := ih
      refine (h.mem_or_mem hd hchild).resolve_right ?_
      rw [hnone]
      exact List.not_mem_nil

/-! ### The number of rounds -/

/-- How many candidates are in the layer or have not been found. -/
def ahead (s : Store) (layer : List CandidateId) (found : List (CandidateId × Nat)) : Nat :=
  s.ids.countP fun id => layer.contains id || !found.any (·.1 = id)

/-- Only candidates have something inside. -/
theorem mem_ids_of_mem_childrenOf {a b : CandidateId} (h : b ∈ s.childrenOf a) : a ∈ s.ids := by
  rw [childrenOf] at h
  cases hget : s.get? a with
  | none =>
      rw [hget] at h
      exact absurd h List.not_mem_nil
  | some c =>
      obtain ⟨hc, hid⟩ := mem_of_get? hget
      exact mem_ids.2 ⟨c, hc, hid⟩

/-- **Each round leaves a candidate behind**, if anything comes next. -/
theorem Spread.ahead_lt (h : s.Spread distance layer found) (hsome : s.nextLayer layer found ≠ []) :
    s.ahead (s.nextLayer layer found)
      (found ++ (s.nextLayer layer found).map fun c => (c, distance + 1)) < s.ahead layer found := by
  obtain ⟨x, hx⟩ := List.exists_mem_of_ne_nil _ hsome
  obtain ⟨⟨p, hp, hchild⟩, -⟩ := mem_nextLayer.1 hx
  have hfound := (h.layer p).1 hp
  rw [ahead, ahead, List.countP_eq_length_filter, List.countP_eq_length_filter]
  have hsub : (s.ids.filter fun id => (s.nextLayer layer found).contains id ||
      !(found ++ (s.nextLayer layer found).map fun c => (c, distance + 1)).any (·.1 = id)) =
      (s.ids.filter fun id => layer.contains id || !found.any (·.1 = id)).filter fun id =>
        !found.any (·.1 = id) := by
    rw [List.filter_filter]
    refine List.filter_congr fun id _ => ?_
    rw [Bool.eq_iff_iff]
    simp only [Bool.or_eq_true, Bool.and_eq_true, List.contains_iff_mem, not_any_iff,
      mem_append_nextLayer, not_or, forall_and]
    constructor
    · rintro (hnew | ⟨hnot, -⟩)
      · exact ⟨(mem_nextLayer.1 hnew).2, Or.inr (mem_nextLayer.1 hnew).2⟩
      · exact ⟨hnot, Or.inr hnot⟩
    · rintro ⟨hnot, -⟩
      by_cases hnew : id ∈ s.nextLayer layer found
      · exact Or.inl hnew
      · exact Or.inr ⟨hnot, fun _ h => hnew h.1⟩
  rw [hsub]
  refine List.length_filter_lt_length_iff_exists.2 ⟨p, ?_, ?_⟩
  · refine List.mem_filter.2 ⟨mem_ids_of_mem_childrenOf hchild, ?_⟩
    simp [hp]
  · simpa using ⟨distance, hfound⟩

/-- **Enough rounds find everything**, each number with its distance. -/
theorem Spread.spread_spec : ∀ {fuel distance : Nat} {layer : List CandidateId}
    {found : List (CandidateId × Nat)}, s.Spread distance layer found → s.ahead layer found < fuel →
    (∀ id d, (id, d) ∈ s.spread fuel distance layer found → IsLeast {n | s.Reaches n id} d) ∧
      ∀ id n, s.Reaches n id → ∃ d, (id, d) ∈ s.spread fuel distance layer found
  | 0, _, _, _, _, hfuel => absurd hfuel (Nat.not_lt_zero _)
  | fuel + 1, distance, layer, found, h, hfuel => by
      rw [Store.spread]
      change (∀ id d, (id, d) ∈ (if (s.nextLayer layer found).isEmpty then found else _) → _) ∧
        ∀ id n, _ → ∃ d, (id, d) ∈ (if (s.nextLayer layer found).isEmpty then found else _)
      split
      · rename_i hnone
        exact ⟨fun id d hin => (h.least id d hin).2,
          fun id n => h.complete (List.isEmpty_iff.1 hnone)⟩
      · rename_i hsome
        have hlt := h.ahead_lt (by simpa using hsome)
        exact h.next.spread_spec (by omega)

/-- **Distances are those of shortest ways in**, and whatever can be reached has one. -/
theorem distances_spec (s : Store) :
    (∀ id d, (id, d) ∈ s.distances → IsLeast {n | s.Reaches n id} d) ∧
      ∀ id n, s.Reaches n id → ∃ d, (id, d) ∈ s.distances := by
  refine s.spread_start.spread_spec (Nat.lt_succ_of_le ?_)
  rw [size, ← List.length_map (f := (·.id))]
  exact List.countP_le_length

/-- **Computing depths anew** gives every candidate that can be reached its distance, and leaves
all else as it was. -/
theorem settleDepths_spec (s : Store) : ∃ f : Candidate → Candidate,
    s.settleDepths = { s with records := s.records.map f } ∧
      (∀ a, f a = { a with depth := (f a).depth }) ∧
      (∀ a n, s.Reaches n a.id → IsLeast {n | s.Reaches n a.id} (f a).depth) ∧
      ∀ a, (∀ n, ¬ s.Reaches n a.id) → (f a).depth = a.depth := by
  obtain ⟨hleast, hall⟩ := s.distances_spec
  refine ⟨_, rfl, fun a => ?_, fun a n hreach => ?_, fun a hnone => ?_⟩
  · split <;> rfl
  · split
    · rename_i x d hfind
      have hid : x = a.id := by simpa using List.find?_some hfind
      exact hid ▸ hleast x d (List.mem_of_find?_eq_some hfind)
    · rename_i hfind
      obtain ⟨d, hd⟩ := hall a.id n hreach
      exact absurd (List.find?_eq_none.1 hfind _ hd) (by simp)
  · split
    · rename_i x d hfind
      have hid : x = a.id := by simpa using List.find?_some hfind
      exact absurd (hleast x d (List.mem_of_find?_eq_some hfind)).1 (hid ▸ hnone d)
    · rfl

end Store
end Loadout
