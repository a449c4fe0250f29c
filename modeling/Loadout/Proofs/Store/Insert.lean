/-
# Stores that inserts build

A store is *coherent* when its index is exact and whatever contains a candidate is in the
store and at a smaller depth (`Store.Coherent`).  The empty store is, and taking a
candidate in keeps a store coherent whatever becomes of the candidate: a new one lies one
deeper than what is around it, a copy that wins rises to where it was found, and one that
loses gets one more container only at its own depth (`Store.Coherent.insert`).

So containment has no cycles, although depths can be too large before they are settled
(`Store.Prepared.ranked`).
-/

import Loadout.Proofs.Store.Effects

namespace Loadout
namespace Store

variable {s : Store}

/-! ### The index -/

/-- Tying leaves the index exact. -/
theorem Indexed.tie (h : s.Indexed) (parent child : CandidateId) :
    Indexed { s with records := s.records.map (Candidate.tie parent child) } :=
  h.map (fun a _ => by rw [tie_eq]) fun a _ key => provides_congr (by rw [tie_eq]) key

/-- Edges do not count for the index. -/
theorem Indexed.link (h : s.Indexed) (parent child : CandidateId) : (s.link parent child).Indexed := by
  rcases s.link_cases parent child with heq | ⟨-, -, heq⟩
  · rwa [heq]
  · rw [heq]
    exact h.tie parent child

/-- A link to a container leaves the index exact. -/
theorem Indexed.linkParent (h : s.Indexed) (parent? : Option CandidateId) (child : CandidateId) :
    (s.linkParent parent? child).Indexed := by
  cases parent? with
  | none => exact h
  | some p => exact h.link p child

/-- **A new candidate** is in the groups of its keys. -/
theorem Indexed.add (h : s.Indexed) {c : Candidate} (hid : c.id = s.nextId) : (s.add c).Indexed where
  nodup := by
    show ((s.records ++ [c]).map (·.id)).Nodup
    rw [List.map_append, List.map_singleton]
    have hnot : c.id ∉ s.ids := by
      intro hmem
      obtain ⟨x, hx, hxc⟩ := mem_ids.1 hmem
      have hlt := h.fresh x hx
      rw [hxc, hid] at hlt
      exact absurd hlt (Nat.lt_irrefl _)
    exact List.concat_eq_append ▸ h.nodup.concat hnot
  fresh := by
    intro a ha
    show a.id < s.nextId + 1
    rcases List.mem_append.1 ha with ha | ha
    · exact Nat.lt_succ_of_lt (h.fresh a ha)
    · rw [List.mem_singleton.1 ha, hid]
      exact Nat.lt_succ_self _
  sorted := sorted_indexNew c.id c.keys h.sorted
  members := fun key id => by
    have hold := h.members key id
    rw [providers_eq] at hold ⊢
    have hnew : id ∈ List.replicate (c.keys.count key) c.id ↔ c.id = id ∧ c.provides key = true := by
      rw [List.mem_replicate, provides_iff_mem, ← List.count_pos_iff, Nat.pos_iff_ne_zero, and_comm,
        eq_comm]
    simp only [Store.add, membersOf_indexNew c.id c.keys h.sorted, List.mem_append, hold, hnew,
      List.mem_singleton, or_and_right, exists_or, exists_eq_left]

/-- **A candidate that comes to provide more** comes into the groups of what it provides. -/
theorem Indexed.gain (h : s.Indexed) {id : CandidateId} (hin : id ∈ s.ids) {keys : List String}
    {f : Candidate → Candidate} (hf : Gains s.records id keys f) : (s.gain f id keys).Indexed where
  nodup := by
    have hids : (s.records.map f).map (·.id) = s.ids := by
      rw [List.map_map]
      exact List.map_congr_left fun a _ => hf.id a
    exact (congrArg List.Nodup hids).mpr h.nodup
  fresh := by
    intro a' ha'
    obtain ⟨a, ha, rfl⟩ := List.mem_map.1 ha'
    rw [hf.id]
    exact h.fresh a ha
  sorted := sorted_indexAgain id keys h.sorted
  members := fun key x => by
    have hindex : x ∈ (s.gain f id keys).providers key ↔ x ∈ s.providers key ∨ (x = id ∧ key ∈ keys) := by
      rw [providers_eq, Store.gain, membersOf_indexAgain id keys h.sorted, providers_eq]
      split
      · rename_i hkey
        rw [mem_addOnce, and_iff_left hkey]
      · rename_i hkey
        exact (or_iff_left fun hx => hkey hx.2).symm
    rw [hindex, h.members]
    constructor
    · rintro (⟨a, ha, rfl, hp⟩ | ⟨rfl, hkey⟩)
      · exact ⟨f a, List.mem_map_of_mem ha, hf.id a, (hf.provides a ha key).2 (Or.inl hp)⟩
      · obtain ⟨a, ha, rfl⟩ := mem_ids.1 hin
        exact ⟨f a, List.mem_map_of_mem ha, hf.id a, (hf.provides a ha key).2 (Or.inr ⟨rfl, hkey⟩)⟩
    · rintro ⟨a', ha', rfl, hp⟩
      obtain ⟨a, ha, rfl⟩ := List.mem_map.1 ha'
      rw [hf.id]
      rcases (hf.provides a ha key).1 hp with hp | hnew
      · exact Or.inl ⟨a, ha, rfl, hp⟩
      · exact Or.inr hnew

/-- A candidate that moves provides what it did, where that is all that the new copy does. -/
theorem Indexed.provides_move (h : s.Indexed) {c : Candidate} (hc : c ∈ s.records)
    {own : CandidateId} (hown : c.id = own) {left : List CandidateId} {new : NewCandidate}
    {depth : Nat} {g : Candidate → Candidate} (hg : Moves own left new depth g)
    (hidentifier : new.descriptor.id = c.identifier)
    (hknown : ∀ key ∈ new.descriptor.provides, c.provides key = true) {a : Candidate}
    (ha : a ∈ s.records) (key : String) : (g a).provides key = a.provides key := by
  by_cases hao : a.id = own
  · obtain rfl := h.eq_of_id_eq ha hc (hao.trans hown.symm)
    rw [Bool.eq_iff_iff, provides_iff, provides_iff, Candidate.identifier, Candidate.aliases,
      hg.descriptor a hao, mem_joinAliases, hidentifier, ← or_assoc, or_right_comm]
    exact or_iff_left_of_imp fun hkey => provides_iff.1 (hknown key hkey)
  · exact provides_congr (by rw [hg.others a hao]) key

/-- **A candidate that moves** stays in its groups. -/
theorem Indexed.move (h : s.Indexed) {c : Candidate} (hc : c ∈ s.records) {own : CandidateId}
    (hown : c.id = own) {left : List CandidateId} {new : NewCandidate} {depth : Nat}
    {g : Candidate → Candidate} (hg : Moves own left new depth g)
    (hidentifier : new.descriptor.id = c.identifier)
    (hknown : ∀ key ∈ new.descriptor.provides, c.provides key = true) :
    Indexed { s with records := s.records.map g } :=
  h.map (fun a _ => hg.id a) fun _ ha => h.provides_move hc hown hg hidentifier hknown ha

/-- **Taking a candidate in keeps the index exact**, whatever becomes of it. -/
theorem Indexed.insert (h : s.Indexed) {new : NewCandidate} {s' : Store} {o : Outcome}
    (hs : s.insert new = .ok (s', o)) : s'.Indexed := by
  have hgain : ∀ {c : Candidate} {f : Candidate → Candidate} {keys : List String},
      s.copyOf? new.descriptor = some c → Gains s.records c.id keys f → (s.gain f c.id keys).Indexed :=
    fun hcopy hgains => h.gain (mem_ids.2 ⟨_, (copyOf?_spec hcopy).1, rfl⟩) hgains
  cases h.takes hs with
  | numbered _ => exact (h.add rfl).linkParent _ _
  | @moved c f g keys hcopy hgains hknown _ hmoves =>
      obtain ⟨hc, hidentifier, -⟩ := copyOf?_spec hcopy
      exact ((hgain hcopy hgains).move (List.mem_map_of_mem hc) (hgains.id c) hmoves
        (hidentifier.trans (hgains.identifier c).symm) hknown).linkParent _ _
  | joined hcopy hgains _ => exact (hgain hcopy hgains).linkParent _ _
  | kept hcopy hgains => exact hgain hcopy hgains

/-! ### Layers -/

/-- What contains a candidate is a candidate too, at a smaller depth. -/
def Layered (records : List Candidate) : Prop :=
  ∀ c ∈ records, ∀ p ∈ c.parents, ∃ q ∈ records, q.id = p ∧ q.depth < c.depth

/-- Changing candidates keeps containment going up, where new containers lie higher and no
candidate sinks. -/
theorem Layered.map {records : List Candidate} (h : Layered records) {f : Candidate → Candidate}
    (hid : ∀ c ∈ records, (f c).id = c.id) (hdepth : ∀ c ∈ records, (f c).depth ≤ c.depth)
    (hparents : ∀ c ∈ records, ∀ p ∈ (f c).parents, (p ∈ c.parents ∧ (f c).depth = c.depth) ∨
      ∃ q ∈ records, q.id = p ∧ q.depth < (f c).depth) : Layered (records.map f) := by
  intro c' hc' p hp
  obtain ⟨c, hc, rfl⟩ := List.mem_map.1 hc'
  have hfound : ∃ q ∈ records, q.id = p ∧ q.depth < (f c).depth := by
    rcases hparents c hc p hp with ⟨hold, heq⟩ | hnew
    · rw [heq]
      exact h c hc p hold
    · exact hnew
  obtain ⟨q, hq, hqp, hlt⟩ := hfound
  exact ⟨f q, List.mem_map_of_mem hq, (hid q hq).trans hqp, Nat.lt_of_le_of_lt (hdepth q hq) hlt⟩

/-- **A container that lies higher may be added.** -/
theorem Layered.linkParent (h : Layered s.records) {parent? : Option CandidateId} {child : CandidateId}
    (habove : ∀ p, parent? = some p → p ≠ child → ∀ q ∈ s.records, q.id = p →
      ∀ c ∈ s.records, c.id = child → q.depth < c.depth) :
    Layered (s.linkParent parent? child).records := by
  rcases s.linkParent_cases parent? child with heq | ⟨p, hp, hne, hin, heq⟩
  · rwa [heq]
  rw [heq]
  obtain ⟨q, hq, hqp⟩ := mem_ids.1 hin
  have hdepth : ∀ c : Candidate, (c.tie p child).depth = c.depth := fun c => by rw [tie_eq]
  refine h.map (fun c _ => by rw [tie_eq]) (fun c _ => Nat.le_of_eq (hdepth c)) fun c hc x hx => ?_
  rw [hdepth]
  rcases mem_parents_tie.1 hx with hx | ⟨hchild, rfl⟩
  · exact Or.inl ⟨hx, rfl⟩
  · exact Or.inr ⟨q, hq, hqp, habove x hp hne q hq hqp c hc hchild⟩

/-- **The index is exact and containment goes up.** -/
structure Coherent (s : Store) : Prop where
  indexed : s.Indexed
  layered : Layered s.records

/-- The depth of a new candidate is one more than that of what is around it. -/
theorem Indexed.succ_depth (h : s.Indexed) {new : NewCandidate} {p : CandidateId}
    (hp : new.parent? = some p) {q : Candidate} (hq : q ∈ s.records) (hqp : q.id = p) :
    q.depth + 1 = s.depthFor new := by
  simp [depthFor, hp, h.get?_eq_some_iff.2 ⟨hq, hqp⟩]

/-- More aliases leave the layers. -/
theorem Gains.layered {id : CandidateId} {keys : List String} {f : Candidate → Candidate}
    (hf : Gains s.records id keys f) (h : Layered s.records) : Layered (s.records.map f) := by
  refine h.map (fun a _ => hf.id a) (fun a _ => Nat.le_of_eq (hf.depth a)) fun a _ p hp => ?_
  rw [hf.parents] at hp
  exact Or.inl ⟨hp, hf.depth a⟩

/-- **Taking a candidate in keeps a store coherent**, whatever becomes of it. -/
theorem Coherent.insert (h : s.Coherent) {new : NewCandidate} {s' : Store} {o : Outcome}
    (hs : s.insert new = .ok (s', o)) : s'.Coherent := by
  refine ⟨h.indexed.insert hs, ?_⟩
  have hown : ∀ {a c : Candidate}, a ∈ s.records → s.copyOf? new.descriptor = some c → a.id = c.id →
      a = c := fun ha hcopy => h.indexed.eq_of_id_eq ha (copyOf?_spec hcopy).1
  cases h.indexed.takes hs with
  | numbered _ =>
      have hmem : ∀ a, a ∈ (s.add (s.numbered new)).records ↔ a ∈ s.records ∨ a = s.numbered new := by
        simp [add]
      refine Layered.linkParent (fun a ha p hp => ?_) fun p hp hne q hq hqp a ha hac => ?_
      · rcases (hmem a).1 ha with ha | rfl
        · obtain ⟨q, hq, hqp, hlt⟩ := h.layered a ha p hp
          exact ⟨q, (hmem q).2 (Or.inl hq), hqp, hlt⟩
        · exact absurd hp List.not_mem_nil
      · rcases (hmem a).1 ha with ha | rfl
        · exact absurd hac (Nat.ne_of_lt (h.indexed.fresh a ha))
        rcases (hmem q).1 hq with hq | rfl
        · exact Nat.lt_of_lt_of_eq (Nat.lt_succ_self _) (h.indexed.succ_depth hp hq hqp)
        · exact absurd hqp (Ne.symm hne)
  | @moved c f g keys hcopy hgains _ hdepth hmoves =>
      have hrises : ∀ b ∈ s.records.map f, (g b).depth ≤ b.depth := by
        intro b hb
        obtain ⟨a, ha, rfl⟩ := List.mem_map.1 hb
        by_cases hac : (f a).id = c.id
        · rw [hmoves.depth _ hac]
          rw [hgains.id] at hac
          rw [hgains.depth, hown ha hcopy hac]
          exact hdepth
        · exact Nat.le_of_eq (hmoves.depth_of_ne hac)
      refine Layered.linkParent ((hgains.layered h.layered).map (fun b _ => hmoves.id b) hrises
        fun b _ p hp => ?_) fun p hp hne q' hq' hqp a' ha' hac => ?_
      · by_cases hbc : b.id = c.id
        · rw [hmoves.parents b hbc] at hp
          exact absurd hp List.not_mem_nil
        · rw [hmoves.others b hbc] at hp ⊢
          exact Or.inl ⟨hp, rfl⟩
      · obtain ⟨b, hb, rfl⟩ := List.mem_map.1 hq'
        obtain ⟨q, hq, rfl⟩ := List.mem_map.1 hb
        obtain ⟨b', -, rfl⟩ := List.mem_map.1 ha'
        rw [hmoves.id] at hqp hac
        -- what is around the new place has not moved
        rw [hmoves.depth_of_ne fun hqc => hne (hqp.symm.trans hqc), hmoves.depth _ hac, hgains.depth]
        rw [hgains.id] at hqp
        exact Nat.lt_of_lt_of_eq (Nat.lt_succ_self _) (h.indexed.succ_depth hp hq hqp)
  | @joined c f keys hcopy hgains hdepth =>
      refine Layered.linkParent (hgains.layered h.layered) fun p hp hne q' hq' hqp a' ha' hac => ?_
      obtain ⟨q, hq, rfl⟩ := List.mem_map.1 hq'
      obtain ⟨a, ha, rfl⟩ := List.mem_map.1 ha'
      rw [hgains.id] at hqp hac
      rw [hgains.depth, hgains.depth, hown ha hcopy hac]
      exact Nat.lt_of_lt_of_eq (Nat.lt_succ_self _)
        ((h.indexed.succ_depth hp hq hqp).trans hdepth)
  | kept hcopy hgains => exact hgains.layered h.layered

/-- The index of the empty store is exact. -/
theorem indexed_empty : empty.Indexed where
  nodup := List.nodup_nil
  fresh := fun c hc => absurd hc List.not_mem_nil
  sorted := List.Pairwise.nil
  members := fun key id => by simp [providers, group?, empty]

/-- The empty store is coherent. -/
theorem coherent_empty : empty.Coherent :=
  ⟨indexed_empty, fun _ hc => absurd hc List.not_mem_nil⟩

/-! ### Building a store -/

/-- **The stores that inserts build** from the empty one.  An insert that fails leaves the
store as it is. -/
inductive Built : Store → Prop where
  | empty : Built empty
  | insert {s s' : Store} {new : NewCandidate} {o : Outcome} (built : Built s)
    (h : s.insert new = .ok (s', o)) : Built s'

/-- **What inserts build is coherent.** -/
theorem Built.coherent (h : s.Built) : s.Coherent := by
  induction h with
  | empty => exact coherent_empty
  | insert _ hs ih => exact ih.insert hs

/-- The store after an insert, whether it fails or not. -/
def inserted (s : Store) (new : NewCandidate) : Store :=
  match s.insert new with
  | .ok (s', _) => s'
  | .error _ => s

/-- What inserts build is built further by another one. -/
theorem Built.inserted (h : s.Built) (new : NewCandidate) : (s.inserted new).Built := by
  rw [Store.inserted]
  cases hnew : s.insert new with
  | ok r => exact h.insert hnew
  | error e => exact h

/-- **Every list of candidates builds a store** that takes them in one after the other. -/
theorem Built.foldl {s : Store} (h : s.Built) (news : List NewCandidate) :
    (news.foldl Store.inserted s).Built := by
  induction news generalizing s with
  | nil => exact h
  | cons new news ih => exact ih (h.inserted new)

/-- A store that inserts built, with or without its depths computed anew. -/
inductive Prepared : Store → Prop where
  | built {s : Store} (h : s.Built) : Prepared s
  | settled {s : Store} (h : s.Built) : Prepared s.settleDepths

/-- A number for every candidate that is smaller for those around it. -/
def Ranked (s : Store) : Prop :=
  ∃ rank : CandidateId → Nat, ∀ c ∈ s.records, ∀ p ∈ c.parents, p ∈ s.ids ∧ rank p < rank c.id

/-- Depths rank the candidates of a coherent store. -/
theorem Coherent.ranked (h : s.Coherent) : s.Ranked := by
  refine ⟨fun id => ((s.get? id).map (·.depth)).getD 0, fun c hc p hp => ?_⟩
  obtain ⟨q, hq, rfl, hlt⟩ := h.layered c hc p hp
  refine ⟨mem_ids.2 ⟨q, hq, rfl⟩, ?_⟩
  simpa [h.indexed.get?_eq_some_iff.2 ⟨hq, rfl⟩, h.indexed.get?_eq_some_iff.2 ⟨hc, rfl⟩] using hlt

/-- Computing depths changes nothing but depths. -/
theorem settleDepths_eq (s : Store) : ∃ f : Candidate → Candidate,
    s.settleDepths = { s with records := s.records.map f } ∧
      ∀ a, f a = { a with depth := (f a).depth } := by
  refine ⟨_, rfl, fun a => ?_⟩
  split <;> rfl

/-- The index stays exact when depths are computed anew. -/
theorem Indexed.settleDepths (h : s.Indexed) : s.settleDepths.Indexed := by
  obtain ⟨f, heq, hf⟩ := s.settleDepths_eq
  rw [heq]
  exact h.map (fun a _ => by rw [hf]) fun a _ key => provides_congr (by rw [hf]) key

/-- **In a store that is ready, the index is exact and containment has no cycles.** -/
theorem Prepared.indexed (h : s.Prepared) : s.Indexed := by
  cases h with
  | built h => exact h.coherent.indexed
  | settled h => exact h.coherent.indexed.settleDepths

/-- A prepared store is ranked. -/
theorem Prepared.ranked (h : s.Prepared) : s.Ranked := by
  cases h with
  | built h => exact h.coherent.ranked
  | @settled s h =>
      obtain ⟨f, heq, hf⟩ := s.settleDepths_eq
      obtain ⟨rank, hrank⟩ := h.coherent.ranked
      refine ⟨rank, fun c' hc' p hp => ?_⟩
      rw [heq] at hc'
      obtain ⟨c, hc, rfl⟩ := List.mem_map.1 hc'
      rw [hf] at hp ⊢
      obtain ⟨hin, hlt⟩ := hrank c hc p hp
      obtain ⟨q, hq, rfl⟩ := mem_ids.1 hin
      refine ⟨mem_ids.2 ⟨f q, ?_, by rw [hf]⟩, hlt⟩
      rw [heq]
      exact List.mem_map_of_mem hq

end Store
end Loadout
