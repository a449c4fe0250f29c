/-
# Containment has no cycles

An edge of containment is told twice, in the list of what is around the inner candidate and in
that of what is inside the outer one.  In a store that inserts and detachments make, the two
lists tell of the same edges (`Store.Mirrored`), and the outer candidate of each lies at a
smaller depth than the inner one (`Store.Layered`).

Depths are not distances here.  A copy that wins takes the candidate up and leaves what is inside
at the depth that it had, so a depth can be larger than that of the container by any number; it
is only ever larger, as a candidate never sinks.  The two invariants need each other where a
candidate is taken out: it tells those inside to forget it, and no others have to.
-/

import Loadout.Proofs.Store.Change
import Mathlib.Logic.Relation

namespace Loadout

/-- Whether a change takes a candidate in or out, and so leaves the depths of others alone. -/
def Change.isInsertOrDetach : Change → Bool
  | .insert _ | .detach _ => true
  | .link .. | .settle => false

namespace Store

variable {s s' : Store} {p c : CandidateId}

/-- One candidate is among what is around another one. -/
def Within (s : Store) (p c : CandidateId) : Prop := ∃ b ∈ s.records, b.id = c ∧ p ∈ b.parents

/-- One candidate has another one among what is inside. -/
def Holds (s : Store) (p c : CandidateId) : Prop := ∃ a ∈ s.records, a.id = p ∧ c ∈ a.children

/-- There is an edge of containment, in either list. -/
def Contains (s : Store) (p c : CandidateId) : Prop := s.Within p c ∨ s.Holds p c

/-- **Both lists tell of the same edges.** -/
def Mirrored (s : Store) : Prop := ∀ p c, s.Within p c ↔ s.Holds p c

/-- What is within what is read off the changed parents, where numbers are kept. -/
theorem within_map {f : Candidate → Candidate} (hid : ∀ a, (f a).id = a.id)
    (hs : s'.records = s.records.map f) :
    s'.Within p c ↔ ∃ b ∈ s.records, b.id = c ∧ p ∈ (f b).parents := by
  simp [Within, hs, hid]

/-- What holds what is read off the changed children, where numbers are kept. -/
theorem holds_map {f : Candidate → Candidate} (hid : ∀ a, (f a).id = a.id)
    (hs : s'.records = s.records.map f) :
    s'.Holds p c ↔ ∃ a ∈ s.records, a.id = p ∧ c ∈ (f a).children := by
  simp [Holds, hs, hid]

/-- Edges of a candidate are told by its own lists. -/
theorem Indexed.within_iff (h : s.Indexed) {b : Candidate} (hb : b ∈ s.records) :
    s.Within p b.id ↔ p ∈ b.parents := by
  refine ⟨fun ⟨a, ha, hab, hp⟩ => ?_, fun hp => ⟨b, hb, rfl, hp⟩⟩
  rwa [h.eq_of_id_eq ha hb hab] at hp

/-- A candidate holds its children. -/
theorem Indexed.holds_iff (h : s.Indexed) {a : Candidate} (ha : a ∈ s.records) :
    s.Holds a.id c ↔ c ∈ a.children := by
  refine ⟨fun ⟨b, hb, hba, hc⟩ => ?_, fun hc => ⟨a, ha, rfl, hc⟩⟩
  rwa [h.eq_of_id_eq hb ha hba] at hc

/-- What a candidate contains is told by its list of what is inside. -/
theorem Indexed.mem_childrenOf_iff (h : s.Indexed) : c ∈ s.childrenOf p ↔ s.Holds p c := by
  rw [childrenOf]
  cases hget : s.get? p with
  | none =>
      refine iff_of_false List.not_mem_nil ?_
      rintro ⟨a, ha, hap, -⟩
      rw [h.get?_eq_some_iff.2 ⟨ha, hap⟩] at hget
      exact absurd hget (by simp)
  | some a =>
      obtain ⟨ha, rfl⟩ := mem_of_get? hget
      exact (h.holds_iff ha).symm

/-! ### One step -/

/-- A candidate may come into another one of the store. -/
theorem Mirrored.linkParent (h : s.Mirrored) {child : CandidateId} (hin : child ∈ s.ids)
    (parent? : Option CandidateId) : (s.linkParent parent? child).Mirrored := by
  rcases s.linkParent_cases parent? child with heq | ⟨parent, -, hne, hparent, heq⟩
  · rwa [heq]
  intro p c
  have hid : ∀ a : Candidate, (a.tie parent child).id = a.id := fun a => by rw [tie_eq]
  obtain ⟨a, ha, rfl⟩ := mem_ids.1 hparent
  obtain ⟨b, hb, rfl⟩ := mem_ids.1 hin
  rw [heq, within_map hid rfl, holds_map hid rfl]
  simp only [mem_parents_tie, mem_children_tie hne, and_or_left, exists_or]
  refine or_congr (h p c) ?_
  constructor
  · rintro ⟨x, -, rfl, hxb, rfl⟩
    exact ⟨a, ha, rfl, rfl, hxb⟩
  · rintro ⟨x, -, rfl, hxa, rfl⟩
    exact ⟨b, hb, rfl, rfl, hxa⟩

/-- A new candidate has no edges yet. -/
theorem Mirrored.add (h : s.Mirrored) {new : Candidate} (hparents : new.parents = [])
    (hchildren : new.children = []) : (s.add new).Mirrored := by
  intro p c
  have hedge := h p c
  simp only [Within, Holds, Store.add, List.mem_append, List.mem_singleton, or_and_right, exists_or,
    exists_eq_left, hparents, hchildren, List.not_mem_nil, and_false, or_false] at hedge ⊢
  exact hedge

/-- More aliases leave both lists alone. -/
theorem Mirrored.gain (h : s.Mirrored) {own : CandidateId} {keys : List String}
    {f : Candidate → Candidate} (hf : Gains s.records own keys f) : (s.gain f own keys).Mirrored := by
  intro p c
  rw [within_map hf.id rfl, holds_map hf.id rfl]
  simp only [hf.parents, hf.children]
  exact h p c

/-- **A candidate that moves** loses what was around it, which loses the candidate. -/
theorem Mirrored.move (h : s.Mirrored) (hindexed : s.Indexed) {m : Candidate} (hm : m ∈ s.records)
    {own : CandidateId} (hown : m.id = own) {left : List CandidateId} (hleft : m.parents = left)
    {new : NewCandidate} {depth : Nat} {g : Candidate → Candidate} (hg : Moves own left new depth g) :
    Mirrored { s with records := s.records.map g } := by
  subst hown hleft
  intro p c
  have hwithin : Within { s with records := s.records.map g } p c ↔ s.Within p c ∧ c ≠ m.id := by
    rw [within_map hg.id rfl]
    constructor
    · rintro ⟨b, hb, rfl, hp⟩
      by_cases hbm : b.id = m.id
      · rw [hg.parents b hbm] at hp
        exact absurd hp List.not_mem_nil
      · rw [hg.others b hbm] at hp
        exact ⟨⟨b, hb, rfl, hp⟩, hbm⟩
    · rintro ⟨⟨b, hb, rfl, hp⟩, hbm⟩
      exact ⟨b, hb, rfl, by rwa [hg.others b hbm]⟩
  have hholds : Holds { s with records := s.records.map g } p c ↔ s.Holds p c ∧ c ≠ m.id := by
    rw [holds_map hg.id rfl]
    constructor
    · rintro ⟨a, ha, rfl, hc⟩
      rw [hg.children] at hc
      split at hc
      · obtain ⟨hc, hcm⟩ := List.mem_filter.1 hc
        exact ⟨⟨a, ha, rfl, hc⟩, of_decide_eq_true hcm⟩
      · rename_i hout
        refine ⟨⟨a, ha, rfl, hc⟩, ?_⟩
        rintro rfl
        exact hout ((hindexed.within_iff hm).1 ((h _ _).2 ⟨a, ha, rfl, hc⟩))
    · rintro ⟨⟨a, ha, rfl, hc⟩, hcm⟩
      refine ⟨a, ha, rfl, ?_⟩
      rw [hg.children]
      split
      · exact List.mem_filter.2 ⟨hc, decide_eq_true hcm⟩
      · exact hc
  rw [hwithin, hholds, h p c]

/-- **Taking a candidate in keeps the two lists alike.** -/
theorem Mirrored.insert (h : s.Mirrored) (hindexed : s.Indexed) {new : NewCandidate} {o : Outcome}
    (hs : s.insert new = .ok (s', o)) : s'.Mirrored := by
  have hgain : ∀ {c : Candidate} {f : Candidate → Candidate} {keys : List String},
      s.copyOf? new.descriptor = some c → Gains s.records c.id keys f →
        f c ∈ (s.gain f c.id keys).records ∧ c.id ∈ (s.gain f c.id keys).ids := by
    intro c f keys hcopy hgains
    have hmem : f c ∈ (s.gain f c.id keys).records := List.mem_map_of_mem (copyOf?_spec hcopy).1
    exact ⟨hmem, mem_ids.2 ⟨f c, hmem, hgains.id c⟩⟩
  cases hindexed.takes hs with
  | numbered _ =>
      exact (h.add rfl rfl).linkParent
        (mem_ids.2 ⟨s.numbered new, List.mem_append_right _ (List.mem_singleton_self _), rfl⟩) _
  | @moved c f g keys hcopy hgains _ _ hmoves =>
      obtain ⟨hmem, hin⟩ := hgain hcopy hgains
      have hindexed' := hindexed.gain (mem_ids.2 ⟨c, (copyOf?_spec hcopy).1, rfl⟩) hgains
      exact ((h.gain hgains).move hindexed' hmem (hgains.id c) (hgains.parents c) hmoves).linkParent
        (mem_ids.2 ⟨g (f c), List.mem_map_of_mem hmem, (hmoves.id _).trans (hgains.id c)⟩) _
  | joined hcopy hgains _ => exact (h.gain hgains).linkParent (hgain hcopy hgains).2 _
  | kept _ hgains => exact h.gain hgains

/-- Edges are between candidates of the store. -/
theorem Mirrored.mem_ids (h : s.Mirrored) (hedge : s.Within p c) : p ∈ s.ids ∧ c ∈ s.ids := by
  obtain ⟨b, hb, hc, -⟩ := id hedge
  obtain ⟨a, ha, hp, -⟩ := (h p c).1 hedge
  exact ⟨Store.mem_ids.2 ⟨a, ha, hp⟩, Store.mem_ids.2 ⟨b, hb, hc⟩⟩

/-- **Who is taken out has no edges left**, and all other edges stay. -/
theorem Mirrored.edges_detach (h : s.Mirrored) (hindexed : s.Indexed) (id : CandidateId) :
    ((s.detach id).Within p c ↔ s.Within p c ∧ p ≠ id ∧ c ≠ id) ∧
      ((s.detach id).Holds p c ↔ s.Holds p c ∧ p ≠ id ∧ c ≠ id) := by
  rcases s.detach_cases id with ⟨hout, heq⟩ | ⟨gone, hget, f, hcuts, heq⟩
  · have hother : s.Within p c → p ≠ id ∧ c ≠ id := fun hedge =>
      ⟨fun hp => hout (hp ▸ (h.mem_ids hedge).1), fun hc => hout (hc ▸ (h.mem_ids hedge).2)⟩
    rw [heq, ← h p c]
    exact ⟨(and_iff_left_of_imp hother).symm, (and_iff_left_of_imp hother).symm⟩
  obtain ⟨hgone, rfl⟩ := mem_of_get? hget
  have hmem : ∀ m, m ∈ (s.detach gone.id).records ↔ ∃ b ∈ s.records, b.id ≠ gone.id ∧ f b = m := by
    intro m
    simp [heq, and_assoc]
  -- those inside are in the list of what goes, and so are those around
  have hinside : ∀ b ∈ s.records, gone.id ∈ b.parents → b.id ∈ gone.children := fun b hb hp =>
    (hindexed.holds_iff hgone).1 ((h _ _).1 ⟨b, hb, rfl, hp⟩)
  have haround : ∀ a ∈ s.records, gone.id ∈ a.children → a.id ∈ gone.parents := fun a ha hc =>
    (hindexed.within_iff hgone).1 ((h _ _).2 ⟨a, ha, rfl, hc⟩)
  constructor
  · constructor
    · rintro ⟨_, hm, rfl, hp⟩
      obtain ⟨b, hb, hne, rfl⟩ := (hmem _).1 hm
      obtain ⟨hp, hcut⟩ := hcuts.mem_parents.1 hp
      rw [hcuts.id]
      exact ⟨⟨b, hb, rfl, hp⟩, fun hpg => hcut (hinside b hb (hpg ▸ hp)) hpg, hne⟩
    · rintro ⟨⟨b, hb, rfl, hp⟩, hpne, hne⟩
      exact ⟨f b, (hmem _).2 ⟨b, hb, hne, rfl⟩, hcuts.id b, hcuts.mem_parents.2 ⟨hp, fun _ => hpne⟩⟩
  · constructor
    · rintro ⟨_, hm, rfl, hc⟩
      obtain ⟨a, ha, hne, rfl⟩ := (hmem _).1 hm
      obtain ⟨hc, hcut⟩ := hcuts.mem_children.1 hc
      rw [hcuts.id]
      exact ⟨⟨a, ha, rfl, hc⟩, hne, fun hcg => hcut (haround a ha (hcg ▸ hc)) hcg⟩
    · rintro ⟨⟨a, ha, rfl, hc⟩, hne, hcne⟩
      exact ⟨f a, (hmem _).2 ⟨a, ha, hne, rfl⟩, hcuts.id a, hcuts.mem_children.2 ⟨hc, fun _ => hcne⟩⟩

/-- Taking a candidate out takes its edges out of both lists. -/
theorem Mirrored.detach (h : s.Mirrored) (hindexed : s.Indexed) (id : CandidateId) :
    (s.detach id).Mirrored := by
  intro p c
  rw [(h.edges_detach hindexed id).1, (h.edges_detach hindexed id).2, h p c]

/-- What stays lies as deep as it did, and so does what is around it. -/
theorem Layered.detach (h : Layered s.records) (hmirrored : s.Mirrored) (hindexed : s.Indexed)
    (id : CandidateId) : Layered (s.detach id).records := by
  rcases s.detach_cases id with ⟨-, heq⟩ | ⟨gone, hget, f, hcuts, heq⟩
  · rwa [heq]
  obtain ⟨-, rfl⟩ := mem_of_get? hget
  have hdepth : ∀ a, (f a).depth = a.depth := fun a => by rw [hcuts.frame]
  intro m hm p hp
  obtain ⟨-, hpne, -⟩ := (hmirrored.edges_detach hindexed gone.id).1.1 ⟨m, hm, rfl, hp⟩
  rw [heq] at hm ⊢
  obtain ⟨b, hb, rfl⟩ := List.mem_map.1 hm
  obtain ⟨q, hq, hqp, hlt⟩ := h b (List.mem_filter.1 hb).1 p (hcuts.mem_parents.1 hp).1
  refine ⟨f q, List.mem_map_of_mem (List.mem_filter.2 ⟨hq, ?_⟩), (hcuts.id q).trans hqp, ?_⟩
  · exact decide_eq_true (hqp ▸ hpne)
  · rwa [hdepth, hdepth]

/-! ### All steps -/

/-- **Containment is told alike by both lists and goes to greater depths.** -/
structure Nested (s : Store) : Prop where
  coherent : s.Coherent
  mirrored : s.Mirrored

/-- The empty store has no edges. -/
theorem nested_empty : empty.Nested :=
  ⟨coherent_empty, fun p c => by simp [Within, Holds, empty]⟩

/-- **Inserts and detachments keep containment so.** -/
theorem Nested.apply (h : s.Nested) {change : Change} (hchange : change.isInsertOrDetach = true) :
    (s.apply change).Nested := by
  cases change with
  | insert new => exact inserted_induction h fun _ _ hs =>
      ⟨h.coherent.insert hs, h.mirrored.insert h.coherent.indexed hs⟩
  | detach id =>
      have hindexed := h.coherent.indexed
      exact ⟨⟨hindexed.detach id, h.coherent.layered.detach h.mirrored hindexed id⟩,
        h.mirrored.detach hindexed id⟩
  | link => exact absurd hchange Bool.false_ne_true
  | settle => exact absurd hchange Bool.false_ne_true

/-- Whatever is inserted and taken out, containment is told alike and goes down. -/
theorem nested_after {changes : List Change}
    (h : ∀ change ∈ changes, change.isInsertOrDetach = true) : (after changes).Nested :=
  after_induction nested_empty fun _ hs change hchange => hs.apply (h change hchange)

/-- Along an edge, in whichever list, depth grows. -/
theorem Nested.depth_lt (h : s.Nested) (hedge : s.Contains p c) :
    ∃ a ∈ s.records, ∃ b ∈ s.records, a.id = p ∧ b.id = c ∧ a.depth < b.depth := by
  obtain ⟨b, hb, rfl, hp⟩ : s.Within p c := hedge.elim id (h.mirrored p c).2
  obtain ⟨a, ha, rfl, hlt⟩ := h.coherent.layered b hb p hp
  exact ⟨a, ha, b, hb, rfl, rfl, hlt⟩

/-- **A chain of edges leads to a greater depth.** -/
theorem Nested.depth_lt_of_transGen (h : s.Nested) (hchain : Relation.TransGen s.Contains p c) :
    ∃ a ∈ s.records, ∃ b ∈ s.records, a.id = p ∧ b.id = c ∧ a.depth < b.depth := by
  induction hchain with
  | single hedge => exact h.depth_lt hedge
  | tail _ hedge ih =>
      obtain ⟨a, ha, b, hb, hap, hbc, hlt⟩ := ih
      obtain ⟨b', hb', d, hd, hbc', hdc, hlt'⟩ := h.depth_lt hedge
      obtain rfl := h.coherent.indexed.eq_of_id_eq hb hb' (hbc.trans hbc'.symm)
      exact ⟨a, ha, d, hd, hap, hdc, Nat.lt_trans hlt hlt'⟩

/-- **Containment that inserts build has no cycles.**  After inserts and detachments in any
order, each edge leads from a candidate of the store to one at a greater depth, though depths
may be out of date, and no chain of edges leads back to where it starts. -/
theorem contained_deeper_and_acyclic (changes : List Change)
    (h : ∀ change ∈ changes, change.isInsertOrDetach = true) :
    (∀ p c, (after changes).Contains p c →
      ∃ a ∈ (after changes).records, ∃ b ∈ (after changes).records,
        a.id = p ∧ b.id = c ∧ a.depth < b.depth) ∧
    ∀ id, ¬ Relation.TransGen (after changes).Contains id id := by
  have hnested := nested_after h
  refine ⟨fun p c hedge => hnested.depth_lt hedge, fun id hcycle => ?_⟩
  obtain ⟨a, ha, b, hb, hai, hbi, hlt⟩ := hnested.depth_lt_of_transGen hcycle
  obtain rfl := hnested.coherent.indexed.eq_of_id_eq ha hb (hai.trans hbi.symm)
  exact Nat.lt_irrefl _ hlt

/-- A library inside a mod has something inside itself, is found again beside the mod, and the
mod goes. -/
def movedUp : List Change :=
  [.take "app" [] none, .take "lib" [] (some 0), .take "util" [] (some 1), .take "lib" [] none,
    .detach 0]

/-- In `movedUp` the library is a root in the end, and what is inside lies below it. -/
theorem contained_deeper_and_acyclic_movedUp :
    (∀ change ∈ movedUp, change.isInsertOrDetach = true) ∧
    ((after movedUp).records.map fun c => (c.id, c.depth, c.parents, c.children)) =
      [(1, 0, [], [2]), (2, 2, [1], [])] ∧
    (∀ p c, (after movedUp).Contains p c →
      ∃ a ∈ (after movedUp).records, ∃ b ∈ (after movedUp).records,
        a.id = p ∧ b.id = c ∧ a.depth < b.depth) ∧
    ∀ id, ¬ Relation.TransGen (after movedUp).Contains id id :=
  ⟨by decide, by decide +kernel, contained_deeper_and_acyclic movedUp (by decide)⟩

end Store
end Loadout
