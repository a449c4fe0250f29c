/-
# Both lists of every edge

Each edge of containment stands in two lists, that of what is around the inner candidate and that
of what is inside the outer one.  Six places write them: a new candidate, a copy that joins at its
depth, a copy that moves, a link, and both sides of a detachment.  After any of them the two lists
tell of the same edges (`Store.Mirrored`), and no list names anything twice or the candidate that
it belongs to (`Store.Tidy`).

Links alone need a word of caution.  A link looks whether the outer candidate is in the store but
not whether the inner one is, so edges are between candidates of the store where links are only
made to such (`Store.linksKnown`).
-/

import Loadout.Proofs.Store.Containment

namespace Loadout

/-- The edges of a candidate, none of them twice and none to itself. -/
structure Candidate.Tidy (c : Candidate) : Prop where
  parents : c.parents.Nodup
  children : c.children.Nodup
  other : c.id ∉ c.parents

namespace Store

variable {s s' : Store}

/-- Whether a change is no link to what is not in the store. -/
def linksInside (s : Store) : Change → Bool
  | .link _ child => s.contains child
  | _ => true

/-- Whether links only go to candidates that are in the store at that time. -/
def linksKnown : Store → List Change → Bool
  | _, [] => true
  | s, change :: rest => s.linksInside change && linksKnown (s.apply change) rest

/-- No list of edges names anything twice, or the candidate itself. -/
def Tidy (s : Store) : Prop := ∀ c ∈ s.records, c.Tidy

/-- What is added once is in the list once. -/
theorem nodup_addOnce {x : CandidateId} {l : List CandidateId} (h : l.Nodup) :
    (addOnce x l).Nodup := by
  rw [addOnce]
  split
  · exact h
  · rename_i hx
    exact List.concat_eq_append ▸ h.concat (by simpa using hx)

/-! ### One step -/

/-- Changes that keep candidates tidy keep a store tidy. -/
theorem Tidy.map (h : s.Tidy) {f : Candidate → Candidate} (hf : ∀ c : Candidate, c.Tidy → (f c).Tidy)
    (hs : s'.records = s.records.map f) : s'.Tidy := by
  intro c' hc'
  rw [hs] at hc'
  obtain ⟨c, hc, rfl⟩ := List.mem_map.1 hc'
  exact hf c (h c hc)

/-- A new edge is between two candidates, and is not named again. -/
theorem tidy_tie {parent child : CandidateId} (hne : parent ≠ child) {c : Candidate} (h : c.Tidy) :
    (c.tie parent child).Tidy := by
  rw [Candidate.tie]
  split
  · rename_i hc
    refine ⟨nodup_addOnce h.parents, h.children, fun hin => ?_⟩
    rcases mem_addOnce.1 hin with hin | hin
    · exact h.other hin
    · exact hne (hin.symm.trans hc)
  · split
    · exact ⟨h.parents, nodup_addOnce h.children, h.other⟩
    · exact h

/-- A link to a container keeps a store tidy. -/
theorem Tidy.linkParent (h : s.Tidy) (parent? : Option CandidateId) (child : CandidateId) :
    (s.linkParent parent? child).Tidy := by
  rcases s.linkParent_cases parent? child with heq | ⟨parent, -, hne, -, heq⟩
  · rwa [heq]
  · exact h.map (fun _ => tidy_tie hne) (congrArg records heq)

/-- More aliases keep a store tidy. -/
theorem Tidy.gain (h : s.Tidy) {own : CandidateId} {keys : List String} {f : Candidate → Candidate}
    (hf : Gains s.records own keys f) : (s.gain f own keys).Tidy := by
  refine h.map (fun c hc => ?_) rfl
  exact ⟨hf.parents c ▸ hc.parents, hf.children c ▸ hc.children,
    by rw [hf.id, hf.parents]; exact hc.other⟩

/-- What moves has nothing around it at first, and others at most lose it. -/
theorem Moves.tidy {own : CandidateId} {left : List CandidateId} {new : NewCandidate} {depth : Nat}
    {g : Candidate → Candidate} (hg : Moves own left new depth g) {c : Candidate} (h : c.Tidy) :
    (g c).Tidy := by
  have hchildren : (g c).children.Nodup := by
    rw [hg.children]
    split
    · exact h.children.filter _
    · exact h.children
  by_cases hc : c.id = own
  · have hnone := hg.parents c hc
    exact ⟨hnone ▸ List.nodup_nil, hchildren, hnone ▸ List.not_mem_nil⟩
  · have hparents : (g c).parents = c.parents := by rw [hg.others c hc]
    exact ⟨hparents ▸ h.parents, hchildren, by rw [hg.id, hparents]; exact h.other⟩

/-- **Taking a candidate in keeps lists of edges tidy.** -/
theorem Tidy.insert (h : s.Tidy) (hindexed : s.Indexed) {new : NewCandidate} {o : Outcome}
    (hs : s.insert new = .ok (s', o)) : s'.Tidy := by
  cases hindexed.takes hs with
  | numbered _ =>
      refine Tidy.linkParent (fun c hc => ?_) _ _
      rcases List.mem_append.1 hc with hc | hc
      · exact h c hc
      · rw [List.mem_singleton.1 hc]
        exact ⟨List.nodup_nil, List.nodup_nil, List.not_mem_nil⟩
  | moved _ hgains _ _ hmoves => exact ((h.gain hgains).map (fun _ => hmoves.tidy) rfl).linkParent _ _
  | joined _ hgains _ => exact (h.gain hgains).linkParent _ _
  | kept _ hgains => exact h.gain hgains

/-- Who stays loses edges at most. -/
theorem Cuts.tidy {gone : Candidate} {f : Candidate → Candidate} (hf : Cuts gone f) {c : Candidate}
    (h : c.Tidy) : (f c).Tidy := by
  refine ⟨?_, ?_, fun hin => ?_⟩
  · rw [hf.parents]
    split
    · exact h.parents.filter _
    · exact h.parents
  · rw [hf.children]
    split
    · exact h.children.filter _
    · exact h.children
  · rw [hf.id] at hin
    exact h.other (hf.mem_parents.1 hin).1

/-- A store stays tidy when a candidate is taken out. -/
theorem Tidy.detach (h : s.Tidy) (id : CandidateId) : (s.detach id).Tidy := by
  rcases s.detach_cases id with ⟨-, heq⟩ | ⟨gone, -, f, hcuts, heq⟩
  · rwa [heq]
  · intro m hm
    rw [heq] at hm
    obtain ⟨c, hc, rfl⟩ := List.mem_map.1 hm
    exact hcuts.tidy (h c (List.mem_filter.1 hc).1)

/-- A store stays tidy when depths are computed anew. -/
theorem Tidy.settleDepths (h : s.Tidy) : s.settleDepths.Tidy := by
  obtain ⟨f, heq, hf⟩ := s.settleDepths_eq
  refine h.map (fun c hc => ?_) (congrArg records heq)
  rw [hf]
  exact ⟨hc.parents, hc.children, hc.other⟩

/-- Both lists stay alike when depths are computed anew. -/
theorem Mirrored.settleDepths (h : s.Mirrored) : s.settleDepths.Mirrored := by
  obtain ⟨f, heq, hf⟩ := s.settleDepths_eq
  have hid : ∀ a, (f a).id = a.id := fun a => by rw [hf]
  intro p c
  rw [within_map hid (congrArg records heq), holds_map hid (congrArg records heq)]
  have hparents : ∀ a, (f a).parents = a.parents := fun a => by rw [hf]
  have hchildren : ∀ a, (f a).children = a.children := fun a => by rw [hf]
  simp only [hparents, hchildren]
  exact h p c

/-! ### All steps -/

/-- **Every edge stands in two lists, once in each**, and is between two candidates. -/
structure Paired (s : Store) : Prop where
  indexed : s.Indexed
  mirrored : s.Mirrored
  tidy : s.Tidy

/-- The empty store has no edges to pair. -/
theorem paired_empty : empty.Paired :=
  ⟨indexed_empty, nested_empty.mirrored, fun _ hc => absurd hc List.not_mem_nil⟩

/-- **A step keeps edges paired**, where a link goes to a candidate of the store. -/
theorem Paired.apply (h : s.Paired) {change : Change} (hlink : s.linksInside change = true) :
    (s.apply change).Paired := by
  cases change with
  | insert new => exact inserted_induction h fun _ _ hs =>
      ⟨h.indexed.insert hs, h.mirrored.insert h.indexed hs, h.tidy.insert h.indexed hs⟩
  | link parent child =>
      exact ⟨h.indexed.link parent child, h.mirrored.linkParent (contains_iff.1 hlink) (some parent),
        h.tidy.linkParent (some parent) child⟩
  | detach id =>
      exact ⟨h.indexed.detach id, h.mirrored.detach h.indexed id, h.tidy.detach id⟩
  | settle =>
      exact ⟨h.indexed.settleDepths, h.mirrored.settleDepths, h.tidy.settleDepths⟩

/-- **Edges are paired after any changes** that link only what is there. -/
theorem Paired.foldl_apply : ∀ (changes : List Change) {s : Store}, s.Paired →
    linksKnown s changes = true → (changes.foldl Store.apply s).Paired
  | [], _, h, _ => h
  | change :: rest, s, h, hknown => by
      rw [linksKnown, Bool.and_eq_true] at hknown
      exact Paired.foldl_apply rest (h.apply hknown.1) hknown.2

/-- **The lists of what is around and what is inside mirror each other.**  After changes in any
order, of which links go to candidates of the store, one candidate is in the list of what is
around another one just where the other is in the list of what is inside it; and no list names a
candidate twice, the one that it belongs to, or one that is not in the store. -/
theorem parents_mirror_children (changes : List Change) (h : linksKnown empty changes = true) :
    (∀ p c, (∃ b, (after changes).get? c = some b ∧ p ∈ b.parents) ↔
      ∃ a, (after changes).get? p = some a ∧ c ∈ a.children) ∧
    ∀ c ∈ (after changes).records,
      (c.parents.Nodup ∧ c.id ∉ c.parents ∧ ∀ p ∈ c.parents, p ∈ (after changes).ids) ∧
      c.children.Nodup ∧ c.id ∉ c.children ∧ ∀ x ∈ c.children, x ∈ (after changes).ids := by
  have hpaired : (after changes).Paired := paired_empty.foldl_apply changes h
  have hedge := hpaired.mirrored
  have hwithin := fun {p} => @Indexed.within_iff _ p hpaired.indexed
  have hholds := fun {x} => @Indexed.holds_iff _ x hpaired.indexed
  refine ⟨fun p c => ?_, fun c hc => ?_⟩
  · simp only [hpaired.indexed.get?_eq_some_iff, and_assoc]
    exact hedge p c
  · have htidy := hpaired.tidy c hc
    refine ⟨⟨htidy.parents, htidy.other, fun p hp => ?_⟩, htidy.children, fun hin => ?_, fun x hx => ?_⟩
    · exact (hedge.mem_ids ((hwithin hc).2 hp)).1
    · exact htidy.other ((hwithin hc).1 ((hedge _ _).2 ((hholds hc).2 hin)))
    · exact (hedge.mem_ids ((hedge _ _).2 ((hholds hc).2 hx))).2

/-- A library is found inside two mods and then beside them, where it is linked into a third one
and into what it contains itself; then the first mod goes. -/
def passedAround : List Change :=
  [.take "app" [] none, .take "tool" [] none, .take "lib" [] (some 0), .take "lib" [] (some 1),
    .take "util" [] (some 2), .take "lib" [] none, .link 1 2, .link 3 2, .link 0 3, .settle,
    .detach 0]

/-- After `passedAround` both lists tell of the same edges, two of them between the same candidates.
-/
theorem parents_mirror_children_passedAround :
    linksKnown empty passedAround = true ∧
    ((after passedAround).records.map fun c => (c.id, c.parents, c.children)) =
      [(1, [], [2]), (2, [1, 3], [3]), (3, [2], [2])] ∧
    (∀ p c, (∃ b, (after passedAround).get? c = some b ∧ p ∈ b.parents) ↔
      ∃ a, (after passedAround).get? p = some a ∧ c ∈ a.children) ∧
    ∀ c ∈ (after passedAround).records,
      (c.parents.Nodup ∧ c.id ∉ c.parents ∧ ∀ p ∈ c.parents, p ∈ (after passedAround).ids) ∧
      c.children.Nodup ∧ c.id ∉ c.children ∧ ∀ x ∈ c.children, x ∈ (after passedAround).ids :=
  ⟨by decide +kernel, by decide +kernel, parents_mirror_children passedAround (by decide +kernel)⟩

end Store
end Loadout
