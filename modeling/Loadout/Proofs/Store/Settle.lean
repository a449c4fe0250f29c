/-
# What stays in a settled store

When a candidate is taken out, the others lose nothing but their edges to it
(`Store.exists_records_detach`), and the index stays exact (`Store.Indexed.detach`).  So the
index of a settled store is that of the candidates that stay (`Store.Indexed.settle`), which
lose no containers but those that are gone (`Store.exists_records_settle`).
-/

import Loadout.Proofs.Store.Insert
import Loadout.Selection.Settle

namespace Loadout

/-- A group keeps its identifier when a member leaves. -/
@[simp] theorem Candidate.leave_identifier (gone : Candidate) (g : Group) :
    (gone.leave g).identifier = g.identifier := by
  rw [leave]
  split <;> rfl

namespace Store

variable {s : Store}

/-! ### Candidates that stay -/

/-- What is not selected are the other candidates. -/
theorem mem_unselected {selection : List CandidateId} {id : CandidateId} :
    id ∈ s.unselected selection ↔ id ∈ s.ids ∧ id ∉ selection := by
  simp [unselected]

/-- **What becomes of candidates that stay**: nothing but their depths and edges changes, and
they lose no container but those that are gone. -/
structure Trims (gone : List CandidateId) (f : Candidate → Candidate) : Prop where
  id : ∀ c, (f c).id = c.id
  descriptor : ∀ c, (f c).descriptor = c.descriptor
  parents : ∀ c, ∀ p ∈ (f c).parents, p ∈ c.parents
  kept : ∀ c, ∀ p ∈ c.parents, p ∉ gone → p ∈ (f c).parents

/-- Where nothing is gone, nothing changes. -/
theorem Trims.refl (gone : List CandidateId) : Trims gone fun c => c :=
  ⟨fun _ => rfl, fun _ => rfl, fun _ _ hp => hp, fun _ _ hp _ => hp⟩

/-- What goes in two steps is gone. -/
theorem Trims.comp {a b : List CandidateId} {f g : Candidate → Candidate} (hf : Trims a f)
    (hg : Trims b g) : Trims (a ++ b) (g ∘ f) where
  id := fun c => (hg.id _).trans (hf.id c)
  descriptor := fun c => (hg.descriptor _).trans (hf.descriptor c)
  parents := fun c p hp => hf.parents c p (hg.parents _ p hp)
  kept := fun c p hp hout => by
    rw [List.mem_append, not_or] at hout
    exact hg.kept _ p (hf.kept c p hp hout.1) hout.2

/-- Taking one candidate out trims the others. -/
theorem Cuts.trims {gone : Candidate} {f : Candidate → Candidate} (h : Cuts gone f) :
    Trims [gone.id] f where
  id := h.id
  descriptor := fun c => by rw [h.frame]
  parents := fun c p hp => (h.mem_parents.1 hp).1
  kept := fun c p hp hout => h.mem_parents.2 ⟨hp, fun _ => by simpa using hout⟩

/-- Without one candidate the others stay, trimmed. -/
theorem exists_records_detach (s : Store) (id : CandidateId) : ∃ f,
    (s.detach id).records = (s.records.filter fun c => c.id ≠ id).map f ∧ Trims [id] f := by
  rcases s.detach_cases id with ⟨hout, heq⟩ | ⟨gone, hget, f, hcuts, heq⟩
  · have hall : ∀ c ∈ s.records, decide (c.id ≠ id) = true := fun c hc =>
      decide_eq_true fun hcid => hout (mem_ids.2 ⟨c, hc, hcid⟩)
    exact ⟨fun c => c, by rw [heq, List.filter_eq_self.2 hall, List.map_id'], Trims.refl _⟩
  · obtain ⟨-, rfl⟩ := mem_of_get? hget
    exact ⟨f, by rw [heq], hcuts.trims⟩

/-- Without some candidates the others stay, trimmed. -/
theorem exists_records_foldl_detach : ∀ (gone : List CandidateId) (s : Store), ∃ f,
    (gone.foldl detach s).records = (s.records.filter fun c => !gone.contains c.id).map f ∧
      Trims gone f
  | [], s => ⟨fun c => c, by simp, Trims.refl _⟩
  | id :: gone, s => by
      obtain ⟨f, hf, htrims⟩ := s.exists_records_detach id
      obtain ⟨g, hg, htrims'⟩ := exists_records_foldl_detach gone (s.detach id)
      refine ⟨g ∘ f, ?_, htrims.comp htrims'⟩
      rw [List.foldl_cons, hg, hf, List.filter_map, List.map_map, List.filter_filter]
      congr 1
      refine List.filter_congr fun c _ => ?_
      rw [Function.comp_apply, htrims.id]
      by_cases hc : c.id = id <;> simp [hc]

/-- **A settled store has the candidates that stay**, but for what changes about them. -/
theorem exists_records_settle (s : Store) (selection : List CandidateId) : ∃ f,
    (s.settle selection).records = (s.records.filter fun c => selection.contains c.id).map f ∧
      Trims (s.unselected selection) f := by
  obtain ⟨f, hf, htrims⟩ := exists_records_foldl_detach (s.unselected selection) s
  obtain ⟨g, hg, hdepth⟩ := settleDepths_eq ((s.unselected selection).foldl detach s)
  have htrims' : Trims [] g := ⟨fun c => by rw [hdepth], fun c => by rw [hdepth],
    fun c p hp => by rwa [hdepth] at hp, fun c p hp _ => by rwa [hdepth]⟩
  refine ⟨g ∘ f, ?_, List.append_nil (s.unselected selection) ▸ htrims.comp htrims'⟩
  rw [settle, hg]
  show List.map g _ = _
  rw [hf, List.map_map]
  congr 1
  refine List.filter_congr fun c hc => ?_
  have hin : c.id ∈ s.ids := Store.mem_ids.2 ⟨c, hc, rfl⟩
  rw [Bool.eq_iff_iff, Bool.not_eq_true', List.contains_eq_mem, List.contains_eq_mem,
    decide_eq_false_iff_not, decide_eq_true_eq, mem_unselected, not_and, not_not]
  exact ⟨fun h => h hin, fun h _ => h⟩

/-- Taking a candidate out leaves the next number. -/
theorem nextId_detach (s : Store) (id : CandidateId) : (s.detach id).nextId = s.nextId := by
  rcases s.detach_cases id with ⟨-, heq⟩ | ⟨_, _, _, _, heq⟩ <;> rw [heq]

/-- Taking out some candidates leaves the next number. -/
theorem nextId_foldl_detach : ∀ (gone : List CandidateId) (s : Store),
    (gone.foldl detach s).nextId = s.nextId
  | [], _ => rfl
  | id :: gone, s => by
      rw [List.foldl_cons, nextId_foldl_detach gone, nextId_detach]

/-- Settling leaves the next number. -/
theorem nextId_settle (s : Store) (selection : List CandidateId) :
    (s.settle selection).nextId = s.nextId := by
  obtain ⟨g, hg, -⟩ := settleDepths_eq ((s.unselected selection).foldl detach s)
  rw [settle, hg]
  exact nextId_foldl_detach _ s


/-! ### The index of what stays -/

/-- Groups stay sorted when a candidate is taken out. -/
theorem sorted_detach (h : Group.Sorted s.groups) (id : CandidateId) :
    Group.Sorted (s.detach id).groups := by
  rcases s.detach_cases id with ⟨-, heq⟩ | ⟨_, _, _, _, heq⟩
  · rwa [heq]
  · rw [heq]
    refine List.Pairwise.filter _ (List.pairwise_map.2 (h.imp fun hab => ?_))
    rwa [Candidate.leave_identifier, Candidate.leave_identifier]

/-- **Who is taken out leaves the groups of what it provides**, and so all groups. -/
theorem Indexed.providers_detach (h : s.Indexed) (id : CandidateId) (key : String) :
    (s.detach id).providers key = (s.providers key).filter (· ≠ id) := by
  rcases s.detach_cases id with ⟨hout, heq⟩ | ⟨gone, hget, f, -, heq⟩
  · rw [heq, List.filter_eq_self.2 fun x hx => decide_eq_true ?_]
    obtain ⟨c, hc, rfl, -⟩ := (h.members key x).1 hx
    rintro rfl
    exact hout (mem_ids.2 ⟨c, hc, rfl⟩)
  obtain ⟨hgone, rfl⟩ := mem_of_get? hget
  have hsorted : Group.Sorted ((s.groups.map gone.leave).filter fun g => !g.members.isEmpty) := by
    have := sorted_detach h.sorted gone.id
    rwa [heq] at this
  rw [heq, providers_eq, providers_eq]
  by_cases hkey : ∃ g ∈ s.groups, g.identifier = key
  · obtain ⟨g, hg, rfl⟩ := hkey
    -- a group that it does not leave does not have it
    have hleave : (gone.leave g).members = g.members.filter (· ≠ gone.id) := by
      rw [Candidate.leave]
      split
      · rfl
      · rename_i hnot
        refine (List.filter_eq_self.2 fun x hx => decide_eq_true ?_).symm
        rintro rfl
        obtain ⟨c, hc, hid, hp⟩ := (h.members g.identifier gone.id).1
          (by rwa [providers_eq, Group.membersOf_of_mem h.sorted hg])
        rw [h.eq_of_id_eq hc hgone hid] at hp
        exact hnot hp
    rw [Group.membersOf_of_mem h.sorted hg, ← hleave]
    by_cases hempty : (gone.leave g).members = []
    · rw [hempty]
      refine Group.membersOf_eq_nil fun x hx hxg => ?_
      obtain ⟨hx, hfull⟩ := List.mem_filter.1 hx
      obtain ⟨g', hg', rfl⟩ := List.mem_map.1 hx
      rw [Candidate.leave_identifier] at hxg
      rw [h.sorted.eq_of_identifier_eq hg' hg hxg, hempty] at hfull
      exact absurd hfull Bool.false_ne_true
    · have hstays : gone.leave g ∈ (s.groups.map gone.leave).filter fun g => !g.members.isEmpty :=
        List.mem_filter.2 ⟨List.mem_map_of_mem hg, by simpa using hempty⟩
      rw [← gone.leave_identifier g]
      exact Group.membersOf_of_mem hsorted hstays
  · rw [Group.membersOf_eq_nil fun g hg hgkey => hkey ⟨g, hg, hgkey⟩]
    refine Group.membersOf_eq_nil fun x hx hxkey => ?_
    obtain ⟨g, hg, rfl⟩ := List.mem_map.1 (List.mem_filter.1 hx).1
    exact hkey ⟨g, hg, (gone.leave_identifier g).symm.trans hxkey⟩

/-- **The index stays exact** when a candidate is taken out. -/
theorem Indexed.detach (h : s.Indexed) (id : CandidateId) : (s.detach id).Indexed := by
  obtain ⟨f, hf, htrims⟩ := s.exists_records_detach id
  have hmem : ∀ m, m ∈ (s.detach id).records ↔ ∃ c ∈ s.records, c.id ≠ id ∧ f c = m := by
    intro m
    rw [hf]
    simp [and_assoc]
  refine ⟨?_, fun m hm => ?_, sorted_detach h.sorted id, fun key x => ?_⟩
  · have hids : ((s.records.filter fun c => c.id ≠ id).map f).map (·.id) =
        (s.records.filter fun c => c.id ≠ id).map (·.id) := by
      rw [List.map_map]
      exact List.map_congr_left fun c _ => htrims.id c
    rw [ids, hf, hids]
    exact h.nodup.sublist (List.filter_sublist.map _)
  · obtain ⟨c, hc, -, rfl⟩ := (hmem m).1 hm
    rw [htrims.id, nextId_detach]
    exact h.fresh c hc
  · rw [h.providers_detach, List.mem_filter, decide_eq_true_eq, h.members]
    constructor
    · rintro ⟨⟨c, hc, rfl, hp⟩, hne⟩
      exact ⟨f c, (hmem _).2 ⟨c, hc, hne, rfl⟩, htrims.id c,
        (provides_congr (htrims.descriptor c) key).trans hp⟩
    · rintro ⟨m, hm, rfl, hp⟩
      obtain ⟨c, hc, hne, rfl⟩ := (hmem m).1 hm
      rw [htrims.id]
      exact ⟨⟨c, hc, rfl, (provides_congr (htrims.descriptor c) key).symm.trans hp⟩, hne⟩

/-- The index stays exact when some candidates are taken out. -/
theorem Indexed.foldl_detach : ∀ (gone : List CandidateId) {s : Store}, s.Indexed →
    (gone.foldl Store.detach s).Indexed
  | [], _, h => h
  | id :: gone, _, h => Indexed.foldl_detach gone (h.detach id)

/-- **The index of a settled store is exact.** -/
theorem Indexed.settle (h : s.Indexed) (selection : List CandidateId) :
    (s.settle selection).Indexed := by
  obtain ⟨f, heq, hf⟩ := settleDepths_eq ((s.unselected selection).foldl Store.detach s)
  rw [Store.settle, heq]
  exact (Indexed.foldl_detach _ h).map (fun a _ => by rw [hf]) fun a _ key =>
    provides_congr (by rw [hf]) key

end Store
end Loadout
