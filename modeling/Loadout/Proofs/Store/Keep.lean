/-
# A store with some of its candidates

When candidates are taken out one after the other, edges and groups shrink with each of them.  In
the end those that stay have what they had among themselves, whatever the order was: the edges
between them (`Candidate.keeping`, `Store.Paired.records_foldl_detach`) and the places in groups
(`Store.Indexed.providers_foldl_detach`).  That both ends of an edge are lists of candidates that
mirror each other is what makes this exact: a candidate that goes tells only those that are in its
own lists.

Depths are computed anew once all others are gone.  Where there is a way in to every candidate,
they are told by what is around each (`Store.Leveled`).
-/

import Loadout.Proofs.Store.Distance
import Loadout.Proofs.Store.Mirror

namespace Loadout

/-- A candidate with only some of its edges. -/
def Candidate.keeping (keep : CandidateId → Bool) (c : Candidate) : Candidate :=
  { c with parents := c.parents.filter keep, children := c.children.filter keep }

namespace Candidate

variable {keep : CandidateId → Bool} {c : Candidate}

/-- A candidate keeps its number, whatever edges it keeps. -/
@[simp] theorem keeping_id : (c.keeping keep).id = c.id := rfl

/-- A candidate keeps its descriptor, whatever edges it keeps. -/
@[simp] theorem keeping_descriptor : (c.keeping keep).descriptor = c.descriptor := rfl

/-- Edges that all stay. -/
theorem keeping_eq_self (hparents : ∀ p ∈ c.parents, keep p = true)
    (hchildren : ∀ x ∈ c.children, keep x = true) : c.keeping keep = c := by
  rw [keeping, List.filter_eq_self.2 hparents, List.filter_eq_self.2 hchildren]

/-- Keeping some edges and then some of them is keeping those of both. -/
theorem keeping_keeping (keep keep' : CandidateId → Bool) (c : Candidate) :
    (c.keeping keep).keeping keep' = c.keeping fun id => keep' id && keep id := by
  rw [keeping, keeping, keeping, List.filter_filter, List.filter_filter]

/-- Which edges are kept counts for those that are there only. -/
theorem keeping_congr {keep' : CandidateId → Bool} (hparents : ∀ p ∈ c.parents, keep p = keep' p)
    (hchildren : ∀ x ∈ c.children, keep x = keep' x) : c.keeping keep = c.keeping keep' := by
  rw [keeping, keeping, List.filter_congr hparents, List.filter_congr hchildren]

/-- **A candidate that keeps something around it** stays what it was, a root or not. -/
theorem isRoot_keeping (h : c.isRoot = false → ∃ p ∈ c.parents, keep p = true) :
    (c.keeping keep).isRoot = c.isRoot := by
  cases hroot : c.isRoot with
  | true =>
      rw [isRoot, List.isEmpty_iff] at hroot
      rw [isRoot, keeping, hroot]
      rfl
  | false =>
      obtain ⟨p, hp, hkeep⟩ := h hroot
      rw [isRoot, List.isEmpty_eq_false_iff]
      exact List.ne_nil_of_mem (List.mem_filter.2 ⟨hp, hkeep⟩)

end Candidate

namespace Store

variable {s : Store}

/-! ### Candidates that stay -/

/-- Edges lead to candidates of the store. -/
theorem Paired.mem_ids (h : s.Paired) {c : Candidate} (hc : c ∈ s.records) :
    (∀ p ∈ c.parents, p ∈ s.ids) ∧ ∀ x ∈ c.children, x ∈ s.ids :=
  ⟨fun _ hp => (h.mirrored.mem_ids ((h.indexed.within_iff hc).2 hp)).1,
    fun _ hx => (h.mirrored.mem_ids ((h.mirrored _ _).2 ((h.indexed.holds_iff hc).2 hx))).2⟩

/-- Edges are paired still when a candidate is taken out. -/
theorem Paired.detach (h : s.Paired) (id : CandidateId) : (s.detach id).Paired :=
  h.apply (show s.linksInside (.detach id) = true from rfl)

/-- **Who is taken out tells all that have an edge to it**, and they lose just this edge. -/
theorem Paired.records_detach (h : s.Paired) (id : CandidateId) : (s.detach id).records =
    (s.records.filter fun c => c.id ≠ id).map (Candidate.keeping fun x => x ≠ id) := by
  rcases s.detach_cases id with ⟨hout, heq⟩ | ⟨gone, hget, f, hcuts, heq⟩
  · have hother : ∀ x ∈ s.ids, decide (x ≠ id) = true := fun x hx =>
      decide_eq_true fun hxid => hout (hxid ▸ hx)
    have hsame : ∀ c ∈ s.records, c.keeping (fun x => decide (x ≠ id)) = c := fun c hc =>
      Candidate.keeping_eq_self (fun p hp => hother p ((h.mem_ids hc).1 p hp))
        fun x hx => hother x ((h.mem_ids hc).2 x hx)
    rw [heq, List.filter_eq_self.2 fun c hc => hother c.id (Store.mem_ids.2 ⟨c, hc, rfl⟩),
      List.map_congr_left hsame, List.map_id']
  · obtain ⟨hgone, rfl⟩ := mem_of_get? hget
    rw [heq]
    refine List.map_congr_left fun c hc => ?_
    have hc := (List.mem_filter.1 hc).1
    have hparents : (f c).parents = c.parents.filter (· ≠ gone.id) := by
      rw [hcuts.parents]
      split
      · rfl
      · rename_i hout
        refine (List.filter_eq_self.2 fun p hp => decide_eq_true ?_).symm
        rintro rfl
        exact hout ((h.indexed.holds_iff hgone).1 ((h.mirrored _ _).1 ⟨c, hc, rfl, hp⟩))
    have hchildren : (f c).children = c.children.filter (· ≠ gone.id) := by
      rw [hcuts.children]
      split
      · rfl
      · rename_i hout
        refine (List.filter_eq_self.2 fun x hx => decide_eq_true ?_).symm
        rintro rfl
        exact hout ((h.indexed.within_iff hgone).1 ((h.mirrored _ _).2 ⟨c, hc, rfl, hx⟩))
    rw [hcuts.frame, hparents, hchildren, Candidate.keeping]

/-- **Those that stay keep the edges among themselves**, in whatever order the others go. -/
theorem Paired.records_foldl_detach : ∀ (gone : List CandidateId) {s : Store}, s.Paired →
    (gone.foldl Store.detach s).records =
      (s.records.filter fun c => !gone.contains c.id).map
        (Candidate.keeping fun id => !gone.contains id)
  | [], s, _ => by
      have hsame : ∀ c ∈ s.records, c.keeping (fun id => !List.contains [] id) = c := fun c _ =>
        Candidate.keeping_eq_self (fun _ _ => rfl) fun _ _ => rfl
      have hall : s.records.filter (fun c => !List.contains [] c.id) = s.records :=
        List.filter_eq_self.2 fun _ _ => rfl
      rw [hall, List.map_congr_left hsame, List.map_id', List.foldl_nil]
  | id :: gone, s, h => by
      have hboth : ∀ x : CandidateId,
          (!gone.contains x && decide (x ≠ id)) = !(id :: gone).contains x := by
        intro x
        by_cases hx : x = id <;> simp [hx]
      rw [List.foldl_cons, Paired.records_foldl_detach gone (h.detach id), h.records_detach,
        List.filter_map, List.map_map, List.filter_filter]
      simp only [Function.comp_def, Candidate.keeping_id, Candidate.keeping_keeping, hboth]

/-! ### Groups of what stays -/

/-- Once some candidates are out, the others provide what they did. -/
theorem Indexed.providers_foldl_detach : ∀ (gone : List CandidateId) {s : Store}, s.Indexed →
    ∀ key, (gone.foldl Store.detach s).providers key =
      (s.providers key).filter fun id => !gone.contains id
  | [], s, _, key => (List.filter_eq_self.2 fun _ _ => rfl).symm
  | id :: gone, s, h, key => by
      rw [List.foldl_cons, Indexed.providers_foldl_detach gone (h.detach id), h.providers_detach,
        List.filter_filter]
      refine List.filter_congr fun x _ => ?_
      by_cases hx : x = id <;> simp [hx]

/-! ### Depths of what stays -/

/-- **Depths are told by what is around**: roots have depth zero, and all else lies one below the
highest candidate that is around it. -/
def Leveled (s : Store) : Prop := ∀ c ∈ s.records,
  (c.isRoot = true → c.depth = 0) ∧
  (c.isRoot = false → ∃ least, c.depth = least + 1 ∧
    IsLeast {depth | ∃ p ∈ c.parents, ∃ q ∈ s.records, q.id = p ∧ q.depth = depth} least)

/-- A way in is a root, or leads through something that is around. -/
theorem Paired.reaches_iff (h : s.Paired) {c : Candidate} (hc : c ∈ s.records) {n : Nat} :
    s.Reaches n c.id ↔ (n = 0 ∧ c.isRoot = true) ∨
      ∃ m, n = m + 1 ∧ ∃ p ∈ c.parents, s.Reaches m p := by
  have hedge : ∀ p, c.id ∈ s.childrenOf p ↔ p ∈ c.parents := fun p => by
    rw [h.indexed.mem_childrenOf_iff, ← h.mirrored, h.indexed.within_iff hc]
  constructor
  · intro hreach
    cases hreach with
    | start hroot =>
        obtain ⟨a, ha, hac, hroot⟩ := hroot
        rw [h.indexed.eq_of_id_eq ha hc hac] at hroot
        exact Or.inl ⟨rfl, hroot⟩
    | @along m p _ hreach hchild => exact Or.inr ⟨m, rfl, p, (hedge p).1 hchild, hreach⟩
  · rintro (⟨rfl, hroot⟩ | ⟨m, rfl, p, hp, hreach⟩)
    · exact .start ⟨c, hc, rfl, hroot⟩
    · exact .along hreach ((hedge p).2 hp)

/-- **New depths are told by what is around**, where there is a way in to every candidate. -/
theorem Paired.leveled_settleDepths (h : s.Paired)
    (hreach : ∀ c ∈ s.records, ∃ n, s.Reaches n c.id) : s.settleDepths.Leveled := by
  obtain ⟨f, heq, hf, hleast, -⟩ := s.settleDepths_spec
  have hdepth : ∀ c ∈ s.records, IsLeast {n | s.Reaches n c.id} (f c).depth := by
    intro c hc
    obtain ⟨n, hn⟩ := hreach c hc
    exact hleast c n hn
  have hmem : ∀ {q}, q ∈ s.settleDepths.records ↔ ∃ a ∈ s.records, f a = q := by
    rw [heq]
    exact List.mem_map
  intro c' hc'
  obtain ⟨c, hc, rfl⟩ := hmem.1 hc'
  have hroot : (f c).isRoot = c.isRoot := by rw [hf, Candidate.isRoot, Candidate.isRoot]
  have hparents : (f c).parents = c.parents := by rw [hf]
  rw [hroot, hparents]
  constructor
  · intro hcroot
    exact Nat.le_zero.1 ((hdepth c hc).2 ((h.reaches_iff hc).2 (Or.inl ⟨rfl, hcroot⟩)))
  · intro hnested
    obtain ⟨m, hm, p, hp, hmreach⟩ := ((h.reaches_iff hc).1 (hdepth c hc).1).resolve_left
      fun hzero => Bool.false_ne_true (hnested.symm.trans hzero.2)
    -- what is around gives a way in that is one longer than its own
    have hbelow : ∀ q ∈ s.records, q.id ∈ c.parents → (f c).depth ≤ (f q).depth + 1 := by
      intro q hq hqc
      exact (hdepth c hc).2 ((h.reaches_iff hc).2 (Or.inr ⟨_, rfl, q.id, hqc, (hdepth q hq).1⟩))
    refine ⟨m, hm, ?_, ?_⟩
    · obtain ⟨q, hq, rfl⟩ := Store.mem_ids.1 ((h.mem_ids hc).1 p hp)
      refine ⟨q.id, hp, f q, hmem.2 ⟨q, hq, rfl⟩, by rw [hf], ?_⟩
      have hle := (hdepth q hq).2 hmreach
      have hge := hbelow q hq hp
      omega
    · rintro d ⟨p', hp', q', hq', rfl, rfl⟩
      obtain ⟨q, hq, rfl⟩ := hmem.1 hq'
      have hid : (f q).id = q.id := by rw [hf]
      have hge := hbelow q hq (hid ▸ hp')
      omega

/-! ### A selection alone -/

/-- The candidates that stay are those of the selection. -/
theorem not_contains_unselected {selection : List CandidateId} {id : CandidateId} (h : id ∈ s.ids) :
    (!(s.unselected selection).contains id) = selection.contains id := by
  rw [Bool.eq_iff_iff, Bool.not_eq_true', List.contains_eq_mem, List.contains_eq_mem,
    decide_eq_false_iff_not, decide_eq_true_eq, mem_unselected]
  simp [h]

/-- The store with a selection alone, before depths are computed. -/
theorem Paired.records_left (h : s.Paired) (selection : List CandidateId) :
    ((s.unselected selection).foldl Store.detach s).records =
      (s.records.filter fun c => selection.contains c.id).map
        (Candidate.keeping selection.contains) := by
  rw [h.records_foldl_detach]
  have hstays : s.records.filter (fun c => !(s.unselected selection).contains c.id) =
      s.records.filter fun c => selection.contains c.id :=
    List.filter_congr fun c hc => not_contains_unselected (Store.mem_ids.2 ⟨c, hc, rfl⟩)
  rw [hstays]
  refine List.map_congr_left fun c hc => ?_
  have hmem := h.mem_ids (List.mem_filter.1 hc).1
  exact Candidate.keeping_congr (fun p hp => not_contains_unselected (hmem.1 p hp))
    fun x hx => not_contains_unselected (hmem.2 x hx)

/-- Edges are paired still when some candidates are taken out. -/
theorem Paired.foldl_detach : ∀ (gone : List CandidateId) {s : Store}, s.Paired →
    (gone.foldl Store.detach s).Paired
  | [], _, h => h
  | id :: gone, _, h => Paired.foldl_detach gone (h.detach id)

/-- **Groups of a settled store** are the selected parts of what they were. -/
theorem Indexed.providers_settle (h : s.Indexed) (selection : List CandidateId) (key : String) :
    (s.settle selection).providers key = (s.providers key).filter selection.contains := by
  obtain ⟨f, heq, -⟩ := settleDepths_eq ((s.unselected selection).foldl Store.detach s)
  have hgroups : (s.settle selection).providers key =
      ((s.unselected selection).foldl Store.detach s).providers key := by
    rw [Store.settle, heq]
    rfl
  rw [hgroups, h.providers_foldl_detach]
  refine List.filter_congr fun id hid => ?_
  obtain ⟨c, hc, rfl, -⟩ := (h.members key id).1 hid
  exact not_contains_unselected (Store.mem_ids.2 ⟨c, hc, rfl⟩)

/-- **What becomes of the candidates of a selection** in the settled store: they keep the edges
among themselves, and have a depth. -/
structure Settles (s : Store) (selection : List CandidateId) (stay : Candidate → Candidate) :
    Prop where
  records : (s.settle selection).records =
    (s.records.filter fun c => selection.contains c.id).map stay
  frame : ∀ c, stay c = { c.keeping selection.contains with depth := (stay c).depth }

/-- Whatever is selected, something becomes of the selected candidates. -/
theorem Paired.exists_settles (h : s.Paired) (selection : List CandidateId) :
    ∃ stay, s.Settles selection stay := by
  obtain ⟨f, heq, hf⟩ := settleDepths_eq ((s.unselected selection).foldl Store.detach s)
  refine ⟨fun c => f (c.keeping selection.contains), ?_, fun c => hf _⟩
  rw [settle, heq]
  show List.map f _ = _
  rw [h.records_left, List.map_map]
  rfl

namespace Settles

variable {selection : List CandidateId} {stay : Candidate → Candidate}

/-- What is selected keeps its number. -/
theorem id (h : s.Settles selection stay) (c : Candidate) : (stay c).id = c.id := by
  rw [h.frame, Candidate.keeping_id]

/-- What is selected keeps its descriptor. -/
theorem descriptor (h : s.Settles selection stay) (c : Candidate) :
    (stay c).descriptor = c.descriptor := by
  rw [h.frame, Candidate.keeping_descriptor]

/-- What is selected is a root where nothing selected is around it. -/
theorem isRoot (h : s.Settles selection stay) (c : Candidate) :
    (stay c).isRoot = (c.keeping selection.contains).isRoot := by
  rw [h.frame]
  rfl

/-- A candidate is told apart from others as it was. -/
theorem ofCandidate (h : s.Settles selection stay) (c : Candidate) :
    ModRef.ofCandidate (stay c) = ModRef.ofCandidate c := by
  rw [ModRef.ofCandidate, ModRef.ofCandidate, Candidate.identifier, Candidate.identifier,
    Candidate.version, Candidate.version, h.id, h.descriptor]

/-- The settled store has what became of the selected candidates. -/
theorem mem_records (h : s.Settles selection stay) {c' : Candidate} :
    c' ∈ (s.settle selection).records ↔ ∃ c ∈ s.records, c.id ∈ selection ∧ stay c = c' := by
  rw [h.records]
  simp only [List.mem_map, List.mem_filter, List.contains_eq_mem, decide_eq_true_eq, and_assoc]

/-- Who stays is found under its number. -/
theorem get?_eq (h : s.Settles selection stay) (hi : s.Indexed) {c : Candidate}
    (hc : c ∈ s.records) (hin : c.id ∈ selection) :
    (s.settle selection).get? c.id = some (stay c) :=
  (hi.settle selection).get?_eq_some_iff.2 ⟨h.mem_records.2 ⟨c, hc, hin, rfl⟩, h.id c⟩

/-- What is selected and looked up is what became of it. -/
theorem getAll_eq (h : s.Settles selection stay) (hi : s.Indexed) {ids : List CandidateId}
    (hknown : ∀ id ∈ ids, id ∈ s.ids) (hin : ∀ id ∈ ids, id ∈ selection) :
    (s.settle selection).getAll ids = (s.getAll ids).map stay := by
  rw [getAll, getAll, List.map_filterMap]
  refine List.filterMap_congr fun id hid => ?_
  obtain ⟨c, hc, rfl⟩ := Store.mem_ids.1 (hknown id hid)
  rw [h.get?_eq hi hc (hin _ hid), hi.get?_eq_some_iff.2 ⟨hc, rfl⟩, Option.map_some]

end Settles

/-- A built store has its edges paired, and so has it with depths computed anew. -/
theorem Built.paired (h : s.Built) : s.Paired := by
  induction h with
  | empty => exact paired_empty
  | insert _ hs ih =>
      exact ⟨ih.indexed.insert hs, ih.mirrored.insert ih.indexed hs, ih.tidy.insert ih.indexed hs⟩

/-- A prepared store has paired edges. -/
theorem Prepared.paired (h : s.Prepared) : s.Paired := by
  cases h with
  | built h => exact h.paired
  | settled h => exact h.paired.apply (show Store.linksInside _ .settle = true from rfl)

end Store

/-! ### The cache of what stays -/

namespace ByteCache

/-- Bytes are gone for what was evicted only. -/
theorem get?_evict_eq (cache : ByteCache) (gone id : CandidateId) :
    (cache.evict gone).get? id = if id = gone then none else cache.get? id := by
  split
  · rename_i hid
    rw [hid, get?_evict]
  · rename_i hid
    rw [get?, get?, evict, List.find?_filter]
    congr 2
    funext x
    by_cases hx : x.1 = id <;> simp [hx, hid]

/-- Bytes are there for what was inserted, and for what was there. -/
theorem get?_insert_eq (cache : ByteCache) (held id : CandidateId) (bytes : ByteArray) :
    (cache.insert held bytes).get? id = if id = held then some bytes else cache.get? id := by
  split
  · rename_i hid
    rw [hid, get?_insert]
  · rename_i hid
    rw [get?, insert, List.find?_cons_of_neg (by simpa using Ne.symm hid)]
    exact (cache.get?_evict_eq held id).trans (if_neg hid)

/-- Bytes are gone for all that was evicted. -/
theorem get?_foldl_evict : ∀ (gone : List CandidateId) (cache : ByteCache) (id : CandidateId),
    (gone.foldl evict cache).get? id = if id ∈ gone then none else cache.get? id
  | [], _, _ => rfl
  | x :: gone, cache, id => by
      rw [List.foldl_cons, get?_foldl_evict gone, get?_evict_eq]
      by_cases hx : id = x <;> by_cases hgone : id ∈ gone <;> simp [hx, hgone]

/-- **The cache loses what leaves the store**, and nothing else. -/
theorem get?_settle (cache : ByteCache) (s : Store) (selection : List CandidateId)
    (id : CandidateId) : (cache.settle s selection).get? id =
      if id ∈ s.ids ∧ id ∉ selection then none else cache.get? id := by
  rw [settle, get?_foldl_evict]
  simp only [Store.mem_unselected]

end ByteCache
end Loadout
