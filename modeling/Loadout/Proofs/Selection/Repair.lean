/-
# Fixes work

A fix is read off the best choices of the instance that repairs.  The stand-ins that come in
are those that are added (`Solver.perm_brought`); the candidates that go are the roots that
are removed, and what the stand-ins replace (`Solver.mem_gone_iff`).  None of these is
selected, so that the selected candidates are still carried by roots once they are gone
(`Solver.Repairs.selected_mem_carried`), and with the stand-ins they are a consistent
selection of the amended store (`Solver.Repairs.consistent_amend`).
-/

import Loadout.Proofs.Selection.Amend
import Loadout.Proofs.Selection.Explain

namespace Loadout

namespace Fix

/-- The stand-ins that come in. -/
def brought (f : Fix) : List StandIn := f.additions ++ f.replacements.map (·.2)

/-- The candidates that go. -/
def gone (f : Fix) : List CandidateId := f.removals.map (·.id) ++ f.replacements.map (·.1.id)

/-- What the changes cost: one for each mod that comes in, two for each that is removed. -/
def cost (f : Fix) : Nat := f.brought.length + 2 * f.removals.length

end Fix

/-! ### The amended store -/

namespace Store

/-- The store after a fix: candidates go and what no root carries any more goes with them, then
mods come in. -/
def amend (s : Store) (f : Fix) : Store := f.brought.foldl bring (s.settle (s.carried f.gone))

namespace Leaves

variable {s : Store} {f : Fix} {stay : Candidate → Candidate}

/-- **What an amended store has**: the candidates that are left, and the mods that came in. -/
theorem mem_amend (h : s.Leaves f.gone stay) {m : Candidate} : m ∈ (s.amend f).records ↔
    (∃ c ∈ s.records, c.id ∈ s.carried f.gone ∧ stay c = m) ∨
      ∃ a id, (a, id) ∈ f.brought.zipIdx s.nextId ∧ broughtAs a id = m := by
  rw [amend, records_foldl_bring, nextId_settle, List.mem_append, h.records]
  simp only [List.mem_map, Prod.exists]

/-- What is carried stays in the amended store. -/
theorem stay_mem_amend (h : s.Leaves f.gone stay) {c : Candidate} (hc : c ∈ s.records)
    (hin : c.id ∈ s.carried f.gone) : stay c ∈ (s.amend f).records :=
  h.mem_amend.2 (Or.inl ⟨c, hc, hin, rfl⟩)

/-- What is brought is in the amended store. -/
theorem brought_mem_amend (h : s.Leaves f.gone stay) {a : StandIn} {id : CandidateId}
    (ha : (a, id) ∈ f.brought.zipIdx s.nextId) : broughtAs a id ∈ (s.amend f).records :=
  h.mem_amend.2 (Or.inr ⟨a, id, ha, rfl⟩)

end Leaves
end Store

namespace Solver

variable {s : Solver} {explained made : List Choice} {standIns : List StandIn}

/-! ### What a fix is read off -/

/-- The stand-ins that are added. -/
def addedStandIns (standIns : List StandIn) (made : List Choice) : List StandIn :=
  (standIns.zipIdx.filter fun (_, n) => made.contains (.added n)).map (·.1)

/-- The stand-ins that are added are those of the additions. -/
theorem mem_addedStandIns {a : StandIn} : a ∈ addedStandIns standIns made ↔
    ∃ n, standIns[n]? = some a ∧ .added n ∈ made := by
  simp [addedStandIns, List.mem_zipIdx_iff_getElem?]

/-- What a stand-in replaces is a candidate of its identifier. -/
theorem replacedBy_spec {a : StandIn} {old : Candidate} (h : s.replacedBy explained a = some old) :
    old ∈ s.store.records ∧ old.identifier = a.identifier := by
  have hmem : ∀ l : List Candidate, (∀ c ∈ l, c ∈ s.store.records ∧ c.identifier = a.identifier) →
      (l.filter fun c => isSelected explained c.id).head?.or l.head? = some old →
      old ∈ s.store.records ∧ old.identifier = a.identifier := by
    intro l hl hold
    rcases Option.or_eq_some_iff.1 hold with hhead | ⟨-, hhead⟩
    · exact hl old (List.mem_filter.1 (List.mem_of_head? hhead)).1
    · exact hl old (List.mem_of_head? hhead)
  refine hmem _ (fun c hc => ?_) h
  obtain ⟨hall, hsame⟩ := List.mem_filter.1 hc
  rw [Bool.and_eq_true, beq_iff_eq] at hsame
  exact ⟨(Store.mem_getAll hall).1, hsame.1⟩

/-- **What one stand-in adds to a fix**: it comes in, and what it replaces goes. -/
theorem addStandIn_spec (s : Solver) (explained : List Choice) (f : Fix) (a : StandIn) :
    (s.addStandIn explained f a).brought.Perm (a :: f.brought) ∧
      ∀ id, (∃ x ∈ (s.addStandIn explained f a).replacements, x.1.id = id) ↔
        (∃ x ∈ f.replacements, x.1.id = id) ∨
          ∃ old, s.replacedBy explained a = some old ∧ old.id = id := by
  have hadd : (f.additions ++ [a] ++ f.replacements.map (·.2)).Perm (a :: f.brought) := by
    rw [List.append_assoc, List.singleton_append]
    exact List.perm_middle
  rw [addStandIn]
  split
  · rename_i old hold
    split
    · rename_i hdone
      refine ⟨hadd, fun id => ⟨Or.inl, fun h => h.elim (fun h => h) ?_⟩⟩
      rintro ⟨old', hold', rfl⟩
      obtain rfl := Option.some.inj (hold.symm.trans hold')
      simpa using hdone
    · refine ⟨?_, fun id => ?_⟩
      · show (f.additions ++ (f.replacements ++ [(ModRef.ofCandidate old, a)]).map (·.2)).Perm _
        rw [List.map_append, ← List.append_assoc]
        exact List.perm_append_singleton a _
      · simp only [List.mem_append, or_and_right, exists_or, List.mem_singleton, exists_eq_left,
          hold, Option.some.injEq, exists_eq_left']
        rfl
  · rename_i hnone
    refine ⟨hadd, fun id => ⟨Or.inl, fun h => h.elim (fun h => h) ?_⟩⟩
    rintro ⟨old, hold, -⟩
    exact absurd (hnone.symm.trans hold) (by simp)

/-- Adding stand-ins one by one brings each of them, and what they replace goes. -/
theorem foldl_addStandIn_spec (s : Solver) (explained : List Choice) :
    ∀ (l : List StandIn) (f : Fix),
      (l.foldl (s.addStandIn explained) f).brought.Perm (l ++ f.brought) ∧
        ∀ id, (∃ x ∈ (l.foldl (s.addStandIn explained) f).replacements, x.1.id = id) ↔
          (∃ x ∈ f.replacements, x.1.id = id) ∨
            ∃ a ∈ l, ∃ old, s.replacedBy explained a = some old ∧ old.id = id
  | [], f => by simp
  | a :: l, f => by
      obtain ⟨hbrought, hreplaced⟩ := s.addStandIn_spec explained f a
      obtain ⟨hperm, hids⟩ := foldl_addStandIn_spec s explained l (s.addStandIn explained f a)
      refine ⟨hperm.trans ((hbrought.append_left l).trans List.perm_middle), fun id => ?_⟩
      rw [List.foldl_cons, hids, hreplaced, or_assoc]
      simp only [List.mem_cons, exists_eq_or_imp]

/-- **The stand-ins that come in are those that are added.** -/
theorem perm_brought (s : Solver) (explained : List Choice) (standIns : List StandIn)
    (made : List Choice) : (s.readFix explained standIns made).brought.Perm
      (addedStandIns standIns made) := by
  have hperm := (s.foldl_addStandIn_spec explained (addedStandIns standIns made) {}).1
  rwa [show Fix.brought {} = [] from rfl, List.append_nil] at hperm

/-- The removals that are reported are those that are made, in some order. -/
theorem removals_perm (s : Solver) (made : List Choice) :
    (s.removals made).Perm (made.filterMap Choice.removed?) := List.mergeSort_perm ..

/-- What is reported was removed. -/
theorem mem_removals {id : CandidateId} : id ∈ s.removals made ↔ .removed id ∈ made :=
  (s.removals_perm made).mem_iff.trans Choice.mem_removed

/-- Removed roots are told where they are not replaced as well. -/
theorem removals_readFix (s : Solver) (explained : List Choice) (standIns : List StandIn)
    (made : List Choice) : (s.readFix explained standIns made).removals =
      (s.store.getAll ((s.removals made).filter fun id =>
        !(s.readFix explained standIns made).replacements.any fun x => x.1.id = id)).map
          ModRef.ofCandidate := rfl

/-- **The candidates that go are removed or replaced.** -/
theorem mem_gone_iff (hs : s.store.Indexed) {c : Candidate} (hc : c ∈ s.store.records) :
    c.id ∈ (s.readFix explained standIns made).gone ↔ .removed c.id ∈ made ∨
      ∃ a ∈ addedStandIns standIns made, s.replacedBy explained a = some c := by
  have hreplaced : c.id ∈ (s.readFix explained standIns made).replacements.map (·.1.id) ↔
      ∃ a ∈ addedStandIns standIns made, s.replacedBy explained a = some c := by
    have hids := (s.foldl_addStandIn_spec explained (addedStandIns standIns made) {}).2 c.id
    rw [List.mem_map]
    refine hids.trans ?_
    constructor
    · rintro (⟨x, hx, -⟩ | ⟨a, ha, old, hold, hid⟩)
      · exact absurd hx List.not_mem_nil
      · exact ⟨a, ha, hs.eq_of_id_eq (replacedBy_spec hold).1 hc hid ▸ hold⟩
    · rintro ⟨a, ha, hold⟩
      exact Or.inr ⟨a, ha, c, hold, rfl⟩
  rw [Fix.gone, List.mem_append, hreplaced, removals_readFix]
  constructor
  · rintro (h | h)
    · left
      obtain ⟨m, hm, hmc⟩ := List.mem_map.1 h
      obtain ⟨d, hd, rfl⟩ := List.mem_map.1 hm
      have hremoved := (List.mem_filter.1 (Store.mem_getAll hd).2).1
      rwa [show d.id = c.id from hmc, mem_removals] at hremoved
    · exact Or.inr h
  · rintro (h | h)
    · by_cases hout : c.id ∈ (s.readFix explained standIns made).replacements.map (·.1.id)
      · exact Or.inr (hreplaced.1 hout)
      · refine Or.inl (List.mem_map.2 ⟨.ofCandidate c, List.mem_map.2 ⟨c, ?_, rfl⟩, rfl⟩)
        refine hs.mem_getAll_iff.2 ⟨hc, List.mem_filter.2 ⟨mem_removals.2 h, ?_⟩⟩
        simpa using hout
    · exact Or.inr h

/-! ### Why a fix works -/

/-- Nothing is waived where mods are repaired. -/
theorem not_waives (source : CandidateId) (index : Nat) :
    ¬(s.posed (.repair standIns)).Waives made.contains source index :=
  fun hw => absurd hw.1 (by simp [posed])

/-- **Choices that repair a store**: they obey the instance, and they are about something. -/
structure Repairs (s : Solver) (standIns : List StandIn) (made : List Choice) : Prop where
  grounded : (s.posed (.repair standIns)).Grounded
  ranked : s.store.Ranked
  obeys : (s.posed (.repair standIns)).Obeys made.contains
  occurs : ∀ c ∈ made, (s.posed (.repair standIns)).Occurs c

/-- The selection is what was chosen, as the order has it. -/
theorem mem_selection {id : CandidateId} :
    id ∈ s.selection made ↔ id ∈ s.order ∧ .candidate id ∈ made := by
  simp [selection, isSelected]

namespace Repairs

/-- The index of the store is exact. -/
theorem indexed (h : s.Repairs standIns made) : s.store.Indexed := h.grounded.indexed

/-- A candidate is in the selection just where it was chosen. -/
theorem mem_selection_iff (h : s.Repairs standIns made) {c : Candidate} (hc : c ∈ s.store.records) :
    c.id ∈ s.selection made ↔ .candidate c.id ∈ made := by
  rw [mem_selection]
  exact and_iff_right (h.grounded.id_mem_order hc)

/-- Of each identifier one stand-in is added at most. -/
theorem nodup_identifiers (h : s.Repairs standIns made) :
    ((addedStandIns standIns made).map (·.identifier)).Nodup := by
  have hplaces : (standIns.zipIdx.map Prod.snd).Nodup := List.nodup_zipIdx_map_snd _
  rw [addedStandIns, List.map_map]
  refine ((hplaces.of_map _).filter _).map_on ?_
  rintro ⟨a, n⟩ ha ⟨b, m⟩ hb hab
  obtain ⟨ha, hn⟩ := List.mem_filter.1 ha
  obtain ⟨hb, hm⟩ := List.mem_filter.1 hb
  refine List.inj_on_of_nodup_map hplaces ha hb ?_
  exact h.obeys.added_unique (List.mem_zipIdx_iff_getElem?.1 ha) (List.mem_zipIdx_iff_getElem?.1 hb)
    hn hm hab

/-- A candidate is not selected beside a stand-in of its identifier. -/
theorem not_selected_of_added (h : s.Repairs standIns made) {c : Candidate}
    (hc : c ∈ s.store.records) {a : StandIn} (ha : a ∈ addedStandIns standIns made)
    (hac : c.identifier = a.identifier) : .candidate c.id ∉ made := by
  intro hv
  obtain ⟨n, hn, hadded⟩ := mem_addedStandIns.1 ha
  have hown : (Offer.ofCandidate c).provides a.identifier = true := by
    rw [Offer.ofCandidate_provides, Store.provides_iff]
    exact Or.inl hac.symm
  have hsame := h.obeys.single _ (Instance.ofCandidate_mem_offers hc) _
    (Instance.ofStandIn_mem_offers hn)
    (by simpa using hv) (by simpa using hadded) a.identifier hown (by simp)
  exact absurd hsame (by simp)

/-- **What goes is not selected.** -/
theorem not_selected_of_gone (h : s.Repairs standIns made) {c : Candidate}
    (hc : c ∈ s.store.records) (hgone : c.id ∈ (s.readFix explained standIns made).gone) :
    .candidate c.id ∉ made := by
  rcases (mem_gone_iff h.indexed hc).1 hgone with hremoved | ⟨a, ha, hold⟩
  · obtain ⟨hpurpose, d, hd, hdc, hroot, hload, hbuiltin⟩ := h.occurs _ hremoved
    obtain rfl := h.indexed.eq_of_id_eq hd hc hdc
    have hv := h.obeys.dropped d hd hroot hload ⟨hpurpose, hbuiltin, by simpa using hremoved⟩
    simpa using hv
  · exact h.not_selected_of_added hc ha (replacedBy_spec hold).2

/-- **Selected candidates are still carried** once the others are gone. -/
theorem selected_mem_carried (h : s.Repairs standIns made) (explained : List Choice)
    {id : CandidateId} (hid : id ∈ s.selection made) :
    id ∈ s.store.carried (s.readFix explained standIns made).gone := by
  have hknown : ∀ id ∈ s.selection made, id ∈ s.store.ids := fun id hid =>
    (h.grounded.order id).1 (mem_selection.1 hid).1
  refine (Store.mem_carried_iff h.ranked).2 ((h.ranked.rooted hknown ?_ id hid).mono fun x hx => ?_)
  · intro c hc hs hroot
    obtain ⟨p, hp, hv⟩ := h.obeys.contained c hc (by simpa using (mem_selection.1 hs).2) hroot
    exact ⟨p, hp, mem_selection.2 ⟨(h.grounded.order p).2 (h.grounded.parents c hc p hp),
      by simpa using hv⟩⟩
  · obtain ⟨c, hc, rfl⟩ := Store.mem_ids.1 (hknown x hx)
    exact Store.mem_unselected.2 ⟨hknown _ hx, fun hgone =>
      h.not_selected_of_gone hc hgone (mem_selection.1 hx).2⟩

/-! ### The selection of the amended store -/

/-- What is selected once mods have come in: the candidates that were, and these mods. -/
def amended (s : Solver) (f : Fix) (made : List Choice) : List CandidateId :=
  s.selection made ++ (f.brought.zipIdx s.store.nextId).map (·.2)

variable {stay : Candidate → Candidate} {f : Fix}

/-- Mods come in under numbers that no candidate has. -/
theorem id_ne_of_brought (h : s.Repairs standIns made) {c : Candidate} (hc : c ∈ s.store.records)
    {a : StandIn} {id : CandidateId} (ha : (a, id) ∈ f.brought.zipIdx s.store.nextId) :
    c.id ≠ id := by
  have hlt := h.indexed.fresh c hc
  have hle : s.store.nextId ≤ id := (List.mem_zipIdx_iff_le_and_getElem?_sub.1 ha).1
  exact Nat.ne_of_lt (Nat.lt_of_lt_of_le hlt hle)

/-- A candidate is in the amended selection just where it was chosen. -/
theorem mem_amended_iff (h : s.Repairs standIns made) {c : Candidate} (hc : c ∈ s.store.records) :
    c.id ∈ amended s f made ↔ .candidate c.id ∈ made := by
  rw [amended, List.mem_append, h.mem_selection_iff hc]
  refine or_iff_left fun hnew => ?_
  obtain ⟨⟨a, id⟩, ha, hid⟩ := List.mem_map.1 hnew
  exact h.id_ne_of_brought hc ha hid.symm

/-- All that is brought is in the amended selection. -/
theorem brought_mem_amended {a : StandIn} {id : CandidateId}
    (ha : (a, id) ∈ f.brought.zipIdx s.store.nextId) : id ∈ amended s f made :=
  List.mem_append_right _ (List.mem_map.2 ⟨(a, id), ha, rfl⟩)

/-- What is brought was added by a choice. -/
theorem brought_added {a : StandIn} {id : CandidateId}
    (ha : (a, id) ∈ (s.readFix explained standIns made).brought.zipIdx s.store.nextId) :
    ∃ n, standIns[n]? = some a ∧ .added n ∈ made := by
  have hmem := List.mem_of_getElem? (List.mem_zipIdx_iff_le_and_getElem?_sub.1 ha).2
  exact mem_addedStandIns.1 ((s.perm_brought explained standIns made).mem_iff.1 hmem)

/-- **Offers that are taken are still there**, as candidates or as mods that came in. -/
theorem exists_of_taken (h : s.Repairs standIns made)
    (hstay : s.store.Leaves (s.readFix explained standIns made).gone stay) {o : Offer}
    (ho : o ∈ (s.posed (.repair standIns)).offers) (hw : o.choice ∈ made) :
    ∃ m ∈ (s.store.amend (s.readFix explained standIns made)).records,
      m.id ∈ amended s (s.readFix explained standIns made) made ∧
      (∀ key, m.provides key = o.provides key) ∧ ∀ d, m.meets d = o.meets d := by
  rcases Instance.mem_offers.1 ho with ⟨c, hc, rfl⟩ | ⟨a, n, ha, rfl⟩
  · have hin := h.selected_mem_carried explained ((h.mem_selection_iff hc).2 hw)
    refine ⟨stay c, hstay.stay_mem_amend hc hin, ?_, fun key => hstay.provides c key,
      fun d => hstay.meets c d⟩
    rw [hstay.id]
    exact (h.mem_amended_iff hc).2 hw
  · have hadded : a ∈ addedStandIns standIns made := mem_addedStandIns.2 ⟨n, ha, hw⟩
    obtain ⟨k, hk⟩ := List.getElem?_of_mem
      ((s.perm_brought explained standIns made).mem_iff.2 hadded)
    have hplace : (a, s.store.nextId + k) ∈
        (s.readFix explained standIns made).brought.zipIdx s.store.nextId :=
      List.mem_zipIdx_iff_le_and_getElem?_sub.2 ⟨Nat.le_add_right .., by
        rwa [Nat.add_sub_cancel_left]⟩
    refine ⟨_, hstay.brought_mem_amend hplace, brought_mem_amended hplace, fun key => ?_, fun d => ?_⟩
    · rw [Store.broughtAs_provides, Offer.ofStandIn_provides]
    · rw [Store.broughtAs_meets, Offer.ofStandIn_meets]

/-- Mods that came in under one identifier are one mod. -/
theorem brought_unique (h : s.Repairs standIns made) {a b : StandIn} {x y : CandidateId}
    (ha : (a, x) ∈ (s.readFix explained standIns made).brought.zipIdx s.store.nextId)
    (hb : (b, y) ∈ (s.readFix explained standIns made).brought.zipIdx s.store.nextId)
    (hab : a.identifier = b.identifier) : x = y := by
  obtain ⟨hx, ha⟩ := List.mem_zipIdx_iff_le_and_getElem?_sub.1 ha
  obtain ⟨hy, hb⟩ := List.mem_zipIdx_iff_le_and_getElem?_sub.1 hb
  have hx : s.store.nextId ≤ x := hx
  have hy : s.store.nextId ≤ y := hy
  have hnodup : ((s.readFix explained standIns made).brought.map (·.identifier)).Nodup :=
    ((s.perm_brought explained standIns made).map _).nodup_iff.2 h.nodup_identifiers
  have hget : ((s.readFix explained standIns made).brought.map (·.identifier))[x - s.store.nextId]? =
      ((s.readFix explained standIns made).brought.map (·.identifier))[y - s.store.nextId]? := by
    rw [List.getElem?_map, List.getElem?_map, ha, hb, Option.map_some, Option.map_some, hab]
  have hlt : x - s.store.nextId <
      ((s.readFix explained standIns made).brought.map (·.identifier)).length := by
    rw [List.length_map]
    exact (List.getElem?_eq_some_iff.1 ha).1
  have hsame := (List.getElem?_inj hlt hnodup).1 hget
  calc x = x - s.store.nextId + s.store.nextId := (Nat.sub_add_cancel hx).symm
    _ = y - s.store.nextId + s.store.nextId := by rw [hsame]
    _ = y := Nat.sub_add_cancel hy

/-- **What is selected of the amended store was taken**, as a candidate that stays or as a
stand-in. -/
theorem taken_of_mem (h : s.Repairs standIns made)
    (hstay : s.store.Leaves (s.readFix explained standIns made).gone stay) {m : Candidate}
    (hm : m ∈ (s.store.amend (s.readFix explained standIns made)).records)
    (hs : m.id ∈ amended s (s.readFix explained standIns made) made) :
    ∃ o ∈ (s.posed (.repair standIns)).offers, o.choice ∈ made ∧
      (∀ key, o.provides key = m.provides key) ∧ (∀ d, o.meets d = m.meets d) ∧
      ((o.choice = .candidate m.id) ∨ ∃ a n, o = .ofStandIn a n ∧
        (a, m.id) ∈ (s.readFix explained standIns made).brought.zipIdx s.store.nextId) := by
  rcases hstay.mem_amend.1 hm with ⟨c, hc, -, rfl⟩ | ⟨a, id, ha, rfl⟩
  · rw [hstay.id, h.mem_amended_iff hc] at hs
    refine ⟨_, Instance.ofCandidate_mem_offers hc, hs, fun key => (hstay.provides c key).symm,
      fun d => (hstay.meets c d).symm, Or.inl ?_⟩
    rw [hstay.id]
    rfl
  · obtain ⟨n, hn, hadded⟩ := brought_added ha
    refine ⟨_, Instance.ofStandIn_mem_offers hn, hadded, fun key => ?_, fun d => ?_,
      Or.inr ⟨a, n, rfl, ha⟩⟩
    · rw [Store.broughtAs_provides, Offer.ofStandIn_provides]
    · rw [Store.broughtAs_meets, Offer.ofStandIn_meets]

/-- Nothing is provided twice by what is selected of the amended store. -/
theorem amended_unique (h : s.Repairs standIns made)
    (hstay : s.store.Leaves (s.readFix explained standIns made).gone stay) {a b : Candidate}
    (ha : a ∈ (s.store.amend (s.readFix explained standIns made)).records)
    (hb : b ∈ (s.store.amend (s.readFix explained standIns made)).records)
    (has : a.id ∈ amended s (s.readFix explained standIns made) made)
    (hbs : b.id ∈ amended s (s.readFix explained standIns made) made) {key : String}
    (hap : a.provides key = true) (hbp : b.provides key = true) : a.id = b.id := by
  obtain ⟨o, ho, how, hkey, -, hchoice⟩ := h.taken_of_mem hstay ha has
  obtain ⟨o', ho', how', hkey', -, hchoice'⟩ := h.taken_of_mem hstay hb hbs
  have hop := (hkey key).trans hap
  have hop' := (hkey' key).trans hbp
  have hsame := h.obeys.single o ho o' ho' (by simpa using how) (by simpa using how') key hop hop'
  rcases hchoice with hchoice | ⟨x, n, rfl, hx⟩ <;>
    rcases hchoice' with hchoice' | ⟨y, k, rfl, hy⟩
  · rw [hchoice, hchoice'] at hsame
    exact Choice.candidate.inj hsame
  · rw [hchoice] at hsame
    exact absurd hsame (by simp)
  · rw [hchoice'] at hsame
    exact absurd hsame (by simp)
  · rw [Offer.ofStandIn_provides, beq_iff_eq] at hop hop'
    exact brought_unique h hx hy (hop.trans hop'.symm)

/-- A root that is still there was not dropped. -/
theorem not_drops_of_mem_carried (h : s.Repairs standIns made) {c : Candidate}
    (hc : c ∈ s.store.records)
    (hin : c.id ∈ s.store.carried (s.readFix explained standIns made).gone) :
    ¬(s.posed (.repair standIns)).Drops made.contains c := by
  intro hdrop
  have hgone : c.id ∈ (s.readFix explained standIns made).gone :=
    (mem_gone_iff h.indexed hc).2 (Or.inl (by simpa using hdrop.2.2))
  exact (Store.mem_unselected.1 ((Store.mem_carried_iff h.ranked).1 hin).mem).2 hgone

/-- What provides the identifier of a candidate provides that of what becomes of it. -/
theorem exists_of_provided (h : s.Repairs standIns made)
    (hstay : s.store.Leaves (s.readFix explained standIns made).gone stay) {c : Candidate}
    (hprovided : ∃ o ∈ (s.posed (.repair standIns)).offers, made.contains o.choice = true ∧
      o.provides c.identifier = true) :
    ∃ m ∈ (s.store.amend (s.readFix explained standIns made)).records,
      m.id ∈ amended s (s.readFix explained standIns made) made ∧
      m.provides (stay c).identifier = true := by
  obtain ⟨o, ho, hw, hp⟩ := hprovided
  obtain ⟨m, hm, hms, hkey, -⟩ := h.exists_of_taken hstay ho (by simpa using hw)
  refine ⟨m, hm, hms, ?_⟩
  rw [hkey, Candidate.identifier, hstay.descriptor]
  exact hp

/-- **What was selected and what came in is consistent.**  What came in depends on nothing and
is in nothing, so that only candidates that stay are to be looked at. -/
theorem consistent_of_leaves (h : s.Repairs standIns made)
    (hstay : s.store.Leaves (s.readFix explained standIns made).gone stay) :
    (s.store.amend (s.readFix explained standIns made)).Consistent s.asked
      (amended s (s.readFix explained standIns made) made) where
  known := by
    intro id hid
    rcases List.mem_append.1 hid with hid | hid
    · obtain ⟨c, hc, rfl⟩ := Store.mem_ids.1 ((h.grounded.order id).1 (mem_selection.1 hid).1)
      have hin := h.selected_mem_carried explained hid
      exact Store.mem_ids.2 ⟨_, hstay.stay_mem_amend hc hin, hstay.id c⟩
    · obtain ⟨⟨a, x⟩, ha, rfl⟩ := List.mem_map.1 hid
      exact Store.mem_ids.2 ⟨_, hstay.brought_mem_amend ha, rfl⟩
  depends := by
    intro m hm hs d hd hr
    rcases hstay.mem_amend.1 hm with ⟨c, hc, -, rfl⟩ | ⟨a, id, -, rfl⟩
    · rw [hstay.id, h.mem_amended_iff hc] at hs
      rw [hstay.descriptor] at hd
      obtain ⟨index, hindex⟩ := List.getElem?_of_mem hd
      obtain ⟨o, ho, hod, hw⟩ := (h.obeys.depends c hc (by simpa using hs) d index hindex
        hr).resolve_right (not_waives _ _)
      obtain ⟨x, hx, hxs, -, hmeets⟩ := h.exists_of_taken hstay ho (by simpa using hw)
      exact ⟨x, hx, hxs, (hmeets d).trans hod⟩
    · exact absurd hd List.not_mem_nil
  breaks := by
    intro m hm hs d hd hr x hx hxs hne
    rcases hstay.mem_amend.1 hm with ⟨c, hc, -, rfl⟩ | ⟨a, id, -, rfl⟩
    · rw [hstay.id, h.mem_amended_iff hc] at hs
      rw [hstay.descriptor] at hd
      rw [hstay.id] at hne
      obtain ⟨index, hindex⟩ := List.getElem?_of_mem hd
      obtain ⟨o, ho, hw, -, hmeets, hchoice⟩ := h.taken_of_mem hstay hx hxs
      have hother : o.choice ≠ .candidate c.id := by
        rcases hchoice with hchoice | ⟨b, n, rfl, -⟩
        · rw [hchoice]
          simpa using hne
        · simp
      rw [← Bool.not_eq_true, ← hmeets]
      intro hod
      exact not_waives c.id index (h.obeys.breaks c hc (by simpa using hs) d index hindex hr o ho
        hod hother (by simpa using hw))
    · exact absurd hd List.not_mem_nil
  single := fun a ha b hb has hbs key hap hbp =>
    h.amended_unique hstay ha hb has hbs hap hbp
  contained := by
    intro m hm hs hroot
    rcases hstay.mem_amend.1 hm with ⟨c, hc, hin, rfl⟩ | ⟨a, id, -, rfl⟩
    · rw [hstay.id, h.mem_amended_iff hc] at hs
      rw [hstay.isRoot c hc hin] at hroot
      obtain ⟨p, hp, hv⟩ := h.obeys.contained c hc (by simpa using hs) hroot
      have hpsel : p ∈ s.selection made := mem_selection.2
        ⟨(h.grounded.order p).2 (h.grounded.parents c hc p hp), by simpa using hv⟩
      have hpin := h.selected_mem_carried explained hpsel
      exact ⟨p, hstay.kept c p hp hpin, List.mem_append_left _ hpsel⟩
    · exact absurd hroot (by simp [Store.broughtAs, Candidate.isRoot])
  root := by
    intro m hm hroot hl
    rcases hstay.mem_amend.1 hm with ⟨c, hc, hin, rfl⟩ | ⟨a, id, ha, rfl⟩
    · rw [hstay.isRoot c hc hin] at hroot
      rw [hstay.load hc hin] at hl
      exact h.exists_of_provided hstay
        ((h.obeys.root c hc hroot hl).resolve_right (h.not_drops_of_mem_carried hc hin))
    · exact ⟨_, hm, brought_mem_amended ha, Store.provides_iff.2 (Or.inl rfl)⟩
  nested := by
    intro m hm hroot hl p hp hps
    rcases hstay.mem_amend.1 hm with ⟨c, hc, hin, rfl⟩ | ⟨a, id, -, rfl⟩
    · rw [hstay.isRoot c hc hin] at hroot
      rw [hstay.load hc hin] at hl
      have hp := hstay.parents c p hp
      obtain ⟨q, hq, rfl⟩ := Store.mem_ids.1 (h.grounded.parents c hc p hp)
      rw [h.mem_amended_iff hq] at hps
      exact h.exists_of_provided hstay (h.obeys.nested c hc hroot hl q.id hp (by simpa using hps))
    · exact absurd hp List.not_mem_nil
  preselected := by
    intro id hid
    obtain ⟨hpre, hcontains⟩ := List.mem_filter.1 hid
    have hv := h.obeys.preselected id hpre
    have hin := (h.grounded.order id).2 (Store.contains_iff.1 hcontains)
    exact List.mem_append_left _ (mem_selection.2 ⟨hin, by simpa using hv⟩)

/-- **The amended store has a consistent selection**: what was selected and what came in. -/
theorem consistent_amend (h : s.Repairs standIns made) (explained : List Choice) :
    (s.store.amend (s.readFix explained standIns made)).Consistent s.asked
      (amended s (s.readFix explained standIns made) made) := by
  obtain ⟨stay, hstay⟩ := h.indexed.exists_leaves h.ranked
    (s.readFix explained standIns made).gone
  exact h.consistent_of_leaves hstay

end Repairs
end Solver
end Loadout
