/-
# Consistent selections

A selection is *consistent* when it meets the hard conditions of the candidates
(`Store.Consistent`): dependencies and breaks, one provider at most for everything that is
provided, containers for nested candidates, candidates that must be loaded and candidates
that were asked for.  The conditions are about what candidates provide and contain; groups,
numbers and literals do not occur in them.

A store may be without some of its dependencies (`Store.withoutEdges`).  To obey an instance
that repairs nothing is to select a consistent set of the store without the dependencies that
are waived, and to meet recommendations or to give up their targets as unmet
(`Instance.Grounded.obeys_iff`).  An instance for selecting waives nothing
(`Instance.Plain.obeys_iff`).
-/

import Loadout.Proofs.Selection.Meaning
import Loadout.Proofs.Store.Insert

namespace Loadout
namespace Store

/-- **A selection that meets all hard conditions.**  It is a set of candidates, as a list of
numbers whose order and repetitions do not count. -/
structure Consistent (s : Store) (preselected selection : List CandidateId) : Prop where
  /-- only candidates of the store are selected -/
  known : ∀ id ∈ selection, id ∈ s.ids
  /-- what a selected candidate depends on is selected in an admitted version -/
  depends : ∀ c ∈ s.records, c.id ∈ selection → ∀ d ∈ c.descriptor.dependencies,
    d.relation = .depends → ∃ m ∈ s.records, m.id ∈ selection ∧ m.meets d = true
  /-- what a selected candidate breaks is not selected, itself aside -/
  breaks : ∀ c ∈ s.records, c.id ∈ selection → ∀ d ∈ c.descriptor.dependencies,
    d.relation = .breaks → ∀ m ∈ s.records, m.id ∈ selection → m.id ≠ c.id → m.meets d = false
  /-- nothing is provided twice -/
  single : ∀ a ∈ s.records, ∀ b ∈ s.records, a.id ∈ selection → b.id ∈ selection →
    ∀ key, a.provides key = true → b.provides key = true → a.id = b.id
  /-- a nested candidate is selected with one around it -/
  contained : ∀ c ∈ s.records, c.id ∈ selection → c.isRoot = false →
    ∃ p ∈ c.parents, p ∈ selection
  /-- a root that must be loaded is, or something else that provides its identifier -/
  root : ∀ c ∈ s.records, c.isRoot = true → c.load = .always →
    ∃ m ∈ s.records, m.id ∈ selection ∧ m.provides c.identifier = true
  /-- so is a nested candidate that must be loaded with the one around it -/
  nested : ∀ c ∈ s.records, c.isRoot = false → c.load = .always → ∀ p ∈ c.parents,
    p ∈ selection → ∃ m ∈ s.records, m.id ∈ selection ∧ m.provides c.identifier = true
  /-- what was asked for is selected -/
  preselected : ∀ id ∈ preselected, id ∈ selection

/-- A chain of selected candidates, each contained in the next one, that ends in a root. -/
inductive Rooted (s : Store) (selection : List CandidateId) : CandidateId → Prop where
  | root {c : Candidate} (hc : c ∈ s.records) (selected : c.id ∈ selection)
    (isRoot : c.isRoot = true) : Rooted s selection c.id
  | nested {c : Candidate} {p : CandidateId} (hc : c ∈ s.records) (selected : c.id ∈ selection)
    (hp : p ∈ c.parents) (around : Rooted s selection p) : Rooted s selection c.id

/-- **Candidates that are selected with one around them are carried by roots**, as containment
has no cycles. -/
theorem Ranked.rooted {s : Store} (h : s.Ranked) {selection : List CandidateId}
    (hknown : ∀ id ∈ selection, id ∈ s.ids)
    (hcontained : ∀ c ∈ s.records, c.id ∈ selection → c.isRoot = false →
      ∃ p ∈ c.parents, p ∈ selection) : ∀ id ∈ selection, s.Rooted selection id := by
  obtain ⟨rank, hrank⟩ := h
  suffices ∀ (k : Nat) (id : CandidateId), rank id < k → id ∈ selection → s.Rooted selection id from
    fun id => this (rank id + 1) id (Nat.lt_succ_self _)
  intro k
  induction k with
  | zero => exact fun id hk => absurd hk (Nat.not_lt_zero _)
  | succ k ih =>
      intro id hk hid
      obtain ⟨c, hc, rfl⟩ := mem_ids.1 (hknown id hid)
      cases hroot : c.isRoot with
      | true => exact .root hc hid hroot
      | false =>
          obtain ⟨p, hp, hps⟩ := hcontained c hc hid hroot
          have hlt := (hrank c hc p hp).2
          exact .nested hc hid hp (ih p (by omega) hps)

/-- **So is every candidate of a consistent selection.** -/
theorem Consistent.rooted {s : Store} {preselected selection : List CandidateId}
    (h : s.Consistent preselected selection) (hr : s.Ranked) :
    ∀ id ∈ selection, s.Rooted selection id := hr.rooted h.known h.contained

/-- Only what is selected counts. -/
theorem Consistent.congr {s : Store} {preselected a b : List CandidateId}
    (h : s.Consistent preselected a) (hab : ∀ id, id ∈ a ↔ id ∈ b) : s.Consistent preselected b where
  known := fun id hid => h.known id ((hab id).2 hid)
  depends := fun c hc hs d hd hr => by
    obtain ⟨m, hm, hms, hmd⟩ := h.depends c hc ((hab _).2 hs) d hd hr
    exact ⟨m, hm, (hab _).1 hms, hmd⟩
  breaks := fun c hc hs d hd hr m hm hms => h.breaks c hc ((hab _).2 hs) d hd hr m hm ((hab _).2 hms)
  single := fun x hx y hy hxs hys => h.single x hx y hy ((hab _).2 hxs) ((hab _).2 hys)
  contained := fun c hc hs hr => by
    obtain ⟨p, hp, hps⟩ := h.contained c hc ((hab _).2 hs) hr
    exact ⟨p, hp, (hab p).1 hps⟩
  root := fun c hc hr hl => by
    obtain ⟨m, hm, hms, hp⟩ := h.root c hc hr hl
    exact ⟨m, hm, (hab _).1 hms, hp⟩
  nested := fun c hc hr hl p hp hps => by
    obtain ⟨m, hm, hms, hmp⟩ := h.nested c hc hr hl p hp ((hab p).2 hps)
    exact ⟨m, hm, (hab _).1 hms, hmp⟩
  preselected := fun id hid => (hab id).1 (h.preselected id hid)

end Store

/-! ### Dependencies that do not count -/

/-- The place of a dependency: its candidate, and its position there. -/
abbrev Edge := CandidateId × Nat

namespace Candidate

/-- The candidate without its dependencies at some places. -/
def withoutEdges (c : Candidate) (edges : List Edge) : Candidate :=
  let dependencies := (c.descriptor.dependencies.zipIdx.filter fun (_, index) =>
    !edges.contains (c.id, index)).map (·.1)
  { c with descriptor := { c.descriptor with dependencies } }

variable (c : Candidate) (edges : List Edge)

/-- Without some dependencies a candidate keeps its number. -/
@[simp] theorem withoutEdges_id : (c.withoutEdges edges).id = c.id := rfl

/-- Without some dependencies a candidate keeps its identifier. -/
@[simp] theorem withoutEdges_identifier : (c.withoutEdges edges).identifier = c.identifier := rfl

/-- Without some dependencies a candidate provides what it did. -/
@[simp] theorem withoutEdges_provides (key : String) :
    (c.withoutEdges edges).provides key = c.provides key := rfl

/-- Without some dependencies a candidate meets the dependencies that it met. -/
@[simp] theorem withoutEdges_meets (d : Dependency) :
    (c.withoutEdges edges).meets d = c.meets d := rfl

/-- Without some dependencies a candidate keeps its parents. -/
@[simp] theorem withoutEdges_parents : (c.withoutEdges edges).parents = c.parents := rfl

/-- Without some dependencies a candidate is a root where it was. -/
@[simp] theorem withoutEdges_isRoot : (c.withoutEdges edges).isRoot = c.isRoot := rfl

/-- Without some dependencies a candidate is loaded as it was. -/
@[simp] theorem withoutEdges_load : (c.withoutEdges edges).load = c.load := rfl

/-- The dependencies that are left are those at other places. -/
theorem mem_withoutEdges {d : Dependency} :
    d ∈ (c.withoutEdges edges).descriptor.dependencies ↔
      ∃ index, c.descriptor.dependencies[index]? = some d ∧ (c.id, index) ∉ edges := by
  simp [withoutEdges, List.mem_zipIdx_iff_getElem?]

end Candidate

namespace Store

/-- The store without the dependencies at some places. -/
def withoutEdges (s : Store) (edges : List Edge) : Store :=
  { s with records := s.records.map (·.withoutEdges edges) }

/-- The places of all dependencies. -/
def edges (s : Store) : List Edge :=
  s.records.flatMap fun c => (List.range c.descriptor.dependencies.length).map (c.id, ·)

variable {s : Store}

/-- The places are those where a candidate has a dependency. -/
theorem mem_edges {source : CandidateId} {index : Nat} : (source, index) ∈ s.edges ↔
    ∃ c ∈ s.records, c.id = source ∧ ∃ d, c.descriptor.dependencies[index]? = some d := by
  simp only [edges, List.mem_flatMap, List.mem_map, List.mem_range, Prod.mk.injEq]
  constructor
  · rintro ⟨c, hc, n, hn, rfl, rfl⟩
    exact ⟨c, hc, rfl, _, List.getElem?_eq_getElem hn⟩
  · rintro ⟨c, hc, rfl, d, hd⟩
    exact ⟨c, hc, index, (List.getElem?_eq_some_iff.1 hd).1, rfl, rfl⟩

/-- The store keeps its candidates. -/
@[simp] theorem ids_withoutEdges (edges : List Edge) : (s.withoutEdges edges).ids = s.ids := by
  simp [withoutEdges, ids, Function.comp_def]

/-- All candidates of the store are those that have lost dependencies. -/
theorem forall_withoutEdges {edges : List Edge} {P : Candidate → Prop} :
    (∀ c ∈ (s.withoutEdges edges).records, P c) ↔ ∀ c ∈ s.records, P (c.withoutEdges edges) :=
  List.forall_mem_map

/-- Some candidates of the store are those that have lost dependencies. -/
theorem exists_withoutEdges {edges : List Edge} {P : Candidate → Prop} :
    (∃ c ∈ (s.withoutEdges edges).records, P c) ↔ ∃ c ∈ s.records, P (c.withoutEdges edges) := by
  simp [withoutEdges]

/-- Only places of dependencies count. -/
theorem withoutEdges_congr {a b : List Edge} (h : ∀ e ∈ s.edges, e ∈ a ↔ e ∈ b) :
    s.withoutEdges a = s.withoutEdges b := by
  have hrecords : s.records.map (·.withoutEdges a) = s.records.map (·.withoutEdges b) := by
    refine List.map_congr_left fun c hc => ?_
    have hsame : (c.descriptor.dependencies.zipIdx.filter fun (_, index) => !a.contains (c.id, index)) =
        c.descriptor.dependencies.zipIdx.filter fun (_, index) => !b.contains (c.id, index) := by
      refine List.filter_congr fun x hx => ?_
      have hedge : (c.id, x.2) ∈ s.edges :=
        mem_edges.2 ⟨c, hc, rfl, x.1, List.mem_zipIdx_iff_getElem?.1 hx⟩
      rw [Bool.eq_iff_iff]
      simp only [List.contains_eq_mem, Bool.not_eq_true', decide_eq_false_iff_not, h _ hedge]
    rw [Candidate.withoutEdges, Candidate.withoutEdges, hsame]
  rw [withoutEdges, withoutEdges, hrecords]

/-- With no place left out a store is as it was. -/
@[simp] theorem withoutEdges_nil : s.withoutEdges [] = s := by
  have hsame : s.records.map (·.withoutEdges []) = s.records.map fun c => c := by
    refine List.map_congr_left fun c _ => ?_
    simp [Candidate.withoutEdges]
  rw [withoutEdges, hsame, List.map_id']

end Store

namespace Instance

/-- **An instance for selecting** over a store with an exact index: the order has all
candidates, and containers and what was asked for are candidates. -/
structure Plain (i : Instance) : Prop where
  indexed : i.store.Indexed
  order : ∀ id, id ∈ i.order ↔ id ∈ i.store.ids
  parents : ∀ c ∈ i.store.records, ∀ p ∈ c.parents, p ∈ i.store.ids
  preselected : ∀ id ∈ i.preselected, id ∈ i.store.ids
  purpose : i.purpose = .select

/-- Every recommendation that could be met is, or its target is given up. -/
def Heeds (i : Instance) (w : Choice → Bool) : Prop :=
  ∀ c ∈ i.store.records, w (.candidate c.id) = true → ∀ d ∈ c.descriptor.dependencies,
    d.relation = .recommends → (∃ m ∈ i.store.records, m.meets d = true) →
      (∃ m ∈ i.store.records, m.meets d = true ∧ w (.candidate m.id) = true) ∨
        w (.unmet d.target) = true

/-- What was asked for as far as there is such a candidate. -/
def asked (i : Instance) : List CandidateId := i.preselected.filter i.store.contains

/-- The places of the dependencies that are waived. -/
def waivedEdges (i : Instance) (w : Choice → Bool) : List Edge :=
  if i.purpose = .explain then i.store.edges.filter fun (source, index) => w (.waived source index)
  else []

variable {i : Instance} {w : Choice → Bool}

/-- What is asked for is asked of the store. -/
theorem mem_asked {id : CandidateId} : id ∈ i.asked ↔ id ∈ i.preselected ∧ id ∈ i.store.ids := by
  rw [asked, List.mem_filter, Store.contains_iff]

/-- The waived places are those of dependencies whose waiver is chosen. -/
theorem mem_waivedEdges {source : CandidateId} {index : Nat} :
    (source, index) ∈ i.waivedEdges w ↔ (source, index) ∈ i.store.edges ∧ i.Waives w source index := by
  rw [waivedEdges, Waives]
  split
  · rename_i hpurpose
    simp [hpurpose]
  · rename_i hpurpose
    simp [hpurpose]

/-- Without repairs the offers are the candidates. -/
theorem exists_offer_iff (hfixed : i.purpose.isRepair = false) {P : Offer → Prop} :
    (∃ o ∈ i.offers, P o) ↔ ∃ c ∈ i.store.records, P (.ofCandidate c) := by
  have hnone : i.standIns = [] := by
    rw [standIns]
    split
    · rename_i hpurpose
      simp [hpurpose, Purpose.isRepair] at hfixed
    · rfl
  simp [mem_offers, hnone]

/-- Where mods may not be changed, only candidates are offered. -/
theorem forall_offer_iff (hfixed : i.purpose.isRepair = false) {P : Offer → Prop} :
    (∀ o ∈ i.offers, P o) ↔ ∀ c ∈ i.store.records, P (.ofCandidate c) := by
  rw [← not_iff_not]
  simpa using exists_offer_iff hfixed (P := fun o => ¬P o)

/-- Where mods may not be changed, no root is dropped. -/
theorem not_drops (hfixed : i.purpose.isRepair = false) (c : Candidate) : ¬i.Drops w c := by
  intro hdrop
  rw [Drops, hfixed] at hdrop
  exact absurd hdrop.1 Bool.false_ne_true

/-- At the place of a dependency it is waived just where it does not count. -/
theorem mem_waivedEdges_iff {c : Candidate} (hc : c ∈ i.store.records) {d : Dependency}
    {index : Nat} (hd : c.descriptor.dependencies[index]? = some d) :
    (c.id, index) ∈ i.waivedEdges w ↔ i.Waives w c.id index := by
  rw [mem_waivedEdges]
  exact and_iff_right (Store.mem_edges.2 ⟨c, hc, rfl, d, hd⟩)

namespace Grounded

variable (h : i.Grounded) (hfixed : i.purpose.isRepair = false)

include h hfixed

/-- **Obeying an instance without repairs** selects a consistent set once the waived
dependencies are out of the way. -/
theorem consistent_of_obeys (hobeys : i.Obeys w) :
    (i.store.withoutEdges (i.waivedEdges w)).Consistent i.asked (i.chosen w) where
  known := fun id hid => by
    rw [Store.ids_withoutEdges]
    exact (h.order id).1 (List.mem_filter.1 hid).1
  depends := by
    rw [Store.forall_withoutEdges]
    intro c hc hs d hd hr
    obtain ⟨index, hindex, hkept⟩ := (c.mem_withoutEdges _).1 hd
    have hmet := (hobeys.depends c hc ((h.id_mem_chosen hc).1 hs) d index hindex hr).resolve_right
      (mt (mem_waivedEdges_iff hc hindex).2 hkept)
    obtain ⟨m, hm, hmd, hv⟩ := (exists_offer_iff hfixed).1 hmet
    exact Store.exists_withoutEdges.2 ⟨m, hm, (h.id_mem_chosen hm).2 hv, hmd⟩
  breaks := by
    simp only [Store.forall_withoutEdges]
    intro c hc hs d hd hr m hm hms hne
    obtain ⟨index, hindex, hkept⟩ := (c.mem_withoutEdges _).1 hd
    rw [← Bool.not_eq_true]
    intro hmd
    refine hkept ((mem_waivedEdges_iff hc hindex).2 ?_)
    exact hobeys.breaks c hc ((h.id_mem_chosen hc).1 hs) d index hindex hr _
      (ofCandidate_mem_offers hm) hmd (by simpa using hne) ((h.id_mem_chosen hm).1 hms)
  single := by
    simp only [Store.forall_withoutEdges]
    intro a ha b hb has hbs key hap hbp
    simpa using hobeys.single _ (ofCandidate_mem_offers ha) _ (ofCandidate_mem_offers hb)
      ((h.id_mem_chosen ha).1 has) ((h.id_mem_chosen hb).1 hbs) key hap hbp
  contained := by
    rw [Store.forall_withoutEdges]
    intro c hc hs hr
    obtain ⟨p, hp, hv⟩ := hobeys.contained c hc ((h.id_mem_chosen hc).1 hs) hr
    exact ⟨p, hp, (h.mem_chosen (h.parents c hc p hp)).2 hv⟩
  root := by
    rw [Store.forall_withoutEdges]
    intro c hc hr hl
    obtain ⟨m, hm, hv, hp⟩ := (exists_offer_iff hfixed).1
      ((hobeys.root c hc hr hl).resolve_right (not_drops hfixed c))
    exact Store.exists_withoutEdges.2 ⟨m, hm, (h.id_mem_chosen hm).2 hv, hp⟩
  nested := by
    rw [Store.forall_withoutEdges]
    intro c hc hr hl p hp hps
    obtain ⟨m, hm, hv, hmp⟩ := (exists_offer_iff hfixed).1 (hobeys.nested c hc hr hl p hp
      ((h.mem_chosen (h.parents c hc p hp)).1 hps))
    exact Store.exists_withoutEdges.2 ⟨m, hm, (h.id_mem_chosen hm).2 hv, hmp⟩
  preselected := fun id hid => by
    obtain ⟨hpre, hid⟩ := mem_asked.1 hid
    exact (h.mem_chosen hid).2 (hobeys.preselected id hpre)

/-- **Selecting a consistent set** without the waived dependencies, and heeding
recommendations, obeys an instance without repairs. -/
theorem obeys_of_consistent
    (hcon : (i.store.withoutEdges (i.waivedEdges w)).Consistent i.asked (i.chosen w))
    (hheeds : i.Heeds w) (hpre : ∀ id ∈ i.preselected, w (.candidate id) = true) : i.Obeys w where
  depends := fun c hc hv d index hindex hr => by
    by_cases hw : i.Waives w c.id index
    · exact Or.inr hw
    have hd := (c.mem_withoutEdges _).2 ⟨index, hindex, mt (mem_waivedEdges_iff hc hindex).1 hw⟩
    obtain ⟨m, hm, hms, hmd⟩ := Store.exists_withoutEdges.1
      (Store.forall_withoutEdges.1 hcon.depends c hc ((h.id_mem_chosen hc).2 hv) d hd hr)
    exact Or.inl ((exists_offer_iff hfixed).2 ⟨m, hm, hmd, (h.id_mem_chosen hm).1 hms⟩)
  recommends := fun c hc hv d hd hr hex =>
    (hheeds c hc hv d hd hr ((exists_offer_iff hfixed).1 hex)).imp_left (exists_offer_iff hfixed).2
  breaks := fun c hc hv d index hindex hr => by
    rw [forall_offer_iff hfixed]
    intro m hm hmd hne hmv
    by_contra hw
    have hd := (c.mem_withoutEdges _).2 ⟨index, hindex, mt (mem_waivedEdges_iff hc hindex).1 hw⟩
    have hno := Store.forall_withoutEdges.1 (Store.forall_withoutEdges.1 hcon.breaks c hc
      ((h.id_mem_chosen hc).2 hv) d hd hr) m hm ((h.id_mem_chosen hm).2 hmv) (by simpa using hne)
    exact absurd (hno.symm.trans hmd) Bool.false_ne_true
  single := by
    simp only [forall_offer_iff hfixed]
    intro a ha b hb hav hbv key hap hbp
    have heq := Store.forall_withoutEdges.1 (Store.forall_withoutEdges.1 hcon.single a ha) b hb
      ((h.id_mem_chosen ha).2 hav) ((h.id_mem_chosen hb).2 hbv) key hap hbp
    simpa using heq
  contained := fun c hc hv hr => by
    obtain ⟨p, hp, hps⟩ :=
      Store.forall_withoutEdges.1 hcon.contained c hc ((h.id_mem_chosen hc).2 hv) hr
    exact ⟨p, hp, (h.mem_chosen (h.parents c hc p hp)).1 hps⟩
  root := fun c hc hr hl => by
    obtain ⟨m, hm, hms, hmp⟩ :=
      Store.exists_withoutEdges.1 (Store.forall_withoutEdges.1 hcon.root c hc hr hl)
    exact Or.inl ((exists_offer_iff hfixed).2 ⟨m, hm, (h.id_mem_chosen hm).1 hms, hmp⟩)
  dropped := fun c _ _ _ hdrop => absurd hdrop (not_drops hfixed c)
  nested := fun c hc hr hl p hp hv => by
    obtain ⟨m, hm, hms, hmp⟩ := Store.exists_withoutEdges.1 (Store.forall_withoutEdges.1 hcon.nested
      c hc hr hl p hp ((h.mem_chosen (h.parents c hc p hp)).2 hv))
    exact (exists_offer_iff hfixed).2 ⟨m, hm, (h.id_mem_chosen hm).1 hms, hmp⟩
  preselected := hpre

/-- **Obeying an instance without repairs** is selecting a consistent set once the waived
dependencies are out of the way, and heeding recommendations. -/
theorem obeys_iff : i.Obeys w ↔
    (i.store.withoutEdges (i.waivedEdges w)).Consistent i.asked (i.chosen w) ∧ i.Heeds w ∧
      ∀ id ∈ i.preselected, w (.candidate id) = true := by
  constructor
  · intro hobeys
    refine ⟨h.consistent_of_obeys hfixed hobeys, fun c hc hv d hd hr hex => ?_, hobeys.preselected⟩
    exact (hobeys.recommends c hc hv d hd hr ((exists_offer_iff hfixed).2 hex)).imp_left
      (exists_offer_iff hfixed).1
  · rintro ⟨hcon, hheeds, hpre⟩
    exact h.obeys_of_consistent hfixed hcon hheeds hpre

end Grounded

namespace Plain

/-- An instance for selecting is grounded. -/
theorem grounded (h : i.Plain) : i.Grounded := ⟨⟨h.indexed, h.order⟩, h.parents⟩

/-- Selecting changes no mods. -/
theorem isRepair_eq (h : i.Plain) : i.purpose.isRepair = false := by
  rw [h.purpose]
  rfl

/-- Its candidates are those of the store. -/
theorem mem_candidates (h : i.Plain) {c : Candidate} : c ∈ i.candidates ↔ c ∈ i.store.records :=
  h.grounded.mem_candidates

/-- A candidate is selected just where it is chosen. -/
theorem id_mem_chosen (h : i.Plain) {c : Candidate} (hc : c ∈ i.store.records) :
    c.id ∈ i.chosen w ↔ w (.candidate c.id) = true := h.grounded.id_mem_chosen hc

/-- Where nothing can be waived, obeying an instance is selecting a consistent set and heeding
recommendations. -/
theorem obeys_iff (h : i.Plain) :
    i.Obeys w ↔ i.store.Consistent i.preselected (i.chosen w) ∧ i.Heeds w := by
  have hwaived : i.waivedEdges w = [] := by simp [waivedEdges, h.purpose]
  have hasked : i.asked = i.preselected := List.filter_eq_self.2 fun id hid =>
    Store.contains_iff.2 (h.preselected id hid)
  rw [h.grounded.obeys_iff h.isRepair_eq, hwaived, hasked, Store.withoutEdges_nil]
  refine and_congr_right fun hcon => and_iff_left fun id hid => ?_
  exact (h.grounded.mem_chosen (h.preselected id hid)).1 (hcon.preselected id hid)

/-- **A consistent set that heeds recommendations** meets the rules, family by family. -/
theorem holds_of_consistent (h : i.Plain)
    (hcon : i.store.Consistent i.preselected (i.chosen w)) (hheeds : i.Heeds w) :
    ∀ r ∈ i.ruleList, r.holds w = true :=
  h.grounded.holds_iff.2 (h.obeys_iff.2 ⟨hcon, hheeds⟩)

end Plain
end Instance
end Loadout
