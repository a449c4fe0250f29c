/-
# Histories of a store

A store comes about by changes: inserts, links, detachments and new depths, in any order
(`Store.after`).  Whatever the changes are, the index is exact, no group is empty, and every
mod has at most one candidate in each version (`Store.Catalogued`).  The three are kept
together: an insert looks for a copy through the index, so that the index is exact is what
keeps copies apart, and an exact index needs the numbers to be those of different candidates.
-/

import Loadout.Proofs.Store.Settle
import Loadout.Proofs.Version.Order

namespace Loadout

/-- What can happen to a store. -/
inductive Change where
  | insert (new : NewCandidate)
  | link (parent child : CandidateId)
  | detach (id : CandidateId)
  /-- depths are computed anew -/
  | settle
  deriving DecidableEq, Repr

/-- Taking in an archive of version one that says nothing but what it provides. -/
def Change.take (id : String) (provides : List String) (parent? : Option CandidateId) : Change :=
  .insert { descriptor := { id, version := .ofComponents [1], provides }, location := .file id,
            parent?, remap := false }

/-- A mod in one version. -/
structure Edition where
  identifier : String
  version : Version
  deriving DecidableEq, Repr

/-- The mod and the version that a descriptor is about. -/
def Descriptor.edition (d : Descriptor) : Edition := ⟨d.id, d.version⟩

/-- The mod and the version of a candidate. -/
def Candidate.edition (c : Candidate) : Edition := c.descriptor.edition

namespace Edition

/-- Whether two are one mod in one version, which may be written in two ways. -/
def same (a b : Edition) : Bool := a.identifier == b.identifier && a.version.sameAs b.version

/-- Editions are the same where the identifier is, and the version in any spelling. -/
theorem same_iff {a b : Edition} : a.same b = true ↔
    a.identifier = b.identifier ∧ a.version.sameAs b.version = true := by
  rw [same, Bool.and_eq_true, beq_iff_eq]

/-- An edition is the same as itself. -/
theorem same_self (a : Edition) : a.same a = true := by
  rw [same, beq_self_eq_true, Bool.true_and, Version.sameAs_self]

/-- Which of two editions comes first does not count. -/
theorem same_comm (a b : Edition) : a.same b = b.same a := by
  rw [same, same, Version.sameAs_comm, Bool.beq_comm]

/-- Editions that are the same are the same as the same others. -/
theorem same_congr {a b : Edition} (h : a.same b = true) (c : Edition) : a.same c = b.same c := by
  rw [same_iff] at h
  rw [same, same, h.1, Version.sameAs_congr h.2]

/-- Another edition is the same as both of two that are the same, or as neither. -/
theorem same_congr_right {a b : Edition} (h : a.same b = true) (c : Edition) :
    c.same a = c.same b := by
  rw [same_comm, same_congr h, same_comm]

end Edition

namespace Candidate

/-- A candidate is a copy of itself. -/
theorem isCopyOf_self (a : Candidate) : a.isCopyOf a = true := Edition.same_self a.edition

/-- Which of two copies comes first does not count. -/
theorem isCopyOf_comm (a b : Candidate) : a.isCopyOf b = b.isCopyOf a :=
  Edition.same_comm a.edition b.edition

/-- A copy has the copies that its original has. -/
theorem isCopyOf_congr {a b : Candidate} (h : a.isCopyOf b = true) (c : Candidate) :
    a.isCopyOf c = b.isCopyOf c :=
  Edition.same_congr (a := a.edition) (b := b.edition) h c.edition

end Candidate

namespace Store

variable {s : Store}

/-- The copy that an insert finds is one of the same mod in the same version. -/
theorem same_of_copyOf? {d : Descriptor} {c : Candidate} (hc : s.copyOf? d = some c) :
    c ∈ s.records ∧ d.edition.same c.edition = true := by
  obtain ⟨hin, hid, hversion⟩ := copyOf?_spec hc
  refine ⟨hin, ?_⟩
  rw [Edition.same_iff, Version.sameAs_comm]
  exact ⟨hid, hversion⟩

/-- The store after a change.  An insert that fails leaves the store as it is. -/
def apply (s : Store) : Change → Store
  | .insert new => s.inserted new
  | .link parent child => s.link parent child
  | .detach id => s.detach id
  | .settle => s.settleDepths

/-- The store that changes make of the empty one. -/
def after (changes : List Change) : Store := changes.foldl apply empty

/-- **What every change keeps** holds after all of them. -/
theorem after_induction {P : Store → Prop} {changes : List Change} (hempty : P empty)
    (hstep : ∀ s, P s → ∀ change ∈ changes, P (s.apply change)) : P (after changes) :=
  List.foldlRecOn changes apply hempty hstep

/-- What holds of the store and of it after the insert holds whether the insert fails or not. -/
theorem inserted_induction {P : Store → Prop} (h : P s) {new : NewCandidate}
    (hok : ∀ s' o, s.insert new = .ok (s', o) → P s') : P (s.inserted new) := by
  rw [inserted]
  cases hnew : s.insert new with
  | ok r => exact hok r.1 r.2 hnew
  | error e => exact h

/-! ### One candidate for each mod and version -/

/-- No two candidates are one mod in one version. -/
def Distinct (records : List Candidate) : Prop :=
  ∀ a ∈ records, ∀ b ∈ records, a.isCopyOf b = true → a = b

/-- Candidates may change as long as each stays a copy of what it was. -/
theorem Distinct.map {records : List Candidate} (h : Distinct records) {f : Candidate → Candidate}
    (hf : ∀ a ∈ records, (f a).isCopyOf a = true) : Distinct (records.map f) := by
  intro a' ha' b' hb' hcopy
  obtain ⟨a, ha, rfl⟩ := List.mem_map.1 ha'
  obtain ⟨b, hb, rfl⟩ := List.mem_map.1 hb'
  rw [Candidate.isCopyOf_congr (hf a ha), Candidate.isCopyOf_comm,
    Candidate.isCopyOf_congr (hf b hb), Candidate.isCopyOf_comm] at hcopy
  rw [h a ha b hb hcopy]

/-- Copies are told by the descriptor. -/
theorem Distinct.map_of_descriptor {records : List Candidate} (h : Distinct records)
    {f : Candidate → Candidate} (hf : ∀ a, (f a).descriptor = a.descriptor) :
    Distinct (records.map f) := by
  refine h.map fun a _ => ?_
  rw [Candidate.isCopyOf, Candidate.identifier, Candidate.version, hf]
  exact a.isCopyOf_self

/-- **Nothing is listed twice**: the index is exact, no group is empty, and no two candidates
are copies of each other. -/
structure Catalogued (s : Store) : Prop where
  indexed : s.Indexed
  inhabited : ∀ g ∈ s.groups, g.members ≠ []
  distinct : Distinct s.records

/-- The empty store is catalogued. -/
theorem catalogued_empty : empty.Catalogued :=
  ⟨indexed_empty, fun _ hg => absurd hg List.not_mem_nil, fun _ ha => absurd ha List.not_mem_nil⟩

/-- A link keeps a store catalogued. -/
theorem Catalogued.link (h : s.Catalogued) (parent child : CandidateId) :
    (s.link parent child).Catalogued := by
  rcases s.link_cases parent child with heq | ⟨-, -, heq⟩
  · rwa [heq]
  · rw [heq]
    exact ⟨h.indexed.tie parent child, h.inhabited,
      h.distinct.map_of_descriptor fun a => by rw [tie_eq]⟩

/-- A link to a container keeps a store catalogued. -/
theorem Catalogued.linkParent (h : s.Catalogued) (parent? : Option CandidateId)
    (child : CandidateId) : (s.linkParent parent? child).Catalogued := by
  cases parent? with
  | none => exact h
  | some p => exact h.link p child

/-- A candidate gets a number only where the store has no copy of it. -/
theorem Catalogued.add (h : s.Catalogued) {c : Candidate} (hid : c.id = s.nextId)
    (hnone : s.copyOf? c.descriptor = none) : (s.add c).Catalogued where
  indexed := h.indexed.add hid
  inhabited := members_ne_nil_indexNew c.id c.keys h.inhabited
  distinct := by
    have hnot : ∀ a ∈ s.records, a.isCopyOf c = false := by
      intro a ha
      rw [Candidate.isCopyOf, Bool.and_eq_false_imp, beq_iff_eq]
      exact h.indexed.not_sameAs_of_copyOf?_eq_none hnone ha
    intro a ha b hb hcopy
    rcases List.mem_append.1 ha with ha | ha <;> rcases List.mem_append.1 hb with hb | hb
    · exact h.distinct a ha b hb hcopy
    · rw [List.mem_singleton.1 hb, hnot a ha] at hcopy
      exact absurd hcopy Bool.false_ne_true
    · rw [List.mem_singleton.1 ha, Candidate.isCopyOf_comm, hnot b hb] at hcopy
      exact absurd hcopy Bool.false_ne_true
    · rw [List.mem_singleton.1 ha, List.mem_singleton.1 hb]

/-- More aliases of a candidate keep a store catalogued. -/
theorem Catalogued.gain (h : s.Catalogued) {id : CandidateId} (hin : id ∈ s.ids) {keys : List String}
    {f : Candidate → Candidate} (hf : Gains s.records id keys f) : (s.gain f id keys).Catalogued where
  indexed := h.indexed.gain hin hf
  inhabited := members_ne_nil_indexAgain id keys h.inhabited
  distinct := h.distinct.map fun a _ => by
    rw [Candidate.isCopyOf, hf.identifier, hf.version]
    exact a.isCopyOf_self

/-- A candidate that moves to another copy of its edition is catalogued where it was. -/
theorem Catalogued.move (h : s.Catalogued) {c : Candidate} (hc : c ∈ s.records) {own : CandidateId}
    (hown : c.id = own) {left : List CandidateId} {new : NewCandidate} {depth : Nat}
    {g : Candidate → Candidate} (hg : Moves own left new depth g)
    (hidentifier : new.descriptor.id = c.identifier)
    (hversion : c.version.sameAs new.descriptor.version = true)
    (hknown : ∀ key ∈ new.descriptor.provides, c.provides key = true) :
    Catalogued { s with records := s.records.map g } where
  indexed := h.indexed.move hc hown hg hidentifier hknown
  inhabited := h.inhabited
  distinct := h.distinct.map fun a ha => by
    by_cases hao : a.id = own
    · obtain rfl := h.indexed.eq_of_id_eq ha hc (hao.trans hown.symm)
      rw [Candidate.isCopyOf_comm, Candidate.isCopyOf, hg.identifier hao, hg.version hao, hversion,
        Bool.and_true, beq_iff_eq]
      exact hidentifier.symm
    · rw [hg.others a hao]
      exact a.isCopyOf_self

/-- **Taking a candidate in keeps a store catalogued.** -/
theorem Catalogued.insert (h : s.Catalogued) {new : NewCandidate} {s' : Store} {o : Outcome}
    (hs : s.insert new = .ok (s', o)) : s'.Catalogued := by
  have hgain : ∀ {c : Candidate} {f : Candidate → Candidate} {keys : List String},
      s.copyOf? new.descriptor = some c → Gains s.records c.id keys f → (s.gain f c.id keys).Catalogued :=
    fun hcopy hgains => h.gain (mem_ids.2 ⟨_, (copyOf?_spec hcopy).1, rfl⟩) hgains
  cases h.indexed.takes hs with
  | numbered hnone => exact (h.add rfl hnone).linkParent _ _
  | @moved c f g keys hcopy hgains hknown _ hmoves =>
      obtain ⟨hc, hidentifier, hversion⟩ := copyOf?_spec hcopy
      exact ((hgain hcopy hgains).move (List.mem_map_of_mem hc) (hgains.id c) hmoves
        (hidentifier.trans (hgains.identifier c).symm) ((hgains.version c).symm ▸ hversion)
        hknown).linkParent _ _
  | joined hcopy hgains _ => exact (hgain hcopy hgains).linkParent _ _
  | kept hcopy hgains => exact hgain hcopy hgains

/-- A store is catalogued when a candidate is gone. -/
theorem Catalogued.detach (h : s.Catalogued) (id : CandidateId) : (s.detach id).Catalogued where
  indexed := h.indexed.detach id
  inhabited := by
    rcases s.detach_cases id with ⟨-, heq⟩ | ⟨_, _, _, _, heq⟩
    · rw [heq]
      exact h.inhabited
    · rw [heq]
      intro g hg
      simpa using (List.mem_filter.1 hg).2
  distinct := by
    obtain ⟨f, hf, htrims⟩ := s.exists_records_detach id
    rw [hf]
    exact Distinct.map_of_descriptor
      (fun a ha b hb => h.distinct a (List.mem_filter.1 ha).1 b (List.mem_filter.1 hb).1)
      htrims.descriptor

/-- A store is catalogued when depths are computed anew. -/
theorem Catalogued.settleDepths (h : s.Catalogued) : s.settleDepths.Catalogued := by
  refine ⟨h.indexed.settleDepths, h.inhabited, ?_⟩
  obtain ⟨f, heq, hf⟩ := s.settleDepths_eq
  rw [heq]
  exact h.distinct.map_of_descriptor fun a => by rw [hf]

/-- **A step keeps a store catalogued**, whatever the change is. -/
theorem Catalogued.apply (h : s.Catalogued) (change : Change) : (s.apply change).Catalogued := by
  cases change with
  | insert new => exact inserted_induction h fun _ _ hs => h.insert hs
  | link parent child => exact h.link parent child
  | detach id => exact h.detach id
  | settle => exact h.settleDepths

/-- **Every history leaves a store catalogued.** -/
theorem catalogued_after (changes : List Change) : (after changes).Catalogued :=
  after_induction catalogued_empty fun _ hs change _ => hs.apply change

/-- **The index is exact and every mod is there once in each version.**  After any changes, a
number is listed under a key just where the store holds a candidate of that number with the key
for its identifier or among its aliases; no group is empty; and candidates that agree in
identifier and version are one. -/
theorem index_exact_and_versions_once (changes : List Change) :
    (∀ key id, id ∈ (after changes).providers key ↔
      ∃ c, (after changes).get? id = some c ∧ (c.identifier = key ∨ key ∈ c.aliases)) ∧
    (∀ g ∈ (after changes).groups, g.members ≠ []) ∧
    ∀ a ∈ (after changes).records, ∀ b ∈ (after changes).records,
      a.identifier = b.identifier → a.version.sameAs b.version = true → a = b := by
  have hcat := catalogued_after changes
  refine ⟨fun key id => ?_, hcat.inhabited, fun a ha b hb hid hversion => ?_⟩
  · simp only [hcat.indexed.members, hcat.indexed.get?_eq_some_iff, provides_iff, and_assoc,
      eq_comm (a := key)]
  · refine hcat.distinct a ha b hb ?_
    rw [Candidate.isCopyOf, hid, hversion, beq_self_eq_true, Bool.and_true]

end Store
end Loadout
