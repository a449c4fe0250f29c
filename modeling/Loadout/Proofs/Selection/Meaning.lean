/-
# What the rules mean

What provides identifiers is an *offer*: a candidate, or a stand-in that a repair may add.
A valuation of choices *obeys* an instance when it meets the conditions that the instance is
about (`Instance.Obeys`): selected candidates have what they depend on among the offers that
are taken, nothing is provided twice, and so on, with the exceptions that the purpose of the
instance allows.  A dependency may be waived where a failure is explained
(`Instance.Waives`), and a root may be dropped where mods are repaired (`Instance.Drops`).

The rules of an instance mean just that, family by family, whatever it is for
(`Instance.Exact.holds_iff`).  The index of the store has to be exact, and every candidate
has to stand in the order.
-/

import Loadout.Proofs.Selection.Numbering

namespace Loadout

/-- Whether a candidate provides the target of a dependency in an admitted version. -/
def Candidate.meets (c : Candidate) (d : Dependency) : Bool :=
  c.provides d.target && d.admits c.version

/-- What provides identifiers in a version, and the choice that takes it. -/
structure Offer where
  choice : Choice
  keys : List String
  version : Version

namespace Offer

/-- Whether it provides an identifier. -/
def provides (o : Offer) (key : String) : Bool := o.keys.contains key

/-- Whether it provides the target of a dependency in an admitted version. -/
def meets (o : Offer) (d : Dependency) : Bool := o.provides d.target && d.admits o.version

/-- A candidate provides its identifier and its aliases. -/
def ofCandidate (c : Candidate) : Offer := ⟨.candidate c.id, c.keys, c.version⟩

/-- A stand-in provides its identifier. -/
def ofStandIn (a : StandIn) (n : Nat) : Offer := ⟨.added n, [a.identifier], a.version⟩

/-- The choice of a candidate is to select it. -/
@[simp] theorem ofCandidate_choice (c : Candidate) : (ofCandidate c).choice = .candidate c.id := rfl

/-- A candidate offers what it provides. -/
@[simp] theorem ofCandidate_provides (c : Candidate) (key : String) :
    (ofCandidate c).provides key = c.provides key := rfl

/-- A candidate offers to meet what it meets. -/
@[simp] theorem ofCandidate_meets (c : Candidate) (d : Dependency) :
    (ofCandidate c).meets d = c.meets d := rfl

/-- The choice of a stand-in is to add it. -/
@[simp] theorem ofStandIn_choice (a : StandIn) (n : Nat) : (ofStandIn a n).choice = .added n := rfl

/-- A stand-in offers its identifier alone. -/
@[simp] theorem ofStandIn_provides (a : StandIn) (n : Nat) (key : String) :
    (ofStandIn a n).provides key = (a.identifier == key) := by
  rw [Bool.eq_iff_iff, provides, ofStandIn, List.contains_eq_mem, decide_eq_true_eq,
    List.mem_singleton, beq_iff_eq, eq_comm]

/-- A stand-in meets the dependencies on its identifier that admit its version. -/
theorem ofStandIn_meets (a : StandIn) (n : Nat) (d : Dependency) :
    (ofStandIn a n).meets d = (a.identifier == d.target && d.admits a.version) := by
  rw [meets, ofStandIn_provides]
  rfl

end Offer

/-- Whether mods may be changed. -/
def Purpose.isRepair : Purpose → Bool
  | .repair _ => true
  | _ => false

namespace Instance

variable {i : Instance} {w : Choice → Bool}

/-- The candidates that are selected by a valuation of choices. -/
def chosen (i : Instance) (w : Choice → Bool) : List CandidateId :=
  i.order.filter fun id => w (.candidate id)

/-- The literal of a candidate holds where it is selected. -/
@[simp] theorem selected_holds (id : CandidateId) :
    (selected id).holds w = true ↔ w (.candidate id) = true := by
  simp [selected, Literal.holds, Literal.pos]

/-- Each candidate has a literal of its own. -/
theorem selected_inj {a b : CandidateId} (h : selected a = selected b) : a = b := by
  simpa [selected, Literal.pos] using h

/-- The literal of a choice holds where it is made. -/
@[simp] theorem pos_holds (c : Choice) : (Literal.pos c).holds w = true ↔ w c = true := by
  simp [Literal.holds, Literal.pos]

/-- Each choice has a literal of its own. -/
theorem pos_inj {a b : Choice} (h : Literal.pos a = Literal.pos b) : a = b :=
  congrArg Literal.atom h

/-- Members are arranged as the order has them, so far as it has them. -/
theorem mem_arrange {members : List CandidateId} {id : CandidateId} :
    id ∈ i.arrange members ↔ id ∈ i.order ∧ id ∈ members := by
  simp only [arrange, List.mem_flatMap, List.mem_filter, decide_eq_true_eq]
  constructor
  · rintro ⟨x, hx, hid, rfl⟩
    exact ⟨hx, hid⟩
  · rintro ⟨ho, hid⟩
    exact ⟨id, ho, hid, rfl⟩

/-! ### Offers -/

/-- All candidates, and the stand-ins that may be added. -/
def offers (i : Instance) : List Offer :=
  i.store.records.map .ofCandidate ++ i.standIns.zipIdx.map fun (a, n) => .ofStandIn a n

/-- What is offered is a candidate or a stand-in. -/
theorem mem_offers {o : Offer} : o ∈ i.offers ↔
    (∃ c ∈ i.store.records, Offer.ofCandidate c = o) ∨
      ∃ a n, i.standIns[n]? = some a ∧ Offer.ofStandIn a n = o := by
  simp only [offers, List.mem_append, List.mem_map, Prod.exists, List.mem_zipIdx_iff_getElem?]

/-- Every candidate is offered. -/
theorem ofCandidate_mem_offers {c : Candidate} (hc : c ∈ i.store.records) :
    Offer.ofCandidate c ∈ i.offers := mem_offers.2 (Or.inl ⟨c, hc, rfl⟩)

/-- Every stand-in is offered. -/
theorem ofStandIn_mem_offers {a : StandIn} {n : Nat} (ha : i.standIns[n]? = some a) :
    Offer.ofStandIn a n ∈ i.offers := mem_offers.2 (Or.inr ⟨a, n, ha, rfl⟩)

/-- The literals of stand-ins are those of offers. -/
theorem mem_addedLiterals {key : String} {admits : Version → Bool} {l : Literal Choice} :
    l ∈ i.addedLiterals key admits ↔ ∃ a n, i.standIns[n]? = some a ∧
      (a.identifier == key && admits a.version) = true ∧ l = .pos (.added n) := by
  simp only [addedLiterals, List.mem_map, List.mem_filter, Prod.exists,
    List.mem_zipIdx_iff_getElem?, and_assoc, eq_comm]

/-! ### Obeying an instance -/

/-- The dependency at a place of a candidate does not count. -/
def Waives (i : Instance) (w : Choice → Bool) (source : CandidateId) (index : Nat) : Prop :=
  i.purpose = .explain ∧ w (.waived source index) = true

/-- A root need not be loaded. -/
def Drops (i : Instance) (w : Choice → Bool) (c : Candidate) : Prop :=
  i.purpose.isRepair = true ∧ c.isBuiltin = false ∧ w (.removed c.id) = true

/-- The literal of a waiver is true when the dependency is waived. -/
theorem exists_waiver_iff {source : CandidateId} {index : Nat} :
    (∃ l ∈ i.waiver source index, l.holds w = true) ↔ i.Waives w source index := by
  rw [waiver, Waives]
  cases i.purpose <;> simp

/-- **A valuation that meets all conditions of an instance.** -/
structure Obeys (i : Instance) (w : Choice → Bool) : Prop where
  /-- what a selected candidate depends on is taken in an admitted version -/
  depends : ∀ c ∈ i.store.records, w (.candidate c.id) = true → ∀ d index,
    c.descriptor.dependencies[index]? = some d → d.relation = .depends →
      (∃ o ∈ i.offers, o.meets d = true ∧ w o.choice = true) ∨ i.Waives w c.id index
  /-- so is what it recommends where it can be, or the target is given up -/
  recommends : ∀ c ∈ i.store.records, w (.candidate c.id) = true → ∀ d ∈ c.descriptor.dependencies,
    d.relation = .recommends → (∃ o ∈ i.offers, o.meets d = true) →
      (∃ o ∈ i.offers, o.meets d = true ∧ w o.choice = true) ∨ w (.unmet d.target) = true
  /-- what it breaks is not taken, itself aside -/
  breaks : ∀ c ∈ i.store.records, w (.candidate c.id) = true → ∀ d index,
    c.descriptor.dependencies[index]? = some d → d.relation = .breaks →
      ∀ o ∈ i.offers, o.meets d = true → o.choice ≠ .candidate c.id → w o.choice = true →
        i.Waives w c.id index
  /-- nothing is provided twice -/
  single : ∀ a ∈ i.offers, ∀ b ∈ i.offers, w a.choice = true → w b.choice = true →
    ∀ key, a.provides key = true → b.provides key = true → a.choice = b.choice
  /-- a nested candidate is selected with one around it -/
  contained : ∀ c ∈ i.store.records, w (.candidate c.id) = true → c.isRoot = false →
    ∃ p ∈ c.parents, w (.candidate p) = true
  /-- the identifier of a root that must be loaded is provided, or the root is dropped -/
  root : ∀ c ∈ i.store.records, c.isRoot = true → c.load = .always →
    (∃ o ∈ i.offers, w o.choice = true ∧ o.provides c.identifier = true) ∨ i.Drops w c
  /-- a root that is dropped is not selected -/
  dropped : ∀ c ∈ i.store.records, c.isRoot = true → c.load = .always → i.Drops w c →
    w (.candidate c.id) = false
  /-- the identifier of a nested candidate that must be loaded is provided -/
  nested : ∀ c ∈ i.store.records, c.isRoot = false → c.load = .always → ∀ p ∈ c.parents,
    w (.candidate p) = true → ∃ o ∈ i.offers, w o.choice = true ∧ o.provides c.identifier = true
  /-- what was asked for is selected -/
  preselected : ∀ id ∈ i.preselected, w (.candidate id) = true

/-- Of each identifier one stand-in is added at most. -/
theorem Obeys.added_unique (h : i.Obeys w) {a b : StandIn} {n m : Nat}
    (ha : i.standIns[n]? = some a) (hb : i.standIns[m]? = some b) (hn : w (.added n) = true)
    (hm : w (.added m) = true) (hab : a.identifier = b.identifier) : n = m := by
  have hsame := h.single _ (ofStandIn_mem_offers ha) _ (ofStandIn_mem_offers hb) hn hm a.identifier
    (by simp) (by simp [hab])
  simpa using hsame

/-- **An instance over a store with an exact index**, whose order has all candidates. -/
structure Exact (i : Instance) : Prop where
  indexed : i.store.Indexed
  order : ∀ id, id ∈ i.order ↔ id ∈ i.store.ids

/-- Containers are candidates as well. -/
structure Grounded (i : Instance) : Prop extends i.Exact where
  parents : ∀ c ∈ i.store.records, ∀ p ∈ c.parents, p ∈ i.store.ids

namespace Exact

/-- The order has every candidate. -/
theorem id_mem_order (h : i.Exact) {c : Candidate} (hc : c ∈ i.store.records) : c.id ∈ i.order :=
  (h.order c.id).2 (Store.mem_ids.2 ⟨c, hc, rfl⟩)

/-- The candidates in order are those of the store. -/
theorem mem_candidates (h : i.Exact) {c : Candidate} :
    c ∈ i.candidates ↔ c ∈ i.store.records := by
  rw [candidates, h.indexed.mem_getAll_iff]
  exact and_iff_left_of_imp h.id_mem_order

/-- What the store knows is selected just where it is chosen. -/
theorem mem_chosen (h : i.Exact) {id : CandidateId} (hid : id ∈ i.store.ids) :
    id ∈ i.chosen w ↔ w (.candidate id) = true := by
  rw [chosen, List.mem_filter]
  exact and_iff_right ((h.order id).2 hid)

/-- A candidate of the store is selected just where it is chosen. -/
theorem id_mem_chosen (h : i.Exact) {c : Candidate} (hc : c ∈ i.store.records) :
    c.id ∈ i.chosen w ↔ w (.candidate c.id) = true :=
  h.mem_chosen (Store.mem_ids.2 ⟨c, hc, rfl⟩)

/-- **What provides an identifier** in the rules. -/
theorem mem_providerLiterals (h : i.Exact) {key : String} {l : Literal Choice} :
    l ∈ i.providerLiterals key ↔ ∃ o ∈ i.offers, o.provides key = true ∧ l = .pos o.choice := by
  simp only [providerLiterals, List.mem_append, List.mem_map, mem_arrange, h.indexed.members,
    mem_addedLiterals, Bool.and_true]
  constructor
  · rintro (⟨id, ⟨-, c, hc, rfl, hp⟩, rfl⟩ | ⟨a, n, ha, hp, rfl⟩)
    · exact ⟨_, ofCandidate_mem_offers hc, hp, rfl⟩
    · exact ⟨_, mem_offers.2 (Or.inr ⟨a, n, ha, rfl⟩), by simpa using hp, rfl⟩
  · rintro ⟨o, ho, hp, rfl⟩
    rcases mem_offers.1 ho with ⟨c, hc, rfl⟩ | ⟨a, n, ha, rfl⟩
    · exact Or.inl ⟨c.id, ⟨h.id_mem_order hc, c, hc, rfl, hp⟩, rfl⟩
    · exact Or.inr ⟨a, n, ha, by simpa using hp, rfl⟩

/-- **What meets a dependency** in the rules, where candidates are told by their numbers. -/
theorem mem_matchLiterals (h : i.Exact) {d : Dependency} {admitted : CandidateId → Bool}
    {l : Literal Choice} : l ∈ i.matchLiterals d ((i.store.matching d).filter admitted) ↔
      ∃ o ∈ i.offers, o.meets d = true ∧ l = .pos o.choice ∧
        ∀ id, o.choice = .candidate id → admitted id = true := by
  simp only [matchLiterals, List.mem_append, List.mem_map, mem_arrange, List.mem_filter,
    h.indexed.mem_matching_iff, mem_addedLiterals]
  constructor
  · rintro (⟨id, ⟨-, ⟨c, hc, rfl, hp, hv⟩, hadm⟩, rfl⟩ | ⟨a, n, ha, hd, rfl⟩)
    · refine ⟨_, ofCandidate_mem_offers hc, ?_, rfl, fun id hid => ?_⟩
      · simp [Candidate.meets, hp, hv]
      · rw [Offer.ofCandidate_choice, Choice.candidate.injEq] at hid
        exact hid ▸ hadm
    · exact ⟨_, mem_offers.2 (Or.inr ⟨a, n, ha, rfl⟩), by rw [Offer.ofStandIn_meets, hd], rfl,
        fun id hid => absurd hid (by simp)⟩
  · rintro ⟨o, ho, hd, rfl, hadm⟩
    rcases mem_offers.1 ho with ⟨c, hc, rfl⟩ | ⟨a, n, ha, rfl⟩
    · rw [Offer.ofCandidate_meets, Candidate.meets, Bool.and_eq_true] at hd
      exact Or.inl ⟨c.id, ⟨h.id_mem_order hc, ⟨c, hc, rfl, hd⟩, hadm c.id rfl⟩, rfl⟩
    · exact Or.inr ⟨a, n, ha, by rwa [Offer.ofStandIn_meets] at hd, rfl⟩

/-- The literals that match a dependency are those of the offers that meet it. -/
theorem mem_matchLiterals_all (h : i.Exact) {d : Dependency} {l : Literal Choice} :
    l ∈ i.matchLiterals d (i.store.matching d) ↔
      ∃ o ∈ i.offers, o.meets d = true ∧ l = .pos o.choice := by
  have hall : l ∈ i.matchLiterals d ((i.store.matching d).filter fun _ => true) ↔ _ :=
    h.mem_matchLiterals
  simpa using hall

/-- One of the literals of a dependency is true when an offer that meets it is taken. -/
theorem exists_match_iff (h : i.Exact) {d : Dependency} :
    (∃ l ∈ i.matchLiterals d (i.store.matching d), l.holds w = true) ↔
      ∃ o ∈ i.offers, o.meets d = true ∧ w o.choice = true := by
  simp only [h.mem_matchLiterals_all]
  constructor
  · rintro ⟨l, ⟨o, ho, hd, rfl⟩, hv⟩
    exact ⟨o, ho, hd, (pos_holds _).1 hv⟩
  · rintro ⟨o, ho, hd, hv⟩
    exact ⟨_, ⟨o, ho, hd, rfl⟩, (pos_holds _).2 hv⟩

/-- A provider of a key is chosen just where an offer of it is. -/
theorem exists_provider_iff (h : i.Exact) {key : String} :
    (∃ l ∈ i.providerLiterals key, l.holds w = true) ↔
      ∃ o ∈ i.offers, w o.choice = true ∧ o.provides key = true := by
  simp only [h.mem_providerLiterals]
  constructor
  · rintro ⟨l, ⟨o, ho, hp, rfl⟩, hv⟩
    exact ⟨o, ho, (pos_holds _).1 hv, hp⟩
  · rintro ⟨o, ho, hv, hp⟩
    exact ⟨_, ⟨o, ho, hp, rfl⟩, (pos_holds _).2 hv⟩

/-! ### One family of rules at a time -/

/-- The rule of a dependency. -/
theorem holds_depends (h : i.Exact) {c : Candidate} {d : Dependency} {index : Nat} :
    (i.dependsRule c.id d index).holds w = true ↔ (w (.candidate c.id) = true →
      (∃ o ∈ i.offers, o.meets d = true ∧ w o.choice = true) ∨ i.Waives w c.id index) := by
  rw [dependsRule, Rule.holds_implication (by decide), selected_holds]
  simp only [List.mem_append, or_and_right, exists_or, h.exists_match_iff, exists_waiver_iff]

/-- The rules of a recommendation. -/
theorem holds_recommends (h : i.Exact) {c : Candidate} {d : Dependency} :
    (∀ r ∈ i.recommendsRules c.id d, r.holds w = true) ↔
      (w (.candidate c.id) = true → (∃ o ∈ i.offers, o.meets d = true) →
        (∃ o ∈ i.offers, o.meets d = true ∧ w o.choice = true) ∨ w (.unmet d.target) = true) := by
  have hsome : (i.matchLiterals d (i.store.matching d)).isEmpty = false ↔
      ∃ o ∈ i.offers, o.meets d = true := by
    rw [List.isEmpty_eq_false_iff_exists_mem]
    simp only [h.mem_matchLiterals_all]
    constructor
    · rintro ⟨l, o, ho, hd, -⟩
      exact ⟨o, ho, hd⟩
    · rintro ⟨o, ho, hd⟩
      exact ⟨_, o, ho, hd, rfl⟩
  rw [recommendsRules]
  cases hempty : (i.matchLiterals d (i.store.matching d)).isEmpty with
  | true =>
      have hnone : ¬∃ o ∈ i.offers, o.meets d = true := by
        rw [← hsome, hempty]
        decide
      simp [hnone]
  | false =>
      simp only [Bool.false_eq_true, if_false, List.forall_mem_singleton, hsome.1 hempty, true_imp_iff]
      rw [Rule.holds_implication (by decide), selected_holds]
      simp only [List.mem_append, or_and_right, exists_or, h.exists_match_iff, List.mem_singleton,
        exists_eq_left, pos_holds]

/-- The rules of a break. -/
theorem holds_breaks (h : i.Exact) {c : Candidate} {d : Dependency} {index : Nat} :
    (∀ r ∈ i.breaksRules c.id d index, r.holds w = true) ↔ (w (.candidate c.id) = true →
      ∀ o ∈ i.offers, o.meets d = true → o.choice ≠ .candidate c.id → w o.choice = true →
        i.Waives w c.id index) := by
  have hrule : ∀ o : Offer, (Rule.of ((selected c.id).flip :: (Literal.pos o.choice).flip ::
      i.waiver c.id index) .breaks).holds w = true ↔
        (w (.candidate c.id) = true → w o.choice = true → i.Waives w c.id index) := by
    intro o
    rw [Rule.holds_of (by decide)]
    simp only [List.mem_cons, exists_eq_or_imp, Literal.holds_flip, Bool.not_eq_true',
      ← Bool.not_eq_true, selected_holds, pos_holds, exists_waiver_iff]
    rw [← imp_iff_not_or, ← imp_iff_not_or]
  simp only [breaksRules, List.mem_map, forall_exists_index, and_imp, forall_apply_eq_imp_iff₂]
  constructor
  · intro hall hc o ho hd hne
    refine (hrule o).1 (hall _ (h.mem_matchLiterals.2 ⟨o, ho, hd, rfl, fun id hid => ?_⟩)) hc
    rw [decide_eq_true_eq]
    rintro rfl
    exact hne hid
  · intro hall l hl
    obtain ⟨o, ho, hd, rfl, hne⟩ := h.mem_matchLiterals.1 hl
    rw [hrule]
    intro hc
    refine hall hc o ho hd fun hchoice => ?_
    have hself := hne c.id hchoice
    simp at hself

/-- The rules about what is provided several times. -/
theorem holds_exclusion (h : i.Exact) {key : String} :
    (∀ r ∈ i.exclusionRules key, r.holds w = true) ↔
      ∀ a ∈ i.offers, ∀ b ∈ i.offers, w a.choice = true → w b.choice = true →
        a.provides key = true → b.provides key = true → a.choice = b.choice := by
  have hpairs : (∀ x ∈ i.providerLiterals key, ∀ y ∈ i.providerLiterals key, x.holds w = true →
      y.holds w = true → x = y) ↔ ∀ a ∈ i.offers, ∀ b ∈ i.offers, w a.choice = true →
        w b.choice = true → a.provides key = true → b.provides key = true → a.choice = b.choice := by
    constructor
    · intro hall a ha b hb hav hbv hap hbp
      exact pos_inj (hall _ (h.mem_providerLiterals.2 ⟨a, ha, hap, rfl⟩) _
        (h.mem_providerLiterals.2 ⟨b, hb, hbp, rfl⟩) ((pos_holds _).2 hav) ((pos_holds _).2 hbv))
    · intro hall x hx y hy hxv hyv
      obtain ⟨a, ha, hap, rfl⟩ := h.mem_providerLiterals.1 hx
      obtain ⟨b, hb, hbp, rfl⟩ := h.mem_providerLiterals.1 hy
      rw [hall a ha b hb ((pos_holds _).1 hxv) ((pos_holds _).1 hyv) hap hbp]
  rw [← hpairs, exclusionRules]
  split
  · rw [List.forall_mem_singleton, Rule.holds_atMostOne]
  · rename_i hshort
    refine ⟨fun _ x hx y hy _ _ => ?_, fun _ r hr => absurd hr List.not_mem_nil⟩
    -- a single provider stands alone
    obtain ⟨a, ha⟩ := List.length_eq_one_iff.1
      (Nat.le_antisymm (Nat.not_lt.1 hshort) (List.length_pos_of_mem hx))
    rw [ha, List.mem_singleton] at hx hy
    rw [hx, hy]

/-- The rules about a root that must be loaded. -/
theorem holds_root (h : i.Exact) {c : Candidate} :
    (∀ r ∈ i.rootRules c, r.holds w = true) ↔
      ((∃ o ∈ i.offers, w o.choice = true ∧ o.provides c.identifier = true) ∨ i.Drops w c) ∧
        (i.Drops w c → w (.candidate c.id) = false) := by
  have hmandatory : (Rule.of (i.providerLiterals c.identifier) .mandatory).holds w = true ↔
      ∃ o ∈ i.offers, w o.choice = true ∧ o.provides c.identifier = true := by
    rw [Rule.holds_of (by decide), h.exists_provider_iff]
  have hfixed (hno : ¬i.Drops w c) : (∀ r ∈ [Rule.of (i.providerLiterals c.identifier) .mandatory],
      r.holds w = true) ↔
        ((∃ o ∈ i.offers, w o.choice = true ∧ o.provides c.identifier = true) ∨ i.Drops w c) ∧
          (i.Drops w c → w (.candidate c.id) = false) := by
    rw [List.forall_mem_singleton, hmandatory]
    simp [hno]
  rw [rootRules]
  cases hpurpose : i.purpose with
  | select => exact hfixed fun hdrop => by simp [Drops, hpurpose, Purpose.isRepair] at hdrop
  | explain => exact hfixed fun hdrop => by simp [Drops, hpurpose, Purpose.isRepair] at hdrop
  | repair l =>
      cases hbuiltin : c.isBuiltin with
      | true => exact hfixed fun hdrop => by simp [Drops, hbuiltin] at hdrop
      | false =>
          have hdrops : i.Drops w c ↔ w (.removed c.id) = true := by
            simp [Drops, hpurpose, hbuiltin, Purpose.isRepair]
          have hfree : (Rule.of [(Literal.pos (Choice.removed c.id)).flip, (selected c.id).flip]
              .removal).holds w = true ↔ (i.Drops w c → w (.candidate c.id) = false) := by
            rw [Rule.holds_of (by decide), hdrops]
            simp only [List.mem_cons, List.not_mem_nil, or_false, exists_eq_or_imp, exists_eq_left,
              Literal.holds_flip, Bool.not_eq_true', ← Bool.not_eq_true, selected_holds, pos_holds]
            exact imp_iff_not_or.symm
          have hmandatory : (Rule.of (i.providerLiterals c.identifier ++ [.pos (.removed c.id)])
              .mandatory).holds w = true ↔ (∃ o ∈ i.offers, w o.choice = true ∧
                o.provides c.identifier = true) ∨ i.Drops w c := by
            rw [Rule.holds_of (by decide), hdrops]
            simp only [List.mem_append, or_and_right, exists_or, h.exists_provider_iff,
              List.mem_singleton, exists_eq_left, pos_holds]
          simp only [List.forall_mem_cons, hfree, hmandatory, List.not_mem_nil, false_imp_iff,
            implies_true, and_true]
          exact and_comm

/-- The rules about a nested candidate. -/
theorem holds_nested (h : i.Exact) {c : Candidate} :
    (∀ r ∈ i.nestedRules c, r.holds w = true) ↔
      (c.load = .always → ∀ p ∈ c.parents, w (.candidate p) = true →
        ∃ o ∈ i.offers, w o.choice = true ∧ o.provides c.identifier = true) ∧
      (w (.candidate c.id) = true → ∃ p ∈ c.parents, w (.candidate p) = true) := by
  have hcontained : (Rule.implication (selected c.id) (c.parents.map selected)
      .containment).holds w = true ↔
        (w (.candidate c.id) = true → ∃ p ∈ c.parents, w (.candidate p) = true) := by
    rw [Rule.holds_implication (by decide), selected_holds]
    simp only [List.mem_map, exists_exists_and_eq_and, selected_holds]
  have hdemand : ∀ p, (Rule.implication (selected p) (i.providerLiterals c.identifier)
      .nestedAlways).holds w = true ↔ (w (.candidate p) = true →
        ∃ o ∈ i.offers, w o.choice = true ∧ o.provides c.identifier = true) := by
    intro p
    rw [Rule.holds_implication (by decide), selected_holds, h.exists_provider_iff]
  simp only [nestedRules, List.forall_mem_append, List.forall_mem_singleton, hcontained]
  by_cases hload : c.load = .always
  · simp only [hload, if_true, List.forall_mem_map, hdemand, true_imp_iff]
  · simp [hload]

/-- Everything that is provided has an at-most-one condition. -/
theorem mem_providedKeys (h : i.Exact) {o : Offer} (ho : o ∈ i.offers) {key : String}
    (hp : o.provides key = true) : key ∈ i.providedKeys := by
  rw [providedKeys, Group.mem_foldl_insertKey StandIn.identifier]
  rcases mem_offers.1 ho with ⟨c, hc, rfl⟩ | ⟨a, n, ha, rfl⟩
  · have hmem := (h.indexed.members key c.id).2 ⟨c, hc, rfl, hp⟩
    obtain ⟨g, hg, hkey⟩ := Store.exists_group_of_mem_providers hmem
    exact Or.inl (List.mem_map.2 ⟨g, hg, hkey⟩)
  · exact Or.inr ⟨a, List.mem_of_getElem? ha, by simpa using hp⟩

/-- **The rules of an instance mean that the instance is obeyed.** -/
theorem holds_iff (h : i.Exact) : (∀ r ∈ i.ruleList, r.holds w = true) ↔ i.Obeys w := by
  constructor
  · intro hall
    have hdep : ∀ c ∈ i.store.records, ∀ d index, c.descriptor.dependencies[index]? = some d →
        ∀ r ∈ i.dependencyRules c.id d index, r.holds w = true := fun c hc d index hindex r hr =>
      hall r (mem_ruleList.2 (Or.inl ⟨c, h.mem_candidates.2 hc, d, index, hindex, hr⟩))
    have hload : ∀ c ∈ i.store.records, ∀ r ∈ i.loadRules c, r.holds w = true := fun c hc r hr =>
      hall r (mem_ruleList.2 (Or.inr (Or.inr (Or.inl ⟨c, h.mem_candidates.2 hc, hr⟩))))
    have hroot : ∀ c ∈ i.store.records, c.isRoot = true → c.load = .always →
        ∀ r ∈ i.rootRules c, r.holds w = true := fun c hc hr hl r hmem =>
      hload c hc r (by rwa [loadRules, if_pos hr, if_pos hl])
    have hnested : ∀ c ∈ i.store.records, c.isRoot = false →
        ∀ r ∈ i.nestedRules c, r.holds w = true := fun c hc hr r hmem =>
      hload c hc r (by rwa [loadRules, hr])
    refine ⟨fun c hc hv d index hindex hr => ?_, fun c hc hv d hd hr => ?_,
      fun c hc hv d index hindex hr => ?_, fun a ha b hb hav hbv key hap hbp => ?_,
      fun c hc hv hr => (h.holds_nested.1 (hnested c hc hr)).2 hv,
      fun c hc hr hl => (h.holds_root.1 (hroot c hc hr hl)).1,
      fun c hc hr hl => (h.holds_root.1 (hroot c hc hr hl)).2,
      fun c hc hr hl => (h.holds_nested.1 (hnested c hc hr)).1 hl, fun id hid => ?_⟩
    · have hrules := hdep c hc d index hindex
      rw [dependencyRules, hr] at hrules
      exact h.holds_depends.1 (hrules _ (List.mem_singleton_self _)) hv
    · obtain ⟨index, hindex⟩ := List.getElem?_of_mem hd
      have hrules := hdep c hc d index hindex
      rw [dependencyRules, hr] at hrules
      exact h.holds_recommends.1 hrules hv
    · have hrules := hdep c hc d index hindex
      rw [dependencyRules, hr] at hrules
      exact h.holds_breaks.1 hrules hv
    · have hkey := h.mem_providedKeys ha hap
      exact h.holds_exclusion.1 (fun r hr => hall r (mem_ruleList.2 (Or.inr (Or.inl
        ⟨key, hkey, hr⟩)))) a ha b hb hav hbv hap hbp
    · have hasked := hall _ (mem_ruleList.2 (Or.inr (Or.inr (Or.inr ⟨id, hid, rfl⟩))))
      rwa [Rule.holds_assertion (by decide), selected_holds] at hasked
  · intro hobeys r hr
    rcases mem_ruleList.1 hr with ⟨c, hc, d, index, hindex, hr⟩ | ⟨key, -, hr⟩ | ⟨c, hc, hr⟩ |
      ⟨id, hid, rfl⟩
    · have hc := h.mem_candidates.1 hc
      rw [dependencyRules] at hr
      split at hr
      · rename_i hrel
        rw [List.mem_singleton.1 hr, h.holds_depends]
        exact fun hv => hobeys.depends c hc hv d index hindex hrel
      · rename_i hrel
        exact h.holds_recommends.2 (fun hv => hobeys.recommends c hc hv d
          (List.mem_of_getElem? hindex) hrel) r hr
      · rename_i hrel
        exact h.holds_breaks.2 (fun hv => hobeys.breaks c hc hv d index hindex hrel) r hr
      · exact absurd hr List.not_mem_nil
      · exact absurd hr List.not_mem_nil
    · exact h.holds_exclusion.2 (fun a ha b hb hav hbv => hobeys.single a ha b hb hav hbv key) r hr
    · have hc := h.mem_candidates.1 hc
      rw [loadRules] at hr
      cases hroot : c.isRoot with
      | true =>
          rw [hroot, if_pos rfl] at hr
          split at hr
          · rename_i hl
            exact h.holds_root.2 ⟨hobeys.root c hc hroot hl, hobeys.dropped c hc hroot hl⟩ r hr
          · exact absurd hr List.not_mem_nil
      | false =>
          rw [hroot] at hr
          exact h.holds_nested.2 ⟨fun hl => hobeys.nested c hc hroot hl,
            fun hv => hobeys.contained c hc hv hroot⟩ r hr
    · rw [Rule.holds_assertion (by decide), selected_holds]
      exact hobeys.preselected id hid

end Exact
end Instance
end Loadout
