/-
# What operations do to a store

Taking a candidate in comes down to four changes.  A new candidate stands at the end of the
records and in the groups of its keys (`Store.add`); two candidates are tied by an edge
(`Candidate.tie`); a candidate comes to provide more (`Store.gain`); and one moves to a new
origin (`Store.Moves`).  `Store.Takes` says in which order they happen for each outcome, and
every insert that succeeds is one of its cases (`Store.Indexed.takes`).  So an invariant of
stores is kept by inserts where each of the four changes keeps it.

A candidate that is taken out takes its edges along (`Store.Cuts`) and leaves the groups of what
it provided (`Candidate.leave`); nothing else about the others changes (`Store.detach_cases`).
-/

import Loadout.Proofs.Store.Index
import Loadout.Store.Depth

namespace Loadout

/-- A candidate once one contains another one. -/
def Candidate.tie (parent child : CandidateId) (c : Candidate) : Candidate :=
  if c.id = child then { c with parents := Store.addOnce parent c.parents }
  else if c.id = parent then { c with children := Store.addOnce child c.children } else c

/-- The group of a candidate that is taken out, without it. -/
def Candidate.leave (gone : Candidate) (g : Group) : Group :=
  if gone.keys.contains g.identifier then g.removeMember gone.id else g

namespace Store

variable {s : Store}

/-- A candidate provides its identifier and its aliases. -/
theorem provides_iff {c : Candidate} {key : String} :
    c.provides key = true ↔ key = c.identifier ∨ key ∈ c.aliases := by
  simp [Candidate.provides, Candidate.keys]

/-- What it provides are its keys. -/
theorem provides_iff_mem {c : Candidate} {key : String} :
    c.provides key = true ↔ key ∈ c.keys := List.contains_iff_mem

/-- What is provided is read off the descriptor. -/
theorem provides_congr {a b : Candidate} (h : a.descriptor = b.descriptor) (key : String) :
    a.provides key = b.provides key := by
  simp only [Candidate.provides, Candidate.keys, Candidate.identifier, Candidate.aliases, h]

/-! ### Edges -/

/-- An edge changes nothing about candidates but their edges. -/
theorem tie_eq (parent child : CandidateId) (c : Candidate) : c.tie parent child =
    { c with parents := (c.tie parent child).parents, children := (c.tie parent child).children } := by
  rw [Candidate.tie]
  split
  · rfl
  · split <;> rfl

/-- Tying adds the container to the parents of what is in it. -/
theorem mem_parents_tie {parent child q : CandidateId} {c : Candidate} :
    q ∈ (c.tie parent child).parents ↔ q ∈ c.parents ∨ (c.id = child ∧ q = parent) := by
  rw [Candidate.tie]
  split
  · rename_i hc
    rw [mem_addOnce, and_iff_right hc]
  · rename_i hc
    rw [or_iff_left fun h => hc h.1]
    split <;> rfl

/-- Tying adds what is inside to the children of the container. -/
theorem mem_children_tie {parent child q : CandidateId} (hne : parent ≠ child) {c : Candidate} :
    q ∈ (c.tie parent child).children ↔ q ∈ c.children ∨ (c.id = parent ∧ q = child) := by
  rw [Candidate.tie]
  split
  · rename_i hc
    exact (or_iff_left fun h => hne (h.1.symm.trans hc)).symm
  · split
    · rename_i hc
      rw [mem_addOnce, and_iff_right hc]
    · rename_i hc
      exact (or_iff_left fun h => hc h.1).symm

/-- **A link** between two candidates, of which the outer one is in the store. -/
theorem link_eq {parent child : CandidateId} (hne : parent ≠ child) (hin : parent ∈ s.ids) :
    s.link parent child = { s with records := s.records.map (Candidate.tie parent child) } := by
  have hno : ¬(decide (parent = child) || !s.contains parent) = true := by
    simp [hne, contains_iff.2 hin]
  rw [link, if_neg hno]
  simp only [modify, List.map_map]
  congr 2
  funext c
  simp only [Function.comp_apply, Candidate.tie]
  by_cases hc : c.id = child
  · rw [if_pos hc, if_pos hc]
    exact if_neg fun h => hne (h.symm.trans hc)
  · rw [if_neg hc, if_neg hc]

/-- **What a link does**: nothing, or one edge from a candidate of the store to another one. -/
theorem link_cases (s : Store) (parent child : CandidateId) :
    s.link parent child = s ∨ (parent ≠ child ∧ parent ∈ s.ids ∧
      s.link parent child = { s with records := s.records.map (Candidate.tie parent child) }) := by
  by_cases hne : parent = child
  · exact Or.inl (if_pos (by simp [hne]))
  by_cases hin : parent ∈ s.ids
  · exact Or.inr ⟨hne, hin, link_eq hne hin⟩
  · rw [← contains_iff] at hin
    exact Or.inl (if_pos (by simp [hin]))

/-- A link to a container ties, unless there is none or it is not in the store. -/
theorem linkParent_cases (s : Store) (parent? : Option CandidateId) (child : CandidateId) :
    s.linkParent parent? child = s ∨ ∃ parent, parent? = some parent ∧ parent ≠ child ∧
      parent ∈ s.ids ∧ s.linkParent parent? child =
        { s with records := s.records.map (Candidate.tie parent child) } := by
  cases parent? with
  | none => exact Or.inl rfl
  | some p => exact (s.link_cases p child).imp_right fun h => ⟨p, rfl, h⟩

/-- **What a new container does to candidates**: it comes to be around one of them, if there is
any, and nothing but lists of edges changes. -/
structure Ties (parent? : Option CandidateId) (child : CandidateId) (f : Candidate → Candidate) :
    Prop where
  frame : ∀ a, f a = { a with parents := (f a).parents, children := (f a).children }
  parents : ∀ a q, q ∈ (f a).parents ↔ q ∈ a.parents ∨ (a.id = child ∧ parent? = some q)

section Ties

variable {parent? : Option CandidateId} {child : CandidateId} {f : Candidate → Candidate}

/-- A container changes no descriptor. -/
theorem Ties.descriptor (h : Ties parent? child f) (a : Candidate) :
    (f a).descriptor = a.descriptor := by
  rw [h.frame]

/-- A container changes no depth. -/
theorem Ties.depth (h : Ties parent? child f) (a : Candidate) : (f a).depth = a.depth := by
  rw [h.frame]

/-- A container changes no place. -/
theorem Ties.location (h : Ties parent? child f) (a : Candidate) :
    (f a).location = a.location := by
  rw [h.frame]

/-- Where there is no container, nothing changes. -/
theorem ties_none (child : CandidateId) : Ties none child fun a => a :=
  ⟨fun _ => rfl, fun a q => by simp⟩

/-- A container that is in the store comes to be around a candidate other than itself. -/
theorem exists_ties (s : Store) (parent? : Option CandidateId) (child : CandidateId)
    (h : ∀ p, parent? = some p → p ≠ child ∧ p ∈ s.ids) : ∃ f, Ties parent? child f ∧
      s.linkParent parent? child = { s with records := s.records.map f } := by
  cases parent? with
  | none =>
      refine ⟨fun a => a, ties_none child, ?_⟩
      rw [List.map_id']
      rfl
  | some p =>
      obtain ⟨hne, hin⟩ := h p rfl
      refine ⟨_, ⟨tie_eq p child, fun a q => ?_⟩, link_eq hne hin⟩
      rw [mem_parents_tie, Option.some.injEq, eq_comm (a := p)]

end Ties

/-! ### A new candidate -/

/-- The store with one more candidate, which no edge leads to yet. -/
def add (s : Store) (c : Candidate) : Store :=
  ⟨s.records ++ [c], indexNew s.groups c.id c.keys, s.nextId + 1⟩

/-- A candidate as it first gets its number. -/
def numbered (s : Store) (new : NewCandidate) : Candidate :=
  { id := s.nextId, descriptor := new.descriptor, location := new.location,
    depth := s.depthFor new, remap := new.remap }

/-! ### More aliases -/

/-- The store with candidates changed, and one of them in more groups. -/
def gain (s : Store) (f : Candidate → Candidate) (id : CandidateId) (keys : List String) : Store :=
  ⟨s.records.map f, indexAgain s.groups id keys, s.nextId⟩

/-- **What more aliases do to candidates**: nothing but that the one in question comes to
provide more.  It is taken in under all of its keys again, unless there are none to add. -/
structure Gains (records : List Candidate) (id : CandidateId) (keys : List String)
    (f : Candidate → Candidate) : Prop where
  frame : ∀ a, f a = { a with descriptor := { a.descriptor with provides := (f a).aliases } }
  provides : ∀ a ∈ records, ∀ key,
    (f a).provides key = true ↔ a.provides key = true ∨ (a.id = id ∧ key ∈ keys)
  again : keys ≠ [] → ∀ a ∈ records, a.id = id → ∀ key, a.provides key = true → key ∈ keys

section Gains

variable {records : List Candidate} {own : CandidateId} {keys : List String}
  {f : Candidate → Candidate}

/-- More aliases change no number. -/
theorem Gains.id (h : Gains records own keys f) (a : Candidate) : (f a).id = a.id := by
  rw [h.frame]

/-- More aliases change no depth. -/
theorem Gains.depth (h : Gains records own keys f) (a : Candidate) : (f a).depth = a.depth := by
  rw [h.frame]

/-- More aliases change no parents. -/
theorem Gains.parents (h : Gains records own keys f) (a : Candidate) :
    (f a).parents = a.parents := by
  rw [h.frame]

/-- More aliases change no children. -/
theorem Gains.children (h : Gains records own keys f) (a : Candidate) :
    (f a).children = a.children := by
  rw [h.frame]

/-- More aliases change no identifier. -/
theorem Gains.identifier (h : Gains records own keys f) (a : Candidate) :
    (f a).identifier = a.identifier := by
  rw [h.frame]
  rfl

/-- More aliases change no version. -/
theorem Gains.version (h : Gains records own keys f) (a : Candidate) :
    (f a).version = a.version := by
  rw [h.frame]
  rfl

end Gains

/-- **A copy that loses still adds its aliases.** -/
theorem Indexed.addAliases_eq (h : s.Indexed) {c : Candidate} (hc : c ∈ s.records)
    (aliases : List String) : ∃ f keys, s.addAliases c aliases = s.gain f c.id keys ∧
      Gains s.records c.id keys f ∧
      ∀ key, (f c).provides key = true ↔ c.provides key = true ∨ key ∈ aliases := by
  rw [addAliases]
  generalize hadded : (aliases.filter fun a => !c.provides a) = added
  have hall : ∀ key, key ∈ aliases ∨ c.provides key = true ↔ key ∈ added ∨ c.provides key = true := by
    intro key
    rw [← hadded, List.mem_filter, Bool.not_eq_true']
    cases c.provides key <;> simp
  split
  · rename_i hempty
    rw [List.isEmpty_iff] at hempty
    refine ⟨fun a => a, [], ?_, ⟨fun _ => rfl, fun a _ key => by simp, fun h => absurd rfl h⟩,
      fun key => ?_⟩
    · rw [gain, List.map_id']
      rfl
    · rw [or_comm, hall, hempty, or_iff_right List.not_mem_nil]
  refine ⟨_, _, rfl, ⟨fun a => ?_, fun a ha key => ?_, fun _ a ha hac key hkey => ?_⟩, fun key => ?_⟩
  · split <;> rfl
  · by_cases hac : a.id = c.id
    · obtain rfl := h.eq_of_id_eq ha hc hac
      simp only [if_true, provides_iff, Candidate.identifier, Candidate.aliases, List.mem_append,
        List.mem_cons, true_and]
      grind
    · simp [hac]
  · obtain rfl := h.eq_of_id_eq ha hc hac
    rw [List.mem_cons, List.mem_append]
    exact (provides_iff.1 hkey).imp_right Or.inl
  · rw [if_pos rfl, or_comm, hall, or_comm, provides_iff, provides_iff]
    change key = c.identifier ∨ key ∈ c.aliases ++ added ↔ (key = c.identifier ∨ key ∈ c.aliases) ∨ _
    rw [List.mem_append, or_assoc]

/-! ### A new origin -/

/-- Joined are the aliases that were there and those that come. -/
theorem mem_joinAliases {x : String} : ∀ {extra base : List String},
    x ∈ joinAliases base extra ↔ x ∈ base ∨ x ∈ extra
  | [], base => by simp [joinAliases]
  | a :: extra, base => by
      rw [joinAliases, List.foldl_cons, ← joinAliases, mem_joinAliases]
      split
      · rename_i ha
        have hbase : a ∈ base := by simpa using ha
        constructor
        · exact fun h => h.imp_right (List.mem_cons_of_mem a)
        · rintro (h | h)
          · exact Or.inl h
          · rcases List.mem_cons.1 h with rfl | h
            · exact Or.inl hbase
            · exact Or.inr h
      · simp [or_assoc]

/-- **What a new origin does to candidates**: the one that moves has the descriptor and the
depth of the new copy, all aliases and nothing around it, and what it was in has lost it. -/
structure Moves (own : CandidateId) (left : List CandidateId) (new : NewCandidate) (depth : Nat)
    (f : Candidate → Candidate) : Prop where
  id : ∀ a, (f a).id = a.id
  others : ∀ a, a.id ≠ own → f a = { a with children := (f a).children }
  descriptor : ∀ a, a.id = own → (f a).descriptor =
    { new.descriptor with provides := joinAliases new.descriptor.provides a.aliases }
  depth : ∀ a, a.id = own → (f a).depth = depth
  location : ∀ a, a.id = own → (f a).location = new.location
  parents : ∀ a, a.id = own → (f a).parents = []
  children : ∀ a, (f a).children = if a.id ∈ left then a.children.filter (· ≠ own) else a.children

section Moves

variable {own : CandidateId} {left : List CandidateId} {new : NewCandidate} {depth : Nat}
  {f : Candidate → Candidate} {a : Candidate}

/-- Only what moves gets another depth. -/
theorem Moves.depth_of_ne (h : Moves own left new depth f) (ha : a.id ≠ own) :
    (f a).depth = a.depth := by
  rw [h.others a ha]

/-- What moves has the identifier of the new copy. -/
theorem Moves.identifier (h : Moves own left new depth f) (ha : a.id = own) :
    (f a).identifier = new.descriptor.id := by
  rw [Candidate.identifier, h.descriptor a ha]

/-- What moves has the version of the new copy. -/
theorem Moves.version (h : Moves own left new depth f) (ha : a.id = own) :
    (f a).version = new.descriptor.version := by
  rw [Candidate.version, h.descriptor a ha]

end Moves

/-- **A new origin** moves one candidate and ties it to its container. -/
theorem replaceOrigin_eq (s : Store) (id : CandidateId) (new : NewCandidate) (depth : Nat) :
    ∃ f, s.replaceOrigin id new depth =
        linkParent { s with records := s.records.map f } new.parent? id ∧
      Moves id (((s.get? id).map (·.parents)).getD []) new depth f := by
  rw [replaceOrigin]
  generalize ((s.get? id).map (·.parents)).getD [] = left
  generalize hmove : (fun c : Candidate =>
    { c with
      descriptor := { new.descriptor with
        provides := joinAliases new.descriptor.provides c.aliases }
      location := new.location
      parents := []
      depth
      remap := new.remap }) = move
  generalize horphan : (fun c : Candidate => if left.contains c.id
    then { c with children := c.children.filter (· ≠ id) } else c) = orphan
  have hframe : ∀ a, (orphan a) = { a with children := (orphan a).children } ∧
      (orphan a).children = if a.id ∈ left then a.children.filter (· ≠ id) else a.children := by
    intro a
    rw [← horphan]
    by_cases hleft : a.id ∈ left <;> simp [hleft]
  refine ⟨fun a => orphan (if a.id = id then move a else a), ?_, ?_⟩
  · rw [modify, List.map_map]
    rfl
  constructor
  all_goals intro a
  all_goals rw [(hframe _).1]
  · split
    · rw [← hmove]
    · rfl
  · intro ha
    rw [if_neg ha]
  · intro ha
    rw [if_pos ha, ← hmove]
  · intro ha
    rw [if_pos ha, ← hmove]
  · intro ha
    rw [if_pos ha, ← hmove]
  · intro ha
    rw [if_pos ha, ← hmove]
  · rw [(hframe _).2]
    split
    · rw [← hmove]
    · rfl

/-! ### Taking a candidate in -/

/-- A copy of a descriptor has its identifier and a version that is the same. -/
theorem copyOf?_spec {d : Descriptor} {c : Candidate} (hc : s.copyOf? d = some c) :
    c ∈ s.records ∧ d.id = c.identifier ∧ c.version.sameAs d.version = true := by
  have hmem := List.mem_of_find?_eq_some hc
  have hcopy := List.find?_some hc
  simp only [Bool.and_eq_true, beq_iff_eq] at hcopy
  exact ⟨(mem_getAll hmem).1, hcopy.1.symm, hcopy.2⟩

/-- The index leads to every copy that the store has. -/
theorem Indexed.not_sameAs_of_copyOf?_eq_none (h : s.Indexed) {d : Descriptor}
    (hnone : s.copyOf? d = none) {c : Candidate} (hc : c ∈ s.records) (hid : c.identifier = d.id) :
    c.version.sameAs d.version = false := by
  have hin : c ∈ s.getAll (s.providers d.id) := h.mem_getAll_iff.2
    ⟨hc, (h.members d.id c.id).2 ⟨c, hc, rfl, provides_iff.2 (Or.inl hid.symm)⟩⟩
  have := List.find?_eq_none.1 hnone c hin
  simpa [hid] using this

/-- **All that an insert can do**, with what became of the candidate. -/
inductive Takes (s : Store) (new : NewCandidate) : Store → Outcome → Prop where
  /-- There is no copy: the candidate gets a number. -/
  | numbered (none : s.copyOf? new.descriptor = none) :
      Takes s new ((s.add (s.numbered new)).linkParent new.parent? s.nextId) (.inserted s.nextId)
  /-- The new copy wins, and the candidate moves to its place. -/
  | moved {c : Candidate} {f g : Candidate → Candidate} {keys : List String}
      (copy : s.copyOf? new.descriptor = some c) (gains : Gains s.records c.id keys f)
      (known : ∀ key ∈ new.descriptor.provides, (f c).provides key = true)
      (depth : s.depthFor new ≤ c.depth) (moves : Moves c.id c.parents new (s.depthFor new) g)
      (won : wins new (s.depthFor new) c = true)
      (provides : ∀ key, (f c).provides key = true ↔
        c.provides key = true ∨ key ∈ new.descriptor.provides) :
      Takes s new (linkParent { s.gain f c.id keys with records := (s.gain f c.id keys).records.map g }
        new.parent? c.id) (.replaced c.id)
  /-- The new copy loses at the same depth, and the candidate is in its container too. -/
  | joined {c : Candidate} {f : Candidate → Candidate} {keys : List String}
      (copy : s.copyOf? new.descriptor = some c) (gains : Gains s.records c.id keys f)
      (depth : s.depthFor new = c.depth) (lost : wins new (s.depthFor new) c = false)
      (provides : ∀ key, (f c).provides key = true ↔
        c.provides key = true ∨ key ∈ new.descriptor.provides) :
      Takes s new ((s.gain f c.id keys).linkParent new.parent? c.id) (.duplicate c.id)
  /-- The new copy loses further down. -/
  | kept {c : Candidate} {f : Candidate → Candidate} {keys : List String}
      (copy : s.copyOf? new.descriptor = some c) (gains : Gains s.records c.id keys f)
      (deeper : c.depth < s.depthFor new)
      (provides : ∀ key, (f c).provides key = true ↔
        c.provides key = true ∨ key ∈ new.descriptor.provides) :
      Takes s new (s.gain f c.id keys) (.duplicate c.id)

/-- Candidates are found as they are changed, where numbers are kept. -/
theorem get?_map {f : Candidate → Candidate} (hid : ∀ a, (f a).id = a.id) {s' : Store}
    (hs : s'.records = s.records.map f) (id : CandidateId) : s'.get? id = (s.get? id).map f := by
  have hsame : ((fun c : Candidate => decide (c.id = id)) ∘ f) = fun c => decide (c.id = id) := by
    funext a
    rw [Function.comp_apply, hid]
  rw [get?, hs, List.find?_map, hsame, get?]

/-- **Every insert that succeeds is one of these.** -/
theorem Indexed.takes (h : s.Indexed) {new : NewCandidate} {s' : Store} {o : Outcome}
    (hs : s.insert new = .ok (s', o)) : s.Takes new s' o := by
  rw [Store.insert] at hs
  split at hs
  · exact absurd hs (by simp)
  split at hs
  · rename_i hnone
    obtain ⟨rfl, rfl⟩ := Prod.mk.inj (Except.ok.inj hs)
    exact .numbered hnone
  rename_i c hcopy
  obtain ⟨hc, -⟩ := copyOf?_spec hcopy
  obtain ⟨f, keys, heq, hgains, hprovides⟩ := h.addAliases_eq hc new.descriptor.provides
  rw [mergeCopy, heq] at hs
  split at hs
  · rename_i hwins
    have hdepth : s.depthFor new ≤ c.depth := by
      simp only [wins, Bool.or_eq_true, decide_eq_true_eq, Bool.and_eq_true, beq_iff_eq] at hwins
      omega
    obtain ⟨g, hmove, hmoves⟩ := (s.gain f c.id keys).replaceOrigin_eq c.id new (s.depthFor new)
    have hleft : (((s.gain f c.id keys).get? c.id).map (·.parents)).getD [] = c.parents := by
      rw [get?_map hgains.id rfl, h.get?_eq_some_iff.2 ⟨hc, rfl⟩, Option.map_some, Option.map_some,
        Option.getD_some, hgains.parents]
    obtain ⟨rfl, rfl⟩ := Prod.mk.inj (Except.ok.inj hs)
    rw [hmove]
    exact .moved hcopy hgains (fun key hkey => (hprovides key).2 (Or.inr hkey)) hdepth
      (hleft ▸ hmoves) hwins hprovides
  · rename_i hwins
    rw [Bool.not_eq_true] at hwins
    obtain ⟨rfl, rfl⟩ := Prod.mk.inj (Except.ok.inj hs)
    split
    · rename_i hdepth
      exact .joined hcopy hgains hdepth hwins hprovides
    · rename_i hdepth
      refine .kept hcopy hgains ?_ hprovides
      simp only [wins, Bool.or_eq_false_iff, decide_eq_false_iff_not] at hwins
      omega

/-! ### Taking a candidate out -/

/-- **What taking a candidate out does to others**: they lose their edges to it. -/
structure Cuts (gone : Candidate) (f : Candidate → Candidate) : Prop where
  frame : ∀ c, f c = { c with parents := (f c).parents, children := (f c).children }
  parents : ∀ c, (f c).parents =
    if c.id ∈ gone.children then c.parents.filter (· ≠ gone.id) else c.parents
  children : ∀ c, (f c).children =
    if c.id ∈ gone.parents then c.children.filter (· ≠ gone.id) else c.children

/-- Who stays keeps its number when another one is taken out. -/
theorem Cuts.id {gone : Candidate} {f : Candidate → Candidate} (h : Cuts gone f) (c : Candidate) :
    (f c).id = c.id := by
  rw [h.frame]

/-- Who stays keeps its parents, but for the one that is taken out. -/
theorem Cuts.mem_parents {gone : Candidate} {f : Candidate → Candidate} (h : Cuts gone f)
    {c : Candidate} {p : CandidateId} :
    p ∈ (f c).parents ↔ p ∈ c.parents ∧ (c.id ∈ gone.children → p ≠ gone.id) := by
  rw [h.parents]
  split
  · rename_i hin
    rw [List.mem_filter, decide_eq_true_eq, imp_iff_right hin]
  · rename_i hin
    exact (and_iff_left fun h => absurd h hin).symm

/-- Who stays keeps its children, but for the one that is taken out. -/
theorem Cuts.mem_children {gone : Candidate} {f : Candidate → Candidate} (h : Cuts gone f)
    {c : Candidate} {x : CandidateId} :
    x ∈ (f c).children ↔ x ∈ c.children ∧ (c.id ∈ gone.parents → x ≠ gone.id) := by
  rw [h.children]
  split
  · rename_i hin
    rw [List.mem_filter, decide_eq_true_eq, imp_iff_right hin]
  · rename_i hin
    exact (and_iff_left fun h => absurd h hin).symm

/-- **Taking a candidate out** does nothing where it is not there; else it goes, with its edges
and its places in groups, and groups without members go too. -/
theorem detach_cases (s : Store) (id : CandidateId) :
    (id ∉ s.ids ∧ s.detach id = s) ∨ ∃ gone, s.get? id = some gone ∧ ∃ f, Cuts gone f ∧
      s.detach id = { s with
        records := (s.records.filter fun c => c.id ≠ id).map f
        groups := (s.groups.map gone.leave).filter fun g => !g.members.isEmpty } := by
  cases hget : s.get? id with
  | none =>
      refine Or.inl ⟨fun hin => ?_, by rw [detach, hget]⟩
      rw [← contains_iff, contains, hget] at hin
      exact absurd hin Bool.false_ne_true
  | some gone =>
      obtain ⟨-, rfl⟩ := mem_of_get? hget
      rw [detach, hget]
      refine Or.inr ⟨gone, rfl, _, ?_, rfl⟩
      constructor
      all_goals intro c
      all_goals by_cases hp : c.id ∈ gone.parents <;> by_cases hc : c.id ∈ gone.children <;>
        simp [hp, hc]

end Store
end Loadout
