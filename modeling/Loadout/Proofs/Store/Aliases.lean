/-
# Aliases of groups

A group keeps the other identifiers that its members provide.  They come in with the members, and
whatever a candidate comes to provide later is put into each group that it is in.  But a member
that is taken out leaves its identifiers behind in every group that has another member.

So what one change does to aliases is this (`Store.Enlists`): a group that is left without members
goes, and each other one keeps its aliases and has all that its members now provide.  Over a
history, a group has an alias just when some member of it has provided that as well, and the group
has not been empty since (`Store.aliases_shared_since`).  The members of today provide it where
nothing was taken out.
-/

import Loadout.Proofs.Store.Multiplicity

namespace Loadout
namespace Group

variable {gs : List Group} {key other : String} {keys : List String} {f : Group → Group}

/-- A group gets the keys that it is not named by as aliases. -/
theorem mem_aliases_addAliases {g : Group} :
    other ∈ (g.addAliases keys).aliases ↔ other ∈ g.aliases ∨ (other ≠ g.identifier ∧ other ∈ keys) := by
  rw [addAliases, mem_foldl_insertKey (fun k => k)]
  simp only [List.mem_filter, decide_eq_true_eq, exists_eq_right]
  rw [and_comm]

/-- The aliases of the group of an identifier. -/
def aliasesOf (gs : List Group) (key : String) : List String :=
  ((gs.find? (·.identifier = key)).map (·.aliases)).getD []

/-- The aliases of a group are found by its identifier. -/
theorem aliasesOf_of_mem (hs : Sorted gs) {g : Group} (hg : g ∈ gs) :
    aliasesOf gs g.identifier = g.aliases := by
  rw [aliasesOf, hs.find?_eq hg]
  rfl

/-- Only where there is a group are there aliases. -/
theorem exists_of_mem_aliasesOf (h : other ∈ aliasesOf gs key) : ∃ g ∈ gs, g.identifier = key := by
  by_contra hnone
  have hfind : gs.find? (·.identifier = key) = none :=
    List.find?_eq_none.2 fun g hg hgk => hnone ⟨g, hg, of_decide_eq_true hgk⟩
  rw [aliasesOf, hfind] at h
  exact absurd h List.not_mem_nil

/-- **Putting a candidate into the group of one of its keys** gives the group the other keys. -/
theorem mem_aliasesOf_update (hf : ∀ g, (f g).identifier = g.identifier)
    (ha : ∀ g, (f g).aliases = (g.addAliases keys).aliases) (hs : Sorted gs) (k : String) :
    other ∈ aliasesOf (update k f gs) key ↔
      other ∈ aliasesOf gs key ∨ (key = k ∧ other ≠ key ∧ other ∈ keys) := by
  rw [aliasesOf, find?_update hf key hs]
  by_cases hk : key = k
  · subst hk
    have hidentifier : ((gs.find? (·.identifier = key)).getD { identifier := key }).identifier = key := by
      cases hfind : gs.find? (·.identifier = key) with
      | none => rfl
      | some g => simpa using List.find?_some hfind
    rw [if_pos rfl, Option.map_some, Option.getD_some, ha, mem_aliases_addAliases, hidentifier,
      aliasesOf, eq_self, true_and]
    cases gs.find? (·.identifier = key) <;> rfl
  · rw [if_neg hk, ← aliasesOf, or_iff_left fun h => hk h.1]

/-- **Putting it into the groups of some keys** gives each of these groups the other keys. -/
theorem mem_aliasesOf_foldl_update (hf : ∀ g, (f g).identifier = g.identifier)
    (ha : ∀ g, (f g).aliases = (g.addAliases keys).aliases) :
    ∀ (ks : List String) {gs : List Group}, Sorted gs →
      (other ∈ aliasesOf (ks.foldl (fun gs k => update k f gs) gs) key ↔
        other ∈ aliasesOf gs key ∨ (key ∈ ks ∧ other ≠ key ∧ other ∈ keys))
  | [], _, _ => by simp
  | k :: ks, gs, hs => by
      rw [List.foldl_cons, mem_aliasesOf_foldl_update hf ha ks (sorted_update hf hs),
        mem_aliasesOf_update hf ha hs, or_assoc, ← or_and_right, ← List.mem_cons]

end Group

namespace Store

variable {s s' t : Store} {key other : String}

/-- The aliases of the group of an identifier. -/
def aliasesOf (s : Store) (key : String) : List String := Group.aliasesOf s.groups key

/-- Some candidate provides both identifiers. -/
def Shares (s : Store) (key other : String) : Prop :=
  ∃ c ∈ s.records, c.provides key = true ∧ c.provides other = true

/-- A new member gives the groups of its keys the other keys as aliases. -/
theorem mem_aliasesOf_indexNew {groups : List Group} (hs : Group.Sorted groups) (id : CandidateId)
    (keys : List String) : other ∈ Group.aliasesOf (indexNew groups id keys) key ↔
      other ∈ Group.aliasesOf groups key ∨ (key ∈ keys ∧ other ≠ key ∧ other ∈ keys) :=
  Group.mem_aliasesOf_foldl_update (f := fun g => (g.addMember id).addAliases keys) (fun _ => rfl)
    (fun _ => rfl) keys hs

/-- A member that is taken in again does no less. -/
theorem mem_aliasesOf_indexAgain {groups : List Group} (hs : Group.Sorted groups) (id : CandidateId)
    (keys : List String) : other ∈ Group.aliasesOf (indexAgain groups id keys) key ↔
      other ∈ Group.aliasesOf groups key ∨ (key ∈ keys ∧ other ≠ key ∧ other ∈ keys) := by
  refine Group.mem_aliasesOf_foldl_update (fun g => (identifier_members_again id keys g).1)
    (fun g => ?_) keys hs
  split <;> rfl

/-- A candidate that provides an identifier is listed under it. -/
theorem Indexed.providers_ne_nil (h : s.Indexed) (hshares : s.Shares key other) :
    s.providers key ≠ [] := by
  obtain ⟨c, hc, hkey, -⟩ := hshares
  exact List.ne_nil_of_mem ((h.members key c.id).2 ⟨c, hc, rfl, hkey⟩)

/-- A group that is there has members. -/
theorem Catalogued.providers_ne_nil (h : s.Catalogued) (hother : other ∈ s.aliasesOf key) :
    s.providers key ≠ [] := by
  obtain ⟨g, hg, rfl⟩ := Group.exists_of_mem_aliasesOf hother
  rw [providers_eq, Group.membersOf_of_mem h.indexed.sorted hg]
  exact h.inhabited g hg

/-- **Groups have what their members provide.** -/
def Enlisted (s : Store) : Prop := ∀ key other, other ≠ key → s.Shares key other → other ∈ s.aliasesOf key

/-- **What a change does to aliases**: groups that are left keep theirs and have all that their
members now provide. -/
def Enlists (s s' : Store) : Prop :=
  ∀ key other, other ∈ s'.aliasesOf key ↔ s'.providers key ≠ [] ∧
    (other ∈ s.aliasesOf key ∨ (other ≠ key ∧ s'.Shares key other))

/-! ### One step -/

/-- Candidates may change as long as each provides what it did. -/
theorem shares_map {f : Candidate → Candidate}
    (hf : ∀ c ∈ s.records, ∀ key, (f c).provides key = c.provides key) (hs : t.records = s.records.map f) :
    t.Shares key other ↔ s.Shares key other := by
  rw [Shares, hs]
  constructor
  · rintro ⟨a, ha, hkey, hother⟩
    obtain ⟨c, hc, rfl⟩ := List.mem_map.1 ha
    rw [hf c hc] at hkey hother
    exact ⟨c, hc, hkey, hother⟩
  · rintro ⟨c, hc, hkey, hother⟩
    refine ⟨f c, List.mem_map_of_mem hc, ?_⟩
    rw [hf c hc, hf c hc]
    exact ⟨hkey, hother⟩

/-- Groups that have what their members provide have it after no change. -/
theorem Enlisted.enlists (h : s.Enlisted) (hs : s.Catalogued) : s.Enlists s := by
  intro key other
  constructor
  · exact fun hother => ⟨hs.providers_ne_nil hother, Or.inl hother⟩
  · rintro ⟨-, hother | ⟨hne, hshares⟩⟩
    · exact hother
    · exact h key other hne hshares

/-- A change of candidates that provide what they did does nothing to aliases. -/
theorem Enlists.map (h : s.Enlists s') {f : Candidate → Candidate}
    (hf : ∀ c ∈ s'.records, ∀ key, (f c).provides key = c.provides key) :
    s.Enlists { s' with records := s'.records.map f } := by
  intro key other
  rw [shares_map hf rfl]
  exact h key other

/-- A link does nothing to aliases. -/
theorem Enlists.link (h : s.Enlists s') (parent child : CandidateId) :
    s.Enlists (s'.link parent child) := by
  rcases s'.link_cases parent child with heq | ⟨-, -, heq⟩
  · rwa [heq]
  · rw [heq]
    exact h.map fun c _ key => provides_congr (by rw [tie_eq]) key

/-- A link to a container does nothing to aliases. -/
theorem Enlists.linkParent (h : s.Enlists s') (parent? : Option CandidateId) (child : CandidateId) :
    s.Enlists (s'.linkParent parent? child) := by
  cases parent? with
  | none => exact h
  | some p => exact h.link p child

/-- A new candidate shares all of its keys. -/
theorem shares_add {c : Candidate} : (s.add c).Shares key other ↔
    s.Shares key other ∨ (key ∈ c.keys ∧ other ∈ c.keys) := by
  simp only [Shares, Store.add, List.mem_append, List.mem_singleton, or_and_right, exists_or,
    exists_eq_left, provides_iff_mem]

/-- **A new candidate** brings its keys into the groups of each of them. -/
theorem Enlisted.add (h : s.Enlisted) (hs : s.Catalogued) {c : Candidate}
    (hadd : (s.add c).Catalogued) : s.Enlists (s.add c) := by
  intro key other
  have hold : other ≠ key → s.Shares key other → other ∈ s.aliasesOf key := h key other
  have hnew : other ∈ (s.add c).aliasesOf key ↔
      other ∈ s.aliasesOf key ∨ (key ∈ c.keys ∧ other ≠ key ∧ other ∈ c.keys) :=
    mem_aliasesOf_indexNew hs.indexed.sorted c.id c.keys
  have hinhabited : other ∈ (s.add c).aliasesOf key → (s.add c).providers key ≠ [] :=
    hadd.providers_ne_nil
  rw [shares_add]
  tauto

/-- A candidate that provides more shares all of it. -/
theorem Gains.shares_iff {id : CandidateId} {keys : List String} {f : Candidate → Candidate}
    (hf : Gains s.records id keys f) (hin : id ∈ s.ids) : (s.gain f id keys).Shares key other ↔
      s.Shares key other ∨ (key ∈ keys ∧ other ∈ keys) := by
  constructor
  · rintro ⟨a', ha', hkey, hother⟩
    obtain ⟨a, ha, rfl⟩ := List.mem_map.1 ha'
    rcases (hf.provides a ha key).1 hkey with hkey | ⟨hid, hkey⟩ <;>
      rcases (hf.provides a ha other).1 hother with hother | ⟨hid', hother⟩
    · exact Or.inl ⟨a, ha, hkey, hother⟩
    · exact Or.inr ⟨hf.again (List.ne_nil_of_mem hother) a ha hid' key hkey, hother⟩
    · exact Or.inr ⟨hkey, hf.again (List.ne_nil_of_mem hkey) a ha hid other hother⟩
    · exact Or.inr ⟨hkey, hother⟩
  · rintro (⟨a, ha, hkey, hother⟩ | ⟨hkey, hother⟩)
    · exact ⟨f a, List.mem_map_of_mem ha, (hf.provides a ha key).2 (Or.inl hkey),
        (hf.provides a ha other).2 (Or.inl hother)⟩
    · obtain ⟨a, ha, hid⟩ := mem_ids.1 hin
      exact ⟨f a, List.mem_map_of_mem ha, (hf.provides a ha key).2 (Or.inr ⟨hid, hkey⟩),
        (hf.provides a ha other).2 (Or.inr ⟨hid, hother⟩)⟩

/-- **A candidate that comes to provide more** brings all of its keys into the groups of each. -/
theorem Enlisted.gain (h : s.Enlisted) (hs : s.Catalogued) {id : CandidateId} (hin : id ∈ s.ids)
    {keys : List String} {f : Candidate → Candidate} (hf : Gains s.records id keys f) :
    s.Enlists (s.gain f id keys) := by
  intro key other
  have hold : other ≠ key → s.Shares key other → other ∈ s.aliasesOf key := h key other
  have hnew : other ∈ (s.gain f id keys).aliasesOf key ↔
      other ∈ s.aliasesOf key ∨ (key ∈ keys ∧ other ≠ key ∧ other ∈ keys) :=
    mem_aliasesOf_indexAgain hs.indexed.sorted id keys
  have hinhabited : other ∈ (s.gain f id keys).aliasesOf key → (s.gain f id keys).providers key ≠ [] :=
    (hs.gain hin hf).providers_ne_nil
  rw [hf.shares_iff hin]
  tauto

/-- A candidate that moves after it has got the aliases of the new copy provides what it did. -/
theorem Catalogued.provides_moved (h : s.Catalogued) {new : NewCandidate} {c : Candidate}
    {f g : Candidate → Candidate} {keys : List String} {left : List CandidateId} {depth : Nat}
    (hcopy : s.copyOf? new.descriptor = some c) (hgains : Gains s.records c.id keys f)
    (hknown : ∀ key ∈ new.descriptor.provides, (f c).provides key = true)
    (hmoves : Moves c.id left new depth g) :
    ∀ a ∈ (s.gain f c.id keys).records, ∀ key, (g a).provides key = a.provides key := by
  obtain ⟨hc, hidentifier, -⟩ := copyOf?_spec hcopy
  have hindexed := (h.gain (mem_ids.2 ⟨c, hc, rfl⟩) hgains).indexed
  exact fun a ha key => hindexed.provides_move (List.mem_map_of_mem hc) (hgains.id c) hmoves
    (hidentifier.trans (hgains.identifier c).symm) hknown ha key

/-- **Taking a candidate in** puts all that it provides into its groups. -/
theorem Enlisted.insert (h : s.Enlisted) (hs : s.Catalogued) {new : NewCandidate} {o : Outcome}
    (hnew : s.insert new = .ok (s', o)) : s.Enlists s' := by
  have hgain : ∀ {c : Candidate} {f : Candidate → Candidate} {keys : List String},
      s.copyOf? new.descriptor = some c → Gains s.records c.id keys f →
        s.Enlists (s.gain f c.id keys) :=
    fun hcopy hgains => h.gain hs (mem_ids.2 ⟨_, (copyOf?_spec hcopy).1, rfl⟩) hgains
  cases hs.indexed.takes hnew with
  | numbered hnone => exact (h.add hs (hs.add rfl hnone)).linkParent _ _
  | moved hcopy hgains hknown _ hmoves =>
      exact ((hgain hcopy hgains).map (hs.provides_moved hcopy hgains hknown hmoves)).linkParent _ _
  | joined hcopy hgains => exact (hgain hcopy hgains).linkParent _ _
  | kept hcopy hgains => exact hgain hcopy hgains

/-- A group keeps its aliases when a member leaves. -/
theorem leave_aliases (gone : Candidate) (g : Group) : (gone.leave g).aliases = g.aliases := by
  rw [Candidate.leave]
  split <;> rfl

/-- A group that keeps a member keeps its aliases, whoever is taken out. -/
theorem Catalogued.aliasesOf_detach (h : s.Catalogued) {id : CandidateId}
    (hleft : (s.detach id).providers key ≠ []) : (s.detach id).aliasesOf key = s.aliasesOf key := by
  have hsorted := (h.detach id).indexed.sorted
  obtain ⟨x, hx⟩ := List.exists_mem_of_ne_nil _ hleft
  obtain ⟨g', hg', rfl⟩ := exists_group_of_mem_providers hx
  have hbefore : ∃ g ∈ s.groups, g.identifier = g'.identifier ∧ g.aliases = g'.aliases := by
    rcases s.detach_cases id with ⟨-, heq⟩ | ⟨gone, -, f, -, heq⟩ <;> rw [heq] at hg'
    · exact ⟨g', hg', rfl, rfl⟩
    · obtain ⟨g, hg, rfl⟩ := List.mem_map.1 (List.mem_filter.1 hg').1
      exact ⟨g, hg, (gone.leave_identifier g).symm, (leave_aliases gone g).symm⟩
  obtain ⟨g, hg, hidentifier, haliases⟩ := hbefore
  rw [aliasesOf, Group.aliasesOf_of_mem hsorted hg', ← haliases, aliasesOf, ← hidentifier,
    Group.aliasesOf_of_mem h.indexed.sorted hg]

/-- **Taking a candidate out** takes nothing out of a group that is left. -/
theorem Enlisted.detach (h : s.Enlisted) (hs : s.Catalogued) (id : CandidateId) :
    s.Enlists (s.detach id) := by
  have hshares : ∀ {key other}, (s.detach id).Shares key other → s.Shares key other := by
    intro key other ⟨c', hc', hkey, hother⟩
    obtain ⟨f, hf, htrims⟩ := s.exists_records_detach id
    rw [hf] at hc'
    obtain ⟨c, hc, rfl⟩ := List.mem_map.1 hc'
    rw [provides_congr (htrims.descriptor c)] at hkey hother
    exact ⟨c, (List.mem_filter.1 hc).1, hkey, hother⟩
  intro key other
  constructor
  · intro hother
    have hleft := (hs.detach id).providers_ne_nil hother
    exact ⟨hleft, Or.inl (hs.aliasesOf_detach hleft ▸ hother)⟩
  · rintro ⟨hleft, hother⟩
    rw [hs.aliasesOf_detach hleft]
    exact hother.elim (fun hold => hold) fun ⟨hne, hnow⟩ => h key other hne (hshares hnow)

/-- **Every change** leaves groups their aliases, and puts into them what their members provide. -/
theorem Enlisted.apply (h : s.Enlisted) (hs : s.Catalogued) (change : Change) :
    s.Enlists (s.apply change) := by
  cases change with
  | insert new => exact inserted_induction (h.enlists hs) fun _ _ hnew => h.insert hs hnew
  | link parent child => exact (h.enlists hs).link parent child
  | detach id => exact h.detach hs id
  | settle =>
      obtain ⟨f, heq, hf⟩ := s.settleDepths_eq
      rw [Store.apply, heq]
      exact (h.enlists hs).map fun c _ key => provides_congr (by rw [hf]) key

/-- What is shared stays so after a link. -/
theorem Shares.link (h : s.Shares key other) (parent child : CandidateId) :
    (s.link parent child).Shares key other := by
  rcases s.link_cases parent child with heq | ⟨-, -, heq⟩ <;> rw [heq]
  · exact h
  · exact (shares_map (fun c _ key => provides_congr (by rw [tie_eq]) key) rfl).2 h

/-- What is shared stays so after a link to a container. -/
theorem Shares.linkParent (h : s.Shares key other) (parent? : Option CandidateId)
    (child : CandidateId) : (s.linkParent parent? child).Shares key other := by
  cases parent? with
  | none => exact h
  | some p => exact h.link p child

/-- What is shared stays so after an insert, which takes no key away. -/
theorem Catalogued.shares_insert (h : s.Catalogued) (hshares : s.Shares key other)
    {new : NewCandidate} {o : Outcome} (hnew : s.insert new = .ok (s', o)) : s'.Shares key other := by
  have hgain : ∀ {c : Candidate} {f : Candidate → Candidate} {keys : List String},
      s.copyOf? new.descriptor = some c → Gains s.records c.id keys f →
        (s.gain f c.id keys).Shares key other :=
    fun hcopy hgains =>
      (hgains.shares_iff (mem_ids.2 ⟨_, (copyOf?_spec hcopy).1, rfl⟩)).2 (Or.inl hshares)
  cases h.indexed.takes hnew with
  | numbered => exact (shares_add.2 (Or.inl hshares)).linkParent _ _
  | moved hcopy hgains hknown _ hmoves =>
      have hprovides := h.provides_moved hcopy hgains hknown hmoves
      exact ((shares_map hprovides rfl).2 (hgain hcopy hgains)).linkParent _ _
  | joined hcopy hgains => exact (hgain hcopy hgains).linkParent _ _
  | kept hcopy hgains => exact hgain hcopy hgains

/-- **What is shared stays shared** until a candidate is taken out. -/
theorem Catalogued.shares_apply (h : s.Catalogued) (hshares : s.Shares key other) {change : Change}
    (hstays : ∀ id, change ≠ .detach id) : (s.apply change).Shares key other := by
  cases change with
  | insert new =>
      exact inserted_induction (P := fun t => t.Shares key other) hshares fun _ _ hnew =>
        h.shares_insert hshares hnew
  | link parent child => exact hshares.link parent child
  | detach id => exact absurd rfl (hstays id)
  | settle =>
      obtain ⟨f, heq, hf⟩ := s.settleDepths_eq
      rw [Store.apply, heq]
      exact (shares_map (fun c _ key => provides_congr (by rw [hf]) key) rfl).2 hshares

/-! ### Histories -/

/-- **A member has provided both, and the group has had members ever since.** -/
def SharedSince (changes : List Change) (key other : String) : Prop :=
  ∃ before since, changes = before ++ since ∧ (after before).Shares key other ∧
    ∀ part, part <+: since → (after (before ++ part)).providers key ≠ []

/-- What is shared now has been shared since now. -/
theorem sharedSince_of_shares {changes : List Change} (h : (after changes).Shares key other) :
    SharedSince changes key other := by
  refine ⟨changes, [], (List.append_nil _).symm, h, fun part hpart => ?_⟩
  rw [List.prefix_nil.1 hpart, List.append_nil]
  exact (catalogued_after changes).indexed.providers_ne_nil h

/-- What has been shared since some time: there are members after the last change, and the keys were
shared before it or are now. -/
theorem sharedSince_concat {changes : List Change} {change : Change} :
    SharedSince (changes ++ [change]) key other ↔
      (after (changes ++ [change])).providers key ≠ [] ∧
        (SharedSince changes key other ∨ (after (changes ++ [change])).Shares key other) := by
  constructor
  · rintro ⟨before, since, heq, hshares, hheld⟩
    refine ⟨heq ▸ hheld since (List.prefix_refl since), ?_⟩
    rcases List.eq_nil_or_concat since with rfl | ⟨since, last, rfl⟩
    · rw [List.append_nil] at heq
      exact Or.inr (heq ▸ hshares)
    · rw [List.concat_eq_append, ← List.append_assoc] at heq
      obtain ⟨rfl, -⟩ := List.append_inj' heq rfl
      exact Or.inl ⟨before, since, rfl, hshares, fun part hpart =>
        hheld part (List.concat_eq_append ▸ hpart.trans (List.prefix_append since [last]))⟩
  · rintro ⟨hnow, ⟨before, since, rfl, hshares, hheld⟩ | hshares⟩
    · refine ⟨before, since ++ [change], List.append_assoc .., hshares, fun part hpart => ?_⟩
      rcases List.prefix_concat_iff.1 hpart with rfl | hpart
      · rwa [← List.append_assoc]
      · exact hheld part hpart
    · exact sharedSince_of_shares hshares

/-- **Aliases are what has been shared since the group came about.** -/
theorem mem_aliasesOf_after (changes : List Change) (key other : String) :
    other ∈ (after changes).aliasesOf key ↔ other ≠ key ∧ SharedSince changes key other := by
  induction changes using List.reverseRecOn generalizing key other with
  | nil =>
      refine ⟨fun h => absurd h List.not_mem_nil, ?_⟩
      rintro ⟨-, before, since, heq, ⟨c, hc, -⟩, -⟩
      rw [(List.append_eq_nil_iff.1 heq.symm).1] at hc
      exact absurd hc List.not_mem_nil
  | append_singleton changes change ih =>
      have hcat := catalogued_after changes
      have henlisted : (after changes).Enlisted := fun key other hne hshares =>
        (ih key other).2 ⟨hne, sharedSince_of_shares hshares⟩
      rw [sharedSince_concat, after_concat, henlisted.apply hcat change key other, ih]
      tauto

/-- What has been shared is shared still, where nothing was taken out. -/
theorem shares_of_sharedSince {changes : List Change} (hstays : ∀ id, .detach id ∉ changes)
    (h : SharedSince changes key other) : (after changes).Shares key other := by
  obtain ⟨before, since, rfl, hshares, -⟩ := h
  rw [after, List.foldl_append, ← after]
  refine (List.foldlRecOn since apply (motive := fun s => s.Catalogued ∧ s.Shares key other)
    ⟨catalogued_after before, hshares⟩ fun s ⟨hs, hshares⟩ change hin => ?_).2
  refine ⟨hs.apply change, hs.shares_apply hshares fun id heq => ?_⟩
  exact hstays id (List.mem_append_right before (heq ▸ hin))

/-- Who shares an identifier with a group is one of its members. -/
theorem Indexed.shares_iff (h : s.Indexed) {g : Group} (hg : g ∈ s.groups) :
    s.Shares g.identifier other ↔
      ∃ c ∈ s.records, c.id ∈ g.members ∧ c.provides other = true := by
  have hmember : ∀ c ∈ s.records, c.provides g.identifier = true ↔ c.id ∈ g.members := by
    intro c hc
    rw [← Group.membersOf_of_mem h.sorted hg, ← providers_eq, h.members]
    refine ⟨fun hp => ⟨c, hc, rfl, hp⟩, fun ⟨a, ha, hid, hp⟩ => ?_⟩
    rwa [← h.eq_of_id_eq ha hc hid]
  exact exists_congr fun c => and_congr_right fun hc => and_congr_left fun _ => hmember c hc

/-- **The aliases of a group are what its members have provided since it came about**: all that
they provide now, and what was provided beside its identifier by candidates that have been taken
out while others stayed.  Where nothing was taken out, they are what the members provide. -/
theorem aliases_shared_since (changes : List Change) : ∀ g ∈ (after changes).groups,
    (∀ other, other ∈ g.aliases ↔ other ≠ g.identifier ∧ SharedSince changes g.identifier other) ∧
    (∀ c ∈ (after changes).records, c.id ∈ g.members → ∀ other, other ≠ g.identifier →
      c.provides other = true → other ∈ g.aliases) ∧
    ((∀ id, .detach id ∉ changes) → ∀ other, other ∈ g.aliases ↔ other ≠ g.identifier ∧
      ∃ c ∈ (after changes).records, c.id ∈ g.members ∧ c.provides other = true) := by
  intro g hg
  have hindexed := (catalogued_after changes).indexed
  have haliases : ∀ other, other ∈ g.aliases ↔
      other ≠ g.identifier ∧ SharedSince changes g.identifier other := by
    intro other
    rw [← mem_aliasesOf_after, aliasesOf, Group.aliasesOf_of_mem hindexed.sorted hg]
  refine ⟨haliases, fun c hc hmember other hne hprovides => ?_, fun hstays other => ?_⟩
  · have hshares := (hindexed.shares_iff hg).2 ⟨c, hc, hmember, hprovides⟩
    exact (haliases other).2 ⟨hne, sharedSince_of_shares hshares⟩
  · rw [haliases, ← hindexed.shares_iff hg]
    exact and_congr_right fun _ => ⟨shares_of_sharedSince hstays, sharedSince_of_shares⟩

/-- Two mods provide an interface, and the first one is taken out. -/
def orphanedAlias : List Change :=
  [.take "alpha" ["api"] none, .take "beta" ["api"] none, .detach 0]

/-- The interface keeps the name of the mod that is gone, which no member provides. -/
theorem aliases_shared_since_orphanedAlias :
    ∃ g ∈ (after orphanedAlias).groups, g.identifier = "api" ∧ g.members = [1] ∧
      "alpha" ∈ g.aliases ∧ SharedSince orphanedAlias "api" "alpha" ∧
      (∀ c ∈ (after orphanedAlias).records, c.provides "alpha" = false) ∧
      ∃ g' ∈ (after (orphanedAlias.take 2)).groups, g'.identifier = "api" ∧
        ∀ other, other ∈ g'.aliases ↔ other ≠ "api" ∧
          ∃ c ∈ (after (orphanedAlias.take 2)).records, c.id ∈ g'.members ∧ c.provides other = true := by
  have hg : (⟨"api", [1], ["alpha", "beta"]⟩ : Group) ∈ (after orphanedAlias).groups := by
    decide +kernel
  have hg' : (⟨"api", [0, 1], ["alpha", "beta"]⟩ : Group) ∈ (after (orphanedAlias.take 2)).groups := by
    decide +kernel
  have hstays : ∀ id, Change.detach id ∉ orphanedAlias.take 2 := by
    simp [orphanedAlias, Change.take]
  have halpha : "alpha" ∈ ["alpha", "beta"] := List.mem_cons_self ..
  exact ⟨_, hg, rfl, rfl, halpha, (((aliases_shared_since orphanedAlias _ hg).1 "alpha").1 halpha).2,
    by decide +kernel, _, hg', rfl, (aliases_shared_since (orphanedAlias.take 2) _ hg').2.2 hstays⟩

end Store
end Loadout
