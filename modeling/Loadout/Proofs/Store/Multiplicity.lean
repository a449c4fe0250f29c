/-
# How often a group lists a candidate

A candidate comes into the groups of its keys when it gets its number, once for each place that
a key has in its descriptor.  Later copies bring it into groups that it is not in, once each.  So
how often a group lists a candidate is told by the descriptor that it came in with
(`Store.count_providers`), and a group lists one twice where that descriptor repeats a key, be
it an alias that is given twice or one that is the identifier (`Store.nodup_groups_iff`).
-/

import Loadout.Proofs.Store.Change
import Mathlib.Data.List.Induction

namespace Loadout

/-- All that a candidate is to provide: its identifier, then its aliases. -/
def NewCandidate.keys (new : NewCandidate) : List String :=
  new.descriptor.id :: new.descriptor.provides

namespace Store

variable {s : Store} {entry : CandidateId → List String}

/-- **Groups list a candidate as often as it came in**: once for each key that it provides, but
as often as the key was in the list of keys of its first descriptor. -/
structure Tallied (s : Store) (entry : CandidateId → List String) : Prop where
  provided : ∀ c ∈ s.records, ∀ key ∈ entry c.id, c.provides key = true
  count : ∀ c ∈ s.records, ∀ key, (s.providers key).count c.id =
    if c.provides key then max 1 ((entry c.id).count key) else 0

/-! ### One step -/

/-- Changes that keep numbers and keys keep the tally. -/
theorem Tallied.map (h : s.Tallied entry) {f : Candidate → Candidate} (hid : ∀ c, (f c).id = c.id)
    (hkeys : ∀ c ∈ s.records, ∀ key, (f c).provides key = c.provides key) :
    Tallied { s with records := s.records.map f } entry where
  provided := by
    intro c' hc' key hkey
    obtain ⟨c, hc, rfl⟩ := List.mem_map.1 hc'
    rw [hid] at hkey
    rw [hkeys c hc]
    exact h.provided c hc key hkey
  count := by
    intro c' hc' key
    obtain ⟨c, hc, rfl⟩ := List.mem_map.1 hc'
    rw [hid, hkeys c hc]
    exact h.count c hc key

/-- A link keeps the tally. -/
theorem Tallied.link (h : s.Tallied entry) (parent child : CandidateId) :
    (s.link parent child).Tallied entry := by
  rcases s.link_cases parent child with heq | ⟨-, -, heq⟩
  · rwa [heq]
  · rw [heq]
    exact h.map (fun c => by rw [tie_eq]) fun c _ key => provides_congr (by rw [tie_eq]) key

/-- A link to a container keeps the tally. -/
theorem Tallied.linkParent (h : s.Tallied entry) (parent? : Option CandidateId)
    (child : CandidateId) : (s.linkParent parent? child).Tallied entry := by
  cases parent? with
  | none => exact h
  | some p => exact h.link p child

/-- **A new candidate** is listed once for each place of a key. -/
theorem Tallied.add (h : s.Tallied entry) (hindexed : s.Indexed) {c : Candidate}
    (hid : c.id = s.nextId) : (s.add c).Tallied (Function.update entry c.id c.keys) := by
  have hcount : ∀ key x, ((s.add c).providers key).count x =
      (s.providers key).count x + if x = c.id then c.keys.count key else 0 := by
    intro key x
    rw [providers_eq, providers_eq, Store.add, membersOf_indexNew c.id c.keys hindexed.sorted,
      List.count_append, List.count_replicate]
    simp only [beq_iff_eq, eq_comm (a := x)]
  have hold : ∀ a ∈ s.records, a.id ≠ c.id := fun a ha => hid ▸ Nat.ne_of_lt (hindexed.fresh a ha)
  refine ⟨fun a ha key hkey => ?_, fun a ha key => ?_⟩
  all_goals rcases List.mem_append.1 ha with ha | ha
  · rw [Function.update_of_ne (hold a ha)] at hkey
    exact h.provided a ha key hkey
  · rw [List.mem_singleton.1 ha, Function.update_self] at hkey
    rw [List.mem_singleton.1 ha]
    exact provides_iff_mem.2 hkey
  · rw [hcount, if_neg (hold a ha), Function.update_of_ne (hold a ha), Nat.add_zero]
    exact h.count a ha key
  · have hnew : (s.providers key).count c.id = 0 := by
      rw [List.count_eq_zero, hindexed.members]
      rintro ⟨b, hb, hbc, -⟩
      exact hold b hb hbc
    rw [List.mem_singleton.1 ha, hcount, if_pos rfl, Function.update_self, hnew, Nat.zero_add]
    split
    · rename_i hp
      have := List.count_pos_iff.2 (provides_iff_mem.1 hp)
      omega
    · rename_i hp
      exact List.count_eq_zero.2 fun hkey => hp (provides_iff_mem.2 hkey)

/-- What is added once comes up no more often than before, but once at least. -/
theorem count_addOnce (x y : CandidateId) (l : List CandidateId) :
    (addOnce y l).count x = if x = y then max 1 (l.count x) else l.count x := by
  rw [addOnce]
  split
  · rename_i hy
    have hpos := List.count_pos_iff.2 (List.contains_iff_mem.1 hy)
    split
    · rename_i hxy
      rw [hxy]
      omega
    · rfl
  · rename_i hy
    have hzero := List.count_eq_zero.2 fun hin => hy (List.contains_iff_mem.2 hin)
    rw [List.count_append, List.count_singleton]
    by_cases hxy : x = y
    · rw [if_pos hxy, hxy, hzero, if_pos (beq_self_eq_true y)]
      rfl
    · rw [if_neg hxy, if_neg (by simpa using Ne.symm hxy), Nat.add_zero]

/-- **More aliases** bring a candidate once into groups that it is not in. -/
theorem Tallied.gain (h : s.Tallied entry) (hindexed : s.Indexed) {id : CandidateId}
    {keys : List String} {f : Candidate → Candidate} (hf : Gains s.records id keys f) :
    (s.gain f id keys).Tallied entry := by
  refine ⟨fun c' hc' key hkey => ?_, fun c' hc' key => ?_⟩
  all_goals obtain ⟨c, hc, rfl⟩ := List.mem_map.1 hc'
  · rw [hf.id] at hkey
    exact (hf.provides c hc key).2 (Or.inl (h.provided c hc key hkey))
  have hcount := h.count c hc key
  have hprovides := hf.provides c hc key
  have hfirst : c.provides key = false → (entry c.id).count key = 0 := fun hp =>
    List.count_eq_zero.2 fun hkey => by
      rw [h.provided c hc key hkey] at hp
      exact absurd hp.symm Bool.false_ne_true
  have hlisted : ((s.gain f id keys).providers key).count c.id =
      if c.id = id ∧ key ∈ keys then max 1 ((s.providers key).count c.id)
      else (s.providers key).count c.id := by
    rw [providers_eq, Store.gain, membersOf_indexAgain id keys hindexed.sorted, ← providers_eq]
    by_cases hkey : key ∈ keys
    · rw [if_pos hkey, count_addOnce]
      simp only [hkey, and_true]
    · simp only [hkey, if_false, and_false]
  rw [hf.id, hlisted, hcount]
  by_cases hnew : c.id = id ∧ key ∈ keys
  · rw [if_pos hnew, if_pos (hprovides.2 (Or.inr hnew))]
    cases hp : c.provides key with
    | true =>
        rw [if_pos rfl]
        omega
    | false => simp [hfirst hp]
  · simp only [hnew, or_false] at hprovides
    rw [if_neg hnew]
    simp only [hprovides]

/-- **Taking a candidate in**: a new one is listed as often as its descriptor says, and all others
are listed as they were. -/
theorem Tallied.insert (h : s.Tallied entry) (hindexed : s.Indexed) {new : NewCandidate} {s' : Store}
    {o : Outcome} (hs : s.insert new = .ok (s', o)) :
    s'.Tallied (if o.isInserted then Function.update entry o.id new.keys else entry) := by
  cases hindexed.takes hs with
  | numbered _ => exact (h.add hindexed (c := s.numbered new) rfl).linkParent _ _
  | @moved c f g keys hcopy hgains hknown _ hmoves =>
      obtain ⟨hc, hidentifier, -⟩ := copyOf?_spec hcopy
      have hindexed' := hindexed.gain (mem_ids.2 ⟨c, hc, rfl⟩) hgains
      refine ((h.gain hindexed hgains).map hmoves.id fun a ha key => ?_).linkParent _ _
      exact hindexed'.provides_move (List.mem_map_of_mem hc) (hgains.id c) hmoves
        (hidentifier.trans (hgains.identifier c).symm) hknown ha key
  | joined _ hgains _ => exact (h.gain hindexed hgains).linkParent _ _
  | kept _ hgains => exact h.gain hindexed hgains

/-- Candidates that stay are listed as they were. -/
theorem Tallied.detach (h : s.Tallied entry) (hindexed : s.Indexed) (id : CandidateId) :
    (s.detach id).Tallied entry := by
  obtain ⟨f, hf, htrims⟩ := s.exists_records_detach id
  have hmem : ∀ m ∈ (s.detach id).records, ∃ c ∈ s.records, c.id ≠ id ∧ f c = m := by
    intro m hm
    rw [hf] at hm
    simpa [and_assoc] using hm
  refine ⟨fun m hm key hkey => ?_, fun m hm key => ?_⟩
  all_goals obtain ⟨c, hc, hne, rfl⟩ := hmem m hm
  all_goals rw [provides_congr (htrims.descriptor c)]
  · exact h.provided c hc key (htrims.id c ▸ hkey)
  · rw [htrims.id, hindexed.providers_detach, List.count_filter (by simpa using hne)]
    exact h.count c hc key

/-- Computing depths anew keeps the tally. -/
theorem Tallied.settleDepths (h : s.Tallied entry) : s.settleDepths.Tallied entry := by
  obtain ⟨f, heq, hf⟩ := s.settleDepths_eq
  rw [heq]
  exact h.map (fun c => by rw [hf]) fun c _ key => provides_congr (by rw [hf]) key

/-! ### Histories -/

/-- **What a candidate came in with**: the insert that gave it its number. -/
def CameInAs (changes : List Change) (id : CandidateId) (new : NewCandidate) : Prop :=
  ∃ before rest s', changes = before ++ .insert new :: rest ∧
    (after before).insert new = .ok (s', .inserted id)

/-- The last change comes after the others. -/
theorem after_concat (changes : List Change) (change : Change) :
    after (changes ++ [change]) = (after changes).apply change := List.foldl_concat ..

/-- Who came in came in before the last change, or with it. -/
theorem cameInAs_concat {changes : List Change} {change : Change} {id : CandidateId}
    {new : NewCandidate} : CameInAs (changes ++ [change]) id new ↔ CameInAs changes id new ∨
      (change = .insert new ∧ ∃ s', (after changes).insert new = .ok (s', .inserted id)) := by
  constructor
  · rintro ⟨before, rest, s', heq, hs⟩
    rcases List.eq_nil_or_concat rest with rfl | ⟨rest, last, rfl⟩
    · obtain ⟨rfl, hlast⟩ := List.append_inj' heq rfl
      exact Or.inr ⟨(List.cons.inj hlast).1, s', hs⟩
    · rw [List.concat_eq_append, ← List.cons_append, ← List.append_assoc] at heq
      obtain ⟨heq, -⟩ := List.append_inj' heq rfl
      exact Or.inl ⟨before, rest, s', heq, hs⟩
  · rintro (⟨before, rest, s', rfl, hs⟩ | ⟨rfl, s', hs⟩)
    · exact ⟨before, rest ++ [change], s', by simp, hs⟩
    · exact ⟨changes, [], s', rfl, hs⟩

/-- A new candidate takes the next number, and no other outcome takes one. -/
theorem Indexed.nextId_insert (hindexed : s.Indexed) {new : NewCandidate} {s' : Store} {o : Outcome}
    (hs : s.insert new = .ok (s', o)) :
    (o = .inserted s.nextId ∧ s'.nextId = s.nextId + 1) ∨
      (o.isInserted = false ∧ s'.nextId = s.nextId) := by
  have hlink : ∀ (t : Store) parent? child, (t.linkParent parent? child).nextId = t.nextId := by
    intro t parent? child
    rcases t.linkParent_cases parent? child with heq | ⟨_, _, _, _, heq⟩ <;> rw [heq]
  cases hindexed.takes hs with
  | numbered _ => exact Or.inl ⟨rfl, hlink _ _ _⟩
  | moved _ _ _ _ _ => exact Or.inr ⟨rfl, hlink _ _ _⟩
  | joined _ _ _ => exact Or.inr ⟨rfl, hlink _ _ _⟩
  | kept _ _ => exact Or.inr ⟨rfl, rfl⟩

/-- **An account of a history**: the numbers that are taken, and what each came in with. -/
structure Accounted (changes : List Change) (entry : CandidateId → List String) : Prop where
  tallied : (after changes).Tallied entry
  entered : ∀ id new, CameInAs changes id new → entry id = new.keys ∧ id < (after changes).nextId
  taken : ∀ id, id < (after changes).nextId → ∃ new, CameInAs changes id new

/-- A change that takes no number leaves the account as it is. -/
theorem Accounted.concat {changes : List Change} (h : Accounted changes entry) {change : Change}
    (htallied : ((after changes).apply change).Tallied entry)
    (hnext : ((after changes).apply change).nextId = (after changes).nextId)
    (hnone : ∀ new s' id, change = .insert new → (after changes).insert new ≠ .ok (s', .inserted id)) :
    Accounted (changes ++ [change]) entry := by
  have hsame : ∀ id new, CameInAs (changes ++ [change]) id new ↔ CameInAs changes id new := by
    intro id new
    rw [cameInAs_concat]
    exact or_iff_left fun ⟨hc, s', hs⟩ => hnone new s' id hc hs
  refine ⟨by rwa [after_concat], fun id new => ?_, fun id hid => ?_⟩
  · rw [hsame, after_concat, hnext]
    exact h.entered id new
  · rw [after_concat, hnext] at hid
    exact (h.taken id hid).imp fun new => (hsame id new).2

/-- A new candidate is entered with its keys. -/
theorem Accounted.number {changes : List Change} (h : Accounted changes entry) {new : NewCandidate}
    {s' : Store} (hs : (after changes).insert new = .ok (s', .inserted (after changes).nextId))
    (hnext : s'.nextId = (after changes).nextId + 1)
    (htallied : s'.Tallied (Function.update entry (after changes).nextId new.keys)) :
    Accounted (changes ++ [.insert new])
      (Function.update entry (after changes).nextId new.keys) := by
  have hafter : after (changes ++ [.insert new]) = s' := by rw [after_concat, apply, inserted, hs]
  refine ⟨hafter ▸ htallied, fun id n hn => ?_, fun id hid => ?_⟩
  · rw [hafter, hnext]
    rcases cameInAs_concat.1 hn with hn | ⟨hnew, t, ht⟩
    · obtain ⟨hentry, hlt⟩ := h.entered id n hn
      exact ⟨by rw [Function.update_of_ne (Nat.ne_of_lt hlt), hentry], Nat.lt_succ_of_lt hlt⟩
    · obtain rfl := Change.insert.inj hnew
      obtain ⟨-, hid⟩ := Prod.mk.inj (Except.ok.inj (hs.symm.trans ht))
      rw [← Outcome.inserted.inj hid, Function.update_self]
      exact ⟨rfl, Nat.lt_succ_self _⟩
  · rw [hafter, hnext] at hid
    rcases Nat.lt_succ_iff_lt_or_eq.1 hid with hlt | rfl
    · exact (h.taken id hlt).imp fun n hn => cameInAs_concat.2 (Or.inl hn)
    · exact ⟨new, cameInAs_concat.2 (Or.inr ⟨rfl, s', hs⟩)⟩

/-- An insert takes the next number, or none. -/
theorem Accounted.insert {changes : List Change} (h : Accounted changes entry) (new : NewCandidate) :
    ∃ entry', Accounted (changes ++ [.insert new]) entry' := by
  cases hnew : (after changes).insert new with
  | error e =>
      have hsame : (after changes).apply (.insert new) = after changes := by
        rw [apply, inserted, hnew]
      refine ⟨entry, h.concat (by rw [hsame]; exact h.tallied) (by rw [hsame]) ?_⟩
      rintro n s' id hn hs
      obtain rfl := Change.insert.inj hn
      rw [hnew] at hs
      exact absurd hs (by simp)
  | ok r =>
      obtain ⟨s', o⟩ := r
      have hindexed := (catalogued_after changes).indexed
      have hafter : (after changes).apply (.insert new) = s' := by rw [apply, inserted, hnew]
      have htallied := h.tallied.insert hindexed hnew
      rcases hindexed.nextId_insert hnew with ⟨rfl, hnext⟩ | ⟨ho, hnext⟩
      · exact ⟨_, h.number hnew hnext htallied⟩
      · rw [ho] at htallied
        refine ⟨entry, h.concat (hafter ▸ htallied) (hafter ▸ hnext) ?_⟩
        rintro n t id hn hs
        obtain rfl := Change.insert.inj hn
        obtain ⟨-, rfl⟩ := Prod.mk.inj (Except.ok.inj (hnew.symm.trans hs))
        exact absurd ho (by simp [Outcome.isInserted])

/-- **Every history has an account.** -/
theorem exists_accounted (changes : List Change) : ∃ entry, Accounted changes entry := by
  induction changes using List.reverseRecOn with
  | nil =>
      refine ⟨fun _ => [], ⟨fun c hc => absurd hc List.not_mem_nil, fun c hc => absurd hc
        List.not_mem_nil⟩, fun id new h => ?_, fun id hid => absurd hid (Nat.not_lt_zero id)⟩
      obtain ⟨before, rest, _, heq, _⟩ := h
      exact absurd heq (by simp)
  | append_singleton changes change ih =>
      obtain ⟨entry, h⟩ := ih
      cases change with
      | insert new => exact h.insert new
      | link parent child =>
          refine ⟨entry, h.concat (h.tallied.link parent child) ?_ fun _ _ _ hc => by simp at hc⟩
          rcases (after changes).link_cases parent child with heq | ⟨_, _, heq⟩ <;>
            rw [apply, heq]
      | detach id =>
          have hindexed := (catalogued_after changes).indexed
          exact ⟨entry, h.concat (h.tallied.detach hindexed id) (nextId_detach _ _) fun _ _ _ hc => by
            simp at hc⟩
      | settle => exact ⟨entry, h.concat h.tallied.settleDepths rfl fun _ _ _ hc => by simp at hc⟩

/-- **How often a group lists a candidate.**  Every candidate came in with some descriptor, and the
group of a key that it provides lists it as often as this descriptor has the key, but at least
once. -/
theorem count_providers (changes : List Change) {c : Candidate} (hc : c ∈ (after changes).records) :
    (∃ new, CameInAs changes c.id new) ∧ ∀ new, CameInAs changes c.id new →
      (∀ key ∈ new.keys, c.provides key = true) ∧ ∀ key, ((after changes).providers key).count c.id =
        if c.provides key then max 1 (new.keys.count key) else 0 := by
  obtain ⟨entry, h⟩ := exists_accounted changes
  refine ⟨h.taken c.id ((catalogued_after changes).indexed.fresh c hc), fun new hnew => ?_⟩
  rw [← (h.entered c.id new hnew).1]
  exact ⟨h.tallied.provided c hc, h.tallied.count c hc⟩

/-- **A group lists a candidate twice where its first descriptor repeats a key**, and only
there. -/
theorem nodup_groups_iff (changes : List Change) :
    (∀ g ∈ (after changes).groups, g.members.Nodup) ↔
      ∀ c ∈ (after changes).records, ∀ new, CameInAs changes c.id new → new.keys.Nodup := by
  have hindexed := (catalogued_after changes).indexed
  have hmembers : ∀ g ∈ (after changes).groups, (after changes).providers g.identifier = g.members :=
    fun g hg => Group.membersOf_of_mem hindexed.sorted hg
  constructor
  · intro hnodup c hc new hnew
    obtain ⟨hprovided, hcount⟩ := (count_providers changes hc).2 new hnew
    refine List.nodup_iff_count_le_one.2 fun key => ?_
    by_cases hkey : key ∈ new.keys
    · have hp := hprovided key hkey
      have hin := (hindexed.members key c.id).2 ⟨c, hc, rfl, hp⟩
      obtain ⟨g, hg, rfl⟩ := exists_group_of_mem_providers hin
      have hone := List.nodup_iff_count_le_one.1 (hnodup g hg) c.id
      rw [← hmembers g hg, hcount, if_pos hp] at hone
      omega
    · rw [List.count_eq_zero.2 hkey]
      exact Nat.zero_le 1
  · intro hkeys g hg
    refine List.nodup_iff_count_le_one.2 fun id => ?_
    by_cases hin : id ∈ g.members
    · rw [← hmembers g hg] at hin ⊢
      obtain ⟨c, hc, rfl, hp⟩ := (hindexed.members g.identifier id).1 hin
      obtain ⟨⟨new, hnew⟩, hcount⟩ := count_providers changes hc
      have hone := List.nodup_iff_count_le_one.1 (hkeys c hc new hnew) g.identifier
      rw [(hcount new hnew).2, if_pos hp]
      omega
    · rw [List.count_eq_zero.2 hin]
      exact Nat.zero_le 1

end Store
end Loadout
