/-
# The index of a store

Groups stand in strictly ascending order, so a group that is made or changed is the only
one of its identifier (`Group.find?_update`).  Taking a candidate into the group of every
key that it provides therefore adds it where it belongs and nowhere else: a new one once for
each place of the key in the list (`Store.membersOf_indexNew`), one that may be there already
at most once (`Store.membersOf_indexAgain`).

The numbers of candidates are distinct and below the next one, and the index has a
candidate under an identifier exactly when the candidate provides it (`Store.Indexed`).
-/

import Loadout.Store.Insert
import Mathlib.Data.List.Nodup
import Mathlib.Data.List.Perm.Subperm
import Mathlib.Logic.Function.Iterate

namespace Loadout
namespace Group

/-! ### Ascending keys -/

/-- Keys in strictly ascending order. -/
def Ascending (keys : List String) : Prop := keys.Pairwise fun a b => compare a b = .lt

/-- Ascending keys are distinct. -/
theorem Ascending.nodup {l : List String} (h : Ascending l) : l.Nodup := by
  refine h.imp ?_
  rintro a _ hlt rfl
  rw [Std.ReflOrd.compare_self] at hlt
  exact absurd hlt (by decide)

/-- **Ascending keys are told by what is among them.** -/
theorem Ascending.eq_of_mem_iff {l l' : List String} (h : Ascending l) (h' : Ascending l')
    (hmem : ∀ x, x ∈ l ↔ x ∈ l') : l = l' := by
  have hperm : l.Perm l' := (List.perm_ext_iff_of_nodup h.nodup h'.nodup).2 hmem
  refine hperm.eq_of_pairwise (fun a b _ _ hab hba => ?_) h h'
  exact absurd hba (Std.OrientedCmp.not_lt_of_lt hab)

/-- Inserting a key adds it alone. -/
theorem mem_insertKey {x key : String} : ∀ {l : List String}, x ∈ insertKey key l ↔ x = key ∨ x ∈ l
  | [] => by simp [insertKey]
  | k :: rest => by
      rw [insertKey]
      split
      · exact List.mem_cons
      · rename_i heq
        obtain rfl : key = k := Std.LawfulEqOrd.eq_of_compare heq
        simp
      · rw [List.mem_cons, mem_insertKey, List.mem_cons, or_left_comm]

/-- A key that is put into its place keeps the order. -/
theorem Ascending.insertKey {key : String} : ∀ {l : List String}, Ascending l →
    Ascending (insertKey key l)
  | [], _ => List.pairwise_singleton _ _
  | k :: rest, h => by
      obtain ⟨hk, hrest⟩ := List.pairwise_cons.1 h
      rw [Group.insertKey]
      split
      · rename_i hlt
        refine List.pairwise_cons.2 ⟨fun x hx => ?_, h⟩
        rcases List.mem_cons.1 hx with rfl | hx
        · exact hlt
        · exact Std.TransCmp.lt_trans hlt (hk x hx)
      · exact h
      · rename_i hgt
        refine List.pairwise_cons.2 ⟨fun x hx => ?_, Ascending.insertKey hrest⟩
        rcases mem_insertKey.1 hx with rfl | hx
        · exact Std.OrientedCmp.lt_of_gt hgt
        · exact hk x hx

/-- **Keys that are put into place one after another** are all there. -/
theorem mem_foldl_insertKey {α : Type} {x : String} (key : α → String) : ∀ (as : List α)
    {l : List String}, x ∈ as.foldl (fun l a => Group.insertKey (key a) l) l ↔
      x ∈ l ∨ ∃ a ∈ as, key a = x
  | [], _ => by simp
  | a :: as, l => by
      rw [List.foldl_cons, mem_foldl_insertKey key as, mem_insertKey, List.exists_mem_cons_iff,
        or_assoc, or_left_comm, eq_comm (a := x)]

/-- Keys that are inserted one by one are ascending. -/
theorem Ascending.foldl_insertKey {α : Type} (key : α → String) (as : List α) {l : List String}
    (h : Ascending l) : Ascending (as.foldl (fun l a => Group.insertKey (key a) l) l) :=
  List.foldlRecOn as _ h fun _ h _ _ => Ascending.insertKey h

/-! ### One group of an identifier -/

/-- Groups in strictly ascending order. -/
def Sorted (gs : List Group) : Prop :=
  gs.Pairwise fun a b => compare a.identifier b.identifier = .lt

/-- There is one group of an identifier at most. -/
theorem Sorted.eq_of_identifier_eq {gs : List Group} (hs : Sorted gs) {a b : Group} (ha : a ∈ gs)
    (hb : b ∈ gs) (h : a.identifier = b.identifier) : a = b := by
  have hnodup : (gs.map (·.identifier)).Nodup := by
    refine List.pairwise_map.2 (hs.imp fun hlt he => ?_)
    rw [he, Std.ReflOrd.compare_self] at hlt
    exact absurd hlt (by decide)
  exact List.inj_on_of_nodup_map hnodup ha hb h

/-- The members of the group of an identifier. -/
def membersOf (gs : List Group) (key : String) : List CandidateId :=
  ((gs.find? (·.identifier = key)).map (·.members)).getD []

/-- Without a group there are no members. -/
theorem membersOf_eq_nil {gs : List Group} {key : String} (h : ∀ g ∈ gs, g.identifier ≠ key) :
    membersOf gs key = [] := by
  rw [membersOf, List.find?_eq_none.2 fun g hg => by simpa using h g hg]
  rfl

/-- A group is found under its identifier. -/
theorem Sorted.find?_eq {gs : List Group} (hs : Sorted gs) {g : Group} (hg : g ∈ gs) :
    gs.find? (·.identifier = g.identifier) = some g := by
  obtain ⟨g', hfind⟩ : ∃ g', gs.find? (·.identifier = g.identifier) = some g' :=
    Option.isSome_iff_exists.1 (List.find?_isSome.2 ⟨g, hg, decide_eq_true rfl⟩)
  have hidentifier : g'.identifier = g.identifier := by simpa using List.find?_some hfind
  rw [hfind, hs.eq_of_identifier_eq (List.mem_of_find?_eq_some hfind) hg hidentifier]

/-- The members under the identifier of a group are its own. -/
theorem membersOf_of_mem {gs : List Group} (hs : Sorted gs) {g : Group} (hg : g ∈ gs) :
    membersOf gs g.identifier = g.members := by
  rw [membersOf, hs.find?_eq hg]
  rfl

/-- A group keeps its identifier when it gets aliases. -/
@[simp] theorem addAliases_identifier (g : Group) (keys : List String) :
    (g.addAliases keys).identifier = g.identifier := rfl

/-- A group keeps its members when it gets aliases. -/
@[simp] theorem addAliases_members (g : Group) (keys : List String) :
    (g.addAliases keys).members = g.members := rfl

variable {f : Group → Group} {key : String} {gs : List Group}

/-- What is in the updated index has been changed or was there before. -/
theorem mem_update : ∀ {gs : List Group} {g : Group}, g ∈ update key f gs →
    (∃ g', g = f g') ∨ g ∈ gs
  | [], g, h => by
      rw [update, List.mem_singleton] at h
      exact Or.inl ⟨_, h⟩
  | a :: rest, g, h => by
      rw [update] at h
      split at h
      · exact (List.mem_cons.1 h).imp (fun h => ⟨_, h⟩) id
      · exact (List.mem_cons.1 h).imp (fun h => ⟨_, h⟩) (List.mem_cons_of_mem a)
      · rcases List.mem_cons.1 h with rfl | h
        · exact Or.inr (List.mem_cons_self ..)
        · exact (mem_update h).imp_right (List.mem_cons_of_mem a)

/-- Updating makes no groups but that of the key. -/
theorem identifier_of_mem_update (hf : ∀ g, (f g).identifier = g.identifier) :
    ∀ {gs : List Group} {g : Group}, g ∈ update key f gs →
      g.identifier = key ∨ ∃ g' ∈ gs, g'.identifier = g.identifier
  | [], g, h => by
      rw [update, List.mem_singleton] at h
      exact Or.inl (by rw [h, hf])
  | a :: rest, g, h => by
      rw [update] at h
      split at h
      · rcases List.mem_cons.1 h with rfl | h
        · exact Or.inl (hf _)
        · exact Or.inr ⟨g, h, rfl⟩
      · rcases List.mem_cons.1 h with rfl | h
        · exact Or.inr ⟨a, List.mem_cons_self .., (hf a).symm⟩
        · exact Or.inr ⟨g, List.mem_cons_of_mem _ h, rfl⟩
      · rcases List.mem_cons.1 h with rfl | h
        · exact Or.inr ⟨g, List.mem_cons_self .., rfl⟩
        · refine (identifier_of_mem_update hf h).imp_right ?_
          rintro ⟨g', hg', he⟩
          exact ⟨g', List.mem_cons_of_mem _ hg', he⟩

/-- **Changing or making a group keeps the order.** -/
theorem sorted_update (hf : ∀ g, (f g).identifier = g.identifier) :
    ∀ {gs : List Group}, Sorted gs → Sorted (update key f gs)
  | [], _ => List.pairwise_singleton _ _
  | a :: rest, hs => by
      obtain ⟨ha, hrest⟩ := List.pairwise_cons.1 hs
      rw [update]
      split
      · rename_i hlt
        refine List.pairwise_cons.2 ⟨fun g hg => ?_, hs⟩
        rw [hf]
        rcases List.mem_cons.1 hg with rfl | hg
        · exact hlt
        · exact Std.TransCmp.lt_trans hlt (ha g hg)
      · refine List.pairwise_cons.2 ⟨fun g hg => ?_, hrest⟩
        rw [hf]
        exact ha g hg
      · rename_i hgt
        refine List.pairwise_cons.2 ⟨fun g hg => ?_, sorted_update hf hrest⟩
        rcases identifier_of_mem_update hf hg with he | ⟨g', hg', he⟩
        · rw [he]
          exact Std.OrientedCmp.lt_of_gt hgt
        · exact he ▸ ha g' hg'

/-- There is no group of a key below all of them. -/
theorem find?_eq_none_of_lt (h : ∀ g ∈ gs, compare key g.identifier = .lt) :
    gs.find? (·.identifier = key) = none := by
  rw [List.find?_eq_none]
  intro g hg he
  have hlt := h g hg
  rw [of_decide_eq_true he, Std.ReflOrd.compare_self] at hlt
  exact absurd hlt (by decide)

/-- **There is one group of an identifier.**  A changed group is found under its
identifier, and all others are as they were. -/
theorem find?_update (hf : ∀ g, (f g).identifier = g.identifier) (key' : String) :
    ∀ {gs : List Group}, Sorted gs →
      (update key f gs).find? (·.identifier = key') =
        if key' = key then some (f ((gs.find? (·.identifier = key)).getD { identifier := key }))
        else gs.find? (·.identifier = key')
  | [], _ => by
      by_cases hk : key' = key
      · simp [update, hf, hk]
      · simp [update, hf, hk, Ne.symm hk]
  | a :: rest, hs => by
      obtain ⟨ha, hrest⟩ := List.pairwise_cons.1 hs
      rw [update]
      split
      · rename_i hlt
        have hnone : (a :: rest).find? (·.identifier = key) = none := by
          refine find?_eq_none_of_lt fun g hg => ?_
          rcases List.mem_cons.1 hg with rfl | hg
          · exact hlt
          · exact Std.TransCmp.lt_trans hlt (ha g hg)
        rw [List.find?_cons, hnone, hf]
        by_cases hk : key' = key
        · simp [hk]
        · simp [hk, Ne.symm hk]
      · rename_i heq
        obtain rfl : key = a.identifier := Std.LawfulEqOrd.eq_of_compare heq
        rw [List.find?_cons, hf]
        by_cases hk : key' = a.identifier
        · simp [hk]
        · simp [hk, Ne.symm hk]
      · rename_i hgt
        have hne : a.identifier ≠ key := by
          intro he
          rw [he, Std.ReflOrd.compare_self] at hgt
          exact absurd hgt (by decide)
        rw [List.find?_cons, find?_update hf key' hrest]
        by_cases ha' : a.identifier = key'
        · have hk : key' ≠ key := fun h => hne (ha'.trans h)
          simp [ha', hk]
        · by_cases hk : key' = key
          · simp [hk, hne]
          · simp [ha', hk]

/-- Updates under some keys keep groups sorted. -/
theorem sorted_foldl_update (hf : ∀ g, (f g).identifier = g.identifier) :
    ∀ (keys : List String) {gs : List Group}, Sorted gs →
      Sorted (keys.foldl (fun gs k => update k f gs) gs)
  | [], _, hs => hs
  | _ :: keys, _, hs => sorted_foldl_update hf keys (sorted_update hf hs)

section Members

variable {F : List CandidateId → List CandidateId}

/-- A group that is not there counts as one without members. -/
theorem membersOf_update (hf : ∀ g, (f g).identifier = g.identifier)
    (hm : ∀ g, (f g).members = F g.members) (hs : Sorted gs) (key' : String) :
    membersOf (update key f gs) key' = if key' = key then F (membersOf gs key) else membersOf gs key' := by
  rw [membersOf, find?_update hf key' hs]
  split
  · rw [membersOf, Option.map_some, Option.getD_some, hm]
    cases gs.find? (·.identifier = key) <;> rfl
  · rfl

/-- **Changing the groups of some identifiers** changes the members under each as often as it
is among them, and no others. -/
theorem membersOf_foldl_update (hf : ∀ g, (f g).identifier = g.identifier)
    (hm : ∀ g, (f g).members = F g.members) (key : String) :
    ∀ (keys : List String) {gs : List Group}, Sorted gs →
      membersOf (keys.foldl (fun gs k => update k f gs) gs) key =
        F^[keys.count key] (membersOf gs key)
  | [], _, _ => rfl
  | k :: keys, gs, hs => by
      rw [List.foldl_cons, membersOf_foldl_update hf hm key keys (sorted_update hf hs),
        membersOf_update hf hm hs, List.count_cons]
      by_cases hk : key = k
      · subst hk
        rw [if_pos rfl, if_pos (beq_self_eq_true key), Function.iterate_succ_apply]
      · rw [if_neg hk, if_neg (by simpa using Ne.symm hk), Nat.add_zero]

end Members

/-- Groups that are changed to have members all have, if all others had. -/
theorem members_ne_nil_foldl_update (hf : ∀ g, (f g).members ≠ []) :
    ∀ (keys : List String) {gs : List Group}, (∀ g ∈ gs, g.members ≠ []) →
      ∀ g ∈ keys.foldl (fun gs k => update k f gs) gs, g.members ≠ []
  | [], _, h => h
  | key :: keys, gs, h => by
      refine members_ne_nil_foldl_update hf keys fun g hg => ?_
      rcases mem_update hg with ⟨g', rfl⟩ | hg
      · exact hf g'
      · exact h g hg

end Group

namespace Store

/-- What is added once is in the list afterwards. -/
@[simp] theorem mem_addOnce {x y : CandidateId} {l : List CandidateId} :
    x ∈ addOnce y l ↔ x ∈ l ∨ x = y := by
  rw [addOnce]
  split
  · rename_i hy
    refine ⟨Or.inl, fun h => h.elim id ?_⟩
    rintro rfl
    simpa using hy
  · simp

/-- What is in the list is not added again. -/
theorem addOnce_of_mem {x : CandidateId} {l : List CandidateId} (h : x ∈ l) : addOnce x l = l :=
  if_pos (List.contains_iff_mem.2 h)

/-! ### Taking a candidate into the index -/

section Indexing

variable {groups : List Group} (id : CandidateId) (keys : List String)

/-- Taking a candidate in once more changes the members of a group as adding it once does. -/
theorem identifier_members_again (g : Group) :
    ((if g.members.contains id then g else g.addMember id).addAliases keys).identifier =
        g.identifier ∧
      ((if g.members.contains id then g else g.addMember id).addAliases keys).members =
        addOnce id g.members := by
  rw [Group.addAliases_identifier, Group.addAliases_members, addOnce]
  split <;> exact ⟨rfl, rfl⟩

/-- Groups stay sorted under a new member. -/
theorem sorted_indexNew (hs : Group.Sorted groups) : Group.Sorted (indexNew groups id keys) :=
  Group.sorted_foldl_update (f := fun g => (g.addMember id).addAliases keys) (fun _ => rfl) keys hs

/-- Groups stay sorted under a member that is taken in again. -/
theorem sorted_indexAgain (hs : Group.Sorted groups) : Group.Sorted (indexAgain groups id keys) :=
  Group.sorted_foldl_update (fun g => (identifier_members_again id keys g).1) keys hs

/-- **A new candidate** comes to the end of a group once for each place of the key. -/
theorem membersOf_indexNew (hs : Group.Sorted groups) (key : String) :
    Group.membersOf (indexNew groups id keys) key =
      Group.membersOf groups key ++ List.replicate (keys.count key) id := by
  rw [indexNew, Group.membersOf_foldl_update (F := (· ++ [id]))
    (f := fun g => (g.addMember id).addAliases keys) (fun _ => rfl) (fun _ => rfl) key keys hs]
  generalize keys.count key = n
  induction n with
  | zero => exact (List.append_nil _).symm
  | succ n ih => rw [Function.iterate_succ_apply', ih, List.append_assoc, ← List.replicate_succ']

/-- **A candidate that is known** comes to the end of a group unless it is there already. -/
theorem membersOf_indexAgain (hs : Group.Sorted groups) (key : String) :
    Group.membersOf (indexAgain groups id keys) key =
      if key ∈ keys then addOnce id (Group.membersOf groups key) else Group.membersOf groups key := by
  rw [indexAgain, Group.membersOf_foldl_update (F := addOnce id)
    (fun g => (identifier_members_again id keys g).1)
    (fun g => (identifier_members_again id keys g).2) key keys hs]
  split
  · rename_i hkey
    obtain ⟨n, hn⟩ := Nat.exists_eq_add_one.2 (List.count_pos_iff.2 hkey)
    -- once it is there, more rounds change nothing
    rw [hn, Function.iterate_succ_apply]
    exact Function.iterate_fixed (addOnce_of_mem (mem_addOnce.2 (Or.inr rfl))) n
  · rename_i hkey
    rw [List.count_eq_zero.2 hkey]
    rfl

/-- Taking a candidate in leaves no group without members. -/
theorem members_ne_nil_indexNew (h : ∀ g ∈ groups, g.members ≠ []) :
    ∀ g ∈ indexNew groups id keys, g.members ≠ [] :=
  Group.members_ne_nil_foldl_update (f := fun g => (g.addMember id).addAliases keys)
    (fun _ => List.append_ne_nil_of_right_ne_nil _ (List.cons_ne_nil _ _)) keys h

/-- No group is without members after that. -/
theorem members_ne_nil_indexAgain (h : ∀ g ∈ groups, g.members ≠ []) :
    ∀ g ∈ indexAgain groups id keys, g.members ≠ [] :=
  Group.members_ne_nil_foldl_update (fun g => by
    rw [(identifier_members_again id keys g).2]
    exact List.ne_nil_of_mem (mem_addOnce.2 (Or.inr rfl))) keys h

end Indexing

variable {s : Store}

/-- **The index has what candidates provide**, and nothing else. -/
structure Indexed (s : Store) : Prop where
  nodup : s.ids.Nodup
  fresh : ∀ c ∈ s.records, c.id < s.nextId
  sorted : Group.Sorted s.groups
  members : ∀ key id, id ∈ s.providers key ↔ ∃ c ∈ s.records, c.id = id ∧ c.provides key = true

/-- The providers of a key are the members of its group. -/
theorem providers_eq (s : Store) (key : String) : s.providers key = Group.membersOf s.groups key :=
  rfl

/-- What is listed under a key is in its group. -/
theorem exists_group_of_mem_providers {key : String} {id : CandidateId} (h : id ∈ s.providers key) :
    ∃ g ∈ s.groups, g.identifier = key := by
  by_contra hnone
  rw [providers_eq, Group.membersOf_eq_nil fun g hg hgk => hnone ⟨g, hg, hgk⟩] at h
  exact absurd h List.not_mem_nil

/-- The numbers of a store are those of its candidates. -/
theorem mem_ids {id : CandidateId} : id ∈ s.ids ↔ ∃ c ∈ s.records, c.id = id := List.mem_map

/-- Different numbers of candidates are no more than the candidates. -/
theorem length_le_size {ids : List CandidateId} (hnodup : ids.Nodup) (hsub : ids ⊆ s.ids) :
    ids.length ≤ s.size := by
  have hle := (hnodup.subperm hsub).length_le
  rwa [Store.ids, List.length_map] at hle

/-- Candidates are told apart by their numbers. -/
theorem eq_of_id_eq (hids : s.ids.Nodup) {a b : Candidate} (ha : a ∈ s.records)
    (hb : b ∈ s.records) (hab : a.id = b.id) : a = b := List.inj_on_of_nodup_map hids ha hb hab

/-- Candidates of an exact index have different numbers. -/
theorem Indexed.eq_of_id_eq (h : s.Indexed) {a b : Candidate} (ha : a ∈ s.records)
    (hb : b ∈ s.records) (hab : a.id = b.id) : a = b := Store.eq_of_id_eq h.nodup ha hb hab

/-- What is looked up is a candidate of that number. -/
theorem mem_of_get? {id : CandidateId} {c : Candidate} (h : s.get? id = some c) :
    c ∈ s.records ∧ c.id = id :=
  ⟨List.mem_of_find?_eq_some h, by simpa using List.find?_some h⟩

/-- The candidate of a number is the one that has it, where no two have the same. -/
theorem get?_eq_some_iff (hids : s.ids.Nodup) {id : CandidateId} {c : Candidate} :
    s.get? id = some c ↔ c ∈ s.records ∧ c.id = id := by
  refine ⟨mem_of_get?, fun ⟨hc, hid⟩ => ?_⟩
  cases hget : s.get? id with
  | none =>
      have := List.find?_eq_none.1 hget c hc
      exact absurd hid (by simpa using this)
  | some a =>
      obtain ⟨ha, hai⟩ := mem_of_get? hget
      rw [eq_of_id_eq hids ha hc (hai.trans hid.symm)]

/-- The candidate of a number is the one that has it. -/
theorem Indexed.get?_eq_some_iff (h : s.Indexed) {id : CandidateId} {c : Candidate} :
    s.get? id = some c ↔ c ∈ s.records ∧ c.id = id := Store.get?_eq_some_iff h.nodup

/-- A store contains the numbers of its candidates. -/
theorem contains_iff {id : CandidateId} : s.contains id = true ↔ id ∈ s.ids := by
  rw [contains, get?, List.find?_isSome, mem_ids]
  simp

/-- Candidates that are looked up together are those of the numbers. -/
theorem mem_getAll {ids : List CandidateId} {c : Candidate} (h : c ∈ s.getAll ids) :
    c ∈ s.records ∧ c.id ∈ ids := by
  obtain ⟨id, hid, hget⟩ := List.mem_filterMap.1 h
  obtain ⟨hc, rfl⟩ := mem_of_get? hget
  exact ⟨hc, hid⟩

/-- With distinct numbers every one of them is found. -/
theorem mem_getAll_iff (hnodup : s.ids.Nodup) {ids : List CandidateId} {c : Candidate} :
    c ∈ s.getAll ids ↔ c ∈ s.records ∧ c.id ∈ ids := by
  refine ⟨mem_getAll, fun ⟨hc, hid⟩ => ?_⟩
  exact List.mem_filterMap.2 ⟨c.id, hid, (get?_eq_some_iff hnodup).2 ⟨hc, rfl⟩⟩

/-- An exact index finds every candidate of some numbers. -/
theorem Indexed.mem_getAll_iff (h : s.Indexed) {ids : List CandidateId} {c : Candidate} :
    c ∈ s.getAll ids ↔ c ∈ s.records ∧ c.id ∈ ids := Store.mem_getAll_iff h.nodup

/-- A number of a candidate has one. -/
theorem exists_get?_eq_some {id : CandidateId} (h : id ∈ s.ids) :
    ∃ c ∈ s.records, c.id = id ∧ s.get? id = some c := by
  obtain ⟨c, hc⟩ := Option.isSome_iff_exists.1 (contains_iff.2 h)
  obtain ⟨hin, hid⟩ := mem_of_get? hc
  exact ⟨c, hin, hid, hc⟩

/-- Numbers of candidates are those of the candidates that are found under them. -/
theorem map_id_getAll (s : Store) :
    ∀ {ids : List CandidateId}, (∀ id ∈ ids, id ∈ s.ids) → (s.getAll ids).map (·.id) = ids
  | [], _ => rfl
  | id :: ids, hids => by
      have ih := s.map_id_getAll fun x hx => hids x (List.mem_cons_of_mem _ hx)
      obtain ⟨c, -, hcid, hget⟩ := exists_get?_eq_some (hids id (List.mem_cons_self ..))
      rw [getAll] at ih ⊢
      rw [List.filterMap_cons, hget]
      simp only [List.map_cons, ih, hcid]

/-- What provides the target of a dependency in an admitted version. -/
theorem Indexed.mem_matching_iff (h : s.Indexed) {d : Dependency} {id : CandidateId} :
    id ∈ s.matching d ↔
      ∃ c ∈ s.records, c.id = id ∧ c.provides d.target = true ∧ d.admits c.version = true := by
  rw [matching, List.mem_filter, h.members]
  constructor
  · rintro ⟨⟨c, hc, hid, hp⟩, hany⟩
    rw [h.get?_eq_some_iff.2 ⟨hc, hid⟩] at hany
    exact ⟨c, hc, hid, hp, by simpa using hany⟩
  · rintro ⟨c, hc, hid, hp, hv⟩
    refine ⟨⟨c, hc, hid, hp⟩, ?_⟩
    rw [h.get?_eq_some_iff.2 ⟨hc, hid⟩]
    simpa using hv

/-- A change of candidates that leaves alone what they provide keeps the index. -/
theorem Indexed.map (h : s.Indexed) {f : Candidate → Candidate}
    (hid : ∀ c ∈ s.records, (f c).id = c.id)
    (hkeys : ∀ c ∈ s.records, ∀ key, (f c).provides key = c.provides key) :
    Indexed { s with records := s.records.map f } where
  nodup := by
    have hids : (s.records.map f).map (·.id) = s.ids := by
      rw [List.map_map]
      exact List.map_congr_left hid
    exact (congrArg List.Nodup hids).mpr h.nodup
  fresh := by
    intro c hc
    obtain ⟨a, ha, rfl⟩ := List.mem_map.1 hc
    rw [hid a ha]
    exact h.fresh a ha
  sorted := h.sorted
  members := fun key id => by
    refine (h.members key id).trans ⟨?_, ?_⟩
    · rintro ⟨c, hc, rfl, hp⟩
      exact ⟨f c, List.mem_map_of_mem hc, hid c hc, by rw [hkeys c hc, hp]⟩
    · rintro ⟨c, hc, rfl, hp⟩
      obtain ⟨a, ha, rfl⟩ := List.mem_map.1 hc
      exact ⟨a, ha, (hid a ha).symm, by rw [← hkeys a ha, hp]⟩

end Store
end Loadout
