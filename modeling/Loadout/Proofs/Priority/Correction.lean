/-
# The order of preference corrects the order of keys

Keys are made along containers, which may be missing or contain each other.  A candidate that is
reached from itself is left out, so a chain of containers is no longer than there are candidates,
and the fuel for chains never runs out (`Priority.keyOf_fuel`).

From the order of keys to that of preference each candidate is taken once, in the order of keys, and
may be put ahead of some that came before it.  It goes ahead of those it overtakes, and by no more
places than the limit; being passed afterwards only brings it further back (`Priority.NotFarAhead`).
So two candidates stand the other way round than their keys do only where one is older and goes by
another identifier, and none is ahead of its place by more than the limit
(`Store.preference_corrects_keys`).  Among candidates of one identifier the order of keys remains:
roots, then nested ones, each from the latest version.
-/

import Loadout.Proofs.Priority.Rise

namespace Loadout
namespace Priority

variable {s : Store} {ranks : List String} {c : Candidate}

/-! ### Fuel -/

/-- **A chain of containers ends** before the fuel does: each of its candidates is there once. -/
theorem keyOf_fuel (extra : Nat) : ∀ (fuel : Nat) (inside : List CandidateId) (id : CandidateId)
    (known : KnownKeys), inside.Nodup → inside ⊆ s.ids → s.size < fuel + inside.length →
    keyOf s ranks (fuel + extra) inside id known = keyOf s ranks fuel inside id known
  | 0, inside, _, _, hnodup, hsub, hfuel => by
      have hlength := Store.length_le_size hnodup hsub
      omega
  | fuel + 1, inside, id, known, hnodup, hsub, hfuel => by
      rw [Nat.add_right_comm, keyOf, keyOf]
      cases hlookup : known.lookup id with
      | some key => rfl
      | none =>
          cases hget : s.get? id with
          | none => rfl
          | some c =>
              by_cases hinside : inside.contains id = true
              · simp only [if_pos hinside]
              · have hnew : (id :: inside).Nodup :=
                  List.nodup_cons.2 ⟨fun hin => hinside (List.contains_iff_mem.2 hin), hnodup⟩
                have hids : id :: inside ⊆ s.ids :=
                  List.cons_subset.2 ⟨Store.contains_iff.1 (by rw [Store.contains, hget]; rfl), hsub⟩
                have hparent := fun p known => keyOf_fuel extra fuel (id :: inside) p known hnew hids
                  (by rw [List.length_cons]; omega)
                simp only [if_neg hinside, hparent]

/-- Every block that is passed has a member. -/
theorem rise_fuel : ∀ {fuel fuel' risen : Nat} {before : List Candidate}, before.length ≤ fuel →
    before.length ≤ fuel' → rise c fuel risen before = rise c fuel' risen before
  | 0, fuel', _, before, h, _ => by
      obtain rfl := List.length_eq_zero_iff.1 (Nat.le_zero.1 h)
      cases fuel' <;> rfl
  | fuel + 1, 0, _, before, _, h => by
      obtain rfl := List.length_eq_zero_iff.1 (Nat.le_zero.1 h)
      rfl
  | fuel + 1, fuel' + 1, risen, [], _, _ => rfl
  | fuel + 1, fuel' + 1, risen, p :: rest, h, h' => by
      have hdrop : ∀ n, ((p :: rest).drop (n + 1)).length ≤ fuel ∧
          ((p :: rest).drop (n + 1)).length ≤ fuel' := fun n => by
        rw [List.drop_succ_cons, List.length_drop]
        rw [List.length_cons] at h h'
        omega
      rw [rise, rise]
      simp only [List.length_cons, rise_fuel (hdrop _).1 (hdrop _).2]

/-! ### How far candidates rise -/

/-- No candidate rises by more than the limit. -/
theorem rise_le_riseLimit : ∀ {fuel risen : Nat} {before : List Candidate}, risen ≤ riseLimit →
    rise c fuel risen before ≤ riseLimit
  | 0, _, _, h => h
  | fuel + 1, risen, before, h => by
      rcases rise_succ_cases c fuel risen before with hstay | ⟨block, rest, -, -, hlimit, hon⟩
      · rwa [hstay]
      · rw [hon]
        exact rise_le_riseLimit hlimit

/-- A candidate is put behind few of those that precede it, and before the rest. -/
theorem exists_settle_eq (before : List Candidate) (c : Candidate) :
    ∃ near far, before = near ++ far ∧ near.length ≤ riseLimit ∧ settle before c = near ++ c :: far := by
  have hrise : rise c before.length 0 before ≤ riseLimit := rise_le_riseLimit (Nat.zero_le _)
  refine ⟨_, _, (List.take_append_drop (rise c before.length 0 before) before).symm, ?_, rfl⟩
  exact (List.length_take_le _ _).trans hrise

/-- No candidate is ahead of its place by more than the limit.  The candidates are given from the
last one to the first. -/
def NotFarAhead (place : Candidate → Nat) (cs : List Candidate) : Prop :=
  ∀ near x far, cs = near ++ x :: far → place x ≤ far.length + riseLimit

/-- **A candidate that is put into its place** rises by no more than the limit, and moves the ones it
passes away from the front. -/
theorem NotFarAhead.settle {place : Candidate → Nat} {before : List Candidate}
    (h : NotFarAhead place before) (hc : place c ≤ before.length) :
    NotFarAhead place (settle before c) := by
  intro near x far heq
  obtain ⟨passed, rest, rfl, hpassed, hsettle⟩ := exists_settle_eq before c
  rw [hsettle] at heq
  rw [List.length_append] at hc
  rcases List.append_eq_append_iff.1 heq with ⟨front, rfl, hrest⟩ | ⟨back, rfl, hrest⟩
  · -- the candidate itself, or one that it did not pass
    rcases List.cons_eq_append_iff.1 hrest with ⟨-, hself⟩ | ⟨front, rfl, rfl⟩
    · obtain ⟨rfl, rfl⟩ := List.cons.inj hself
      omega
    · exact h (passed ++ front) x far (List.append_assoc ..).symm
  · -- the candidate itself, or one that it passed
    rcases List.cons_eq_append_iff.1 hrest with ⟨rfl, hself⟩ | ⟨back, rfl, rfl⟩
    · obtain ⟨rfl, rfl⟩ := List.cons.inj hself
      rw [List.append_nil] at hpassed hc
      omega
    · have hlater := h near x (back ++ rest) (by rw [List.append_assoc, List.cons_append])
      simp only [List.length_append, List.length_cons] at hlater ⊢
      omega

/-- None is farther ahead than the limit after all have settled, if each came no earlier than its
place. -/
theorem NotFarAhead.foldl_settle {place : Candidate → Nat} : ∀ (cs : List Candidate)
    {before : List Candidate}, NotFarAhead place before →
    (∀ front c back, cs = front ++ c :: back → place c ≤ before.length + front.length) →
    NotFarAhead place (cs.foldl Priority.settle before)
  | [], _, h, _ => h
  | c :: cs, before, h, hplace => by
      refine NotFarAhead.foldl_settle cs (h.settle (hplace [] c cs rfl)) fun front d back heq => ?_
      have hd := hplace (c :: front) d back (by rw [heq, List.cons_append])
      rw [(settle_perm before c).length_eq]
      simp only [List.length_cons] at hd ⊢
      omega

end Priority

namespace Store

open Priority

variable {s : Store}

/-! ### Places -/

section Places

variable {cs : List Candidate} {a b : Candidate}

/-- In a list without repetition the place of a candidate is found by its number. -/
theorem idxOf_getElem (hnodup : (cs.map (·.id)).Nodup) {i : Nat} (hi : i < cs.length) :
    (cs.map (·.id)).idxOf cs[i].id = i := by
  have hplace := hnodup.idxOf_getElem i (by rwa [List.length_map])
  rwa [List.getElem_map] at hplace

/-- In a list without repetition the candidates stand by their places. -/
theorem pairwise_idxOf (hnodup : (cs.map (·.id)).Nodup) :
    cs.Pairwise fun a b => (cs.map (·.id)).idxOf a.id < (cs.map (·.id)).idxOf b.id :=
  List.pairwise_iff_getElem.2 fun i j hi hj hij => by
    rwa [idxOf_getElem hnodup hi, idxOf_getElem hnodup hj]

/-- **What holds of candidates in their order** is told by their places. -/
theorem of_idxOf_lt {R : Candidate → Candidate → Prop} (hnodup : (cs.map (·.id)).Nodup)
    (hR : cs.Pairwise R) (ha : a ∈ cs) (hb : b ∈ cs)
    (hlt : (cs.map (·.id)).idxOf a.id < (cs.map (·.id)).idxOf b.id) : R a b := by
  obtain ⟨i, hi, rfl⟩ := List.getElem_of_mem ha
  obtain ⟨j, hj, rfl⟩ := List.getElem_of_mem hb
  rw [idxOf_getElem hnodup hi, idxOf_getElem hnodup hj] at hlt
  exact List.pairwise_iff_getElem.1 hR i j hi hj hlt

/-- The place of a candidate is the number of those before it. -/
theorem idxOf_eq_length (hnodup : (cs.map (·.id)).Nodup) {front back : List Candidate}
    (h : cs = front ++ a :: back) : (cs.map (·.id)).idxOf a.id = front.length := by
  subst h
  have hplace := idxOf_getElem (i := front.length) hnodup (by simp)
  simpa using hplace

end Places

variable {a b c : Candidate}

/-- All candidates of the order of preference are there. -/
theorem map_id_getAll_preferenceOrder (s : Store) :
    (s.getAll s.preferenceOrder).map (·.id) = s.preferenceOrder :=
  s.map_id_getAll s.preferenceOrder_perm.subset

/-- Neither order names a candidate twice. -/
theorem nodup_map_id_getAll (hids : s.ids.Nodup) :
    ((s.getAll (keyOrder s)).map (·.id)).Nodup ∧ ((s.getAll s.preferenceOrder).map (·.id)).Nodup := by
  rw [s.map_id_getAll_keyOrder, map_id_getAll_preferenceOrder]
  exact ⟨s.keyOrder_perm.nodup_iff.2 hids, s.preferenceOrder_perm.nodup_iff.2 hids⟩

/-- **No candidate is ahead of its key by more than the limit.** -/
theorem idxOf_keyOrder_le (hids : s.ids.Nodup) (hc : c ∈ s.records) :
    (keyOrder s).idxOf c.id ≤ s.preferenceOrder.idxOf c.id + riseLimit := by
  obtain ⟨hkeys, hpreference⟩ := nodup_map_id_getAll hids
  have hsettled : NotFarAhead (fun x => (keyOrder s).idxOf x.id)
      ((s.getAll (keyOrder s)).foldl Priority.settle []) := by
    refine NotFarAhead.foldl_settle _ (fun near x far h => by simp at h) fun front x back h => ?_
    have hplace := idxOf_eq_length hkeys h
    rw [s.map_id_getAll_keyOrder] at hplace
    rw [hplace, List.length_nil, Nat.zero_add]
  have hin : c ∈ s.getAll s.preferenceOrder :=
    (getAll_perm hids s.preferenceOrder_perm).mem_iff.2 hc
  rw [getAll_preferenceOrder hids, List.mem_reverse] at hin
  obtain ⟨near, far, hsplit⟩ := List.append_of_mem hin
  have hfront : s.getAll s.preferenceOrder = far.reverse ++ c :: near.reverse := by
    rw [getAll_preferenceOrder hids, hsplit]
    simp
  have hplace := idxOf_eq_length hpreference hfront
  rw [map_id_getAll_preferenceOrder, List.length_reverse] at hplace
  rw [hplace]
  exact hsettled near c far hsplit

/-- **Candidates that stand the other way round than their keys** do so because one overtook the
other. -/
theorem overtakes_of_idxOf_lt (hids : s.ids.Nodup) (ha : a ∈ s.records) (hb : b ∈ s.records)
    (hahead : s.preferenceOrder.idxOf a.id < s.preferenceOrder.idxOf b.id)
    (hbehind : (keyOrder s).idxOf b.id < (keyOrder s).idxOf a.id) : Overtakes s.records a b := by
  obtain ⟨hkeys, hpreference⟩ := nodup_map_id_getAll hids
  have hmem : ∀ c ∈ s.records, c ∈ s.getAll s.preferenceOrder := fun c =>
    (getAll_perm hids s.preferenceOrder_perm).mem_iff.2
  have hplaces := pairwise_idxOf hkeys
  rw [s.map_id_getAll_keyOrder] at hplaces
  rw [← map_id_getAll_preferenceOrder s] at hahead
  rcases of_idxOf_lt hpreference (pairwise_preferenceOrder hids hplaces) (hmem a ha) (hmem b hb)
    hahead with hlt | ⟨-, hovertakes⟩
  · exact absurd hlt (Nat.not_lt.2 hbehind.le)
  · exact hovertakes

/-- **Candidates of one identifier**: roots, then nested ones, each from the latest version, if no
two are one mod in one version. -/
theorem pairwise_filter_preferenceOrder (hids : s.ids.Nodup) (hdistinct : Distinct s.records)
    (id : String) : ((s.getAll s.preferenceOrder).filter (·.identifier = id)).Pairwise fun a b =>
      (b.isRoot = true → a.isRoot = true) ∧
      (a.isRoot = b.isRoot → b.version.below a.version = true) := by
  have hkinds := (pairwise_preferenceOrder hids (pairwise_keyOrder hids hdistinct)).filter
    (·.identifier = id)
  refine hkinds.imp_of_mem fun {a b} ha hb hab => ?_
  have hsame : a.identifier = b.identifier := by
    simp only [List.mem_filter, decide_eq_true_eq] at ha hb
    exact ha.2.trans hb.2.symm
  have hkind := hab.resolve_right fun h => h.2.other hsame.symm
  refine ⟨isRoot_of_compareKind hkind, fun hroot => ?_⟩
  rw [compareKind, hroot, hsame, Std.ReflOrd.compare_self, Std.ReflOrd.compare_self, Ordering.then_eq_lt]
    at hkind
  rw [Version.below]
  simpa using hkind

/-- **The order of preference is a correction of the order of keys.**  In every store, whatever
contains what, be it itself or be it missing:

* the fuel for chains of containers and for blocks does not run out;
* both orders list every candidate;
* two candidates that stand the other way round than their keys do have different identifiers, and
  the one ahead is newer;
* none is ahead of its key by more than the limit;
* if no two are one mod in one version, those of one identifier are roots first, then nested ones,
  each from the latest version on. -/
theorem preference_corrects_keys (hids : s.ids.Nodup) :
    (∀ fuel id known, s.size < fuel →
      keyOf s (ranking s) fuel [] id known = keyOf s (ranking s) (s.size + 1) [] id known) ∧
    (∀ c before fuel, before.length ≤ fuel →
      rise c fuel 0 before = rise c before.length 0 before) ∧
    (keyOrder s).Perm s.ids ∧ s.preferenceOrder.Perm s.ids ∧
    (∀ a ∈ s.records, ∀ b ∈ s.records,
      s.preferenceOrder.idxOf a.id < s.preferenceOrder.idxOf b.id →
      (keyOrder s).idxOf b.id < (keyOrder s).idxOf a.id →
      a.identifier ≠ b.identifier ∧ b.version.below a.version = true) ∧
    (∀ c ∈ s.records, (keyOrder s).idxOf c.id - riseLimit ≤ s.preferenceOrder.idxOf c.id) ∧
    (Distinct s.records → ∀ id,
      ((s.getAll s.preferenceOrder).filter (·.identifier = id)).Pairwise fun a b =>
        (b.isRoot = true → a.isRoot = true) ∧
        (a.isRoot = b.isRoot → b.version.below a.version = true)) := by
  refine ⟨fun fuel id known hfuel => ?_, fun c before fuel h => rise_fuel h (Nat.le_refl _),
    s.keyOrder_perm, s.preferenceOrder_perm, fun a ha b hb hahead hbehind => ?_,
    fun c hc => Nat.sub_le_of_le_add (idxOf_keyOrder_le hids hc), pairwise_filter_preferenceOrder hids⟩
  · obtain ⟨extra, rfl⟩ := Nat.exists_eq_add_of_le (Nat.succ_le_of_lt hfuel)
    exact keyOf_fuel extra _ [] id known List.nodup_nil (List.nil_subset _) (Nat.lt_succ_self _)
  · have hovertakes := overtakes_of_idxOf_lt hids ha hb hahead hbehind
    exact ⟨hovertakes.other.symm, hovertakes.newer⟩

/-- A library and its replacement that contain each other, and the library also something missing. -/
def crossedLibrary : Store :=
  ((after innerLibrary).modify 1 fun c => { c with parents := [2, 9] }).modify 2 fun c =>
    { c with parents := [1, 0] }

/-- The newer library comes ahead of the one around it, as its key alone would not have it. -/
theorem preference_corrects_keys_crossedLibrary :
    keyOrder crossedLibrary = [0, 1, 2, 3, 4] ∧ crossedLibrary.preferenceOrder = [0, 2, 1, 3, 4] ∧
    ∃ lib zlib, crossedLibrary.get? 1 = some lib ∧ crossedLibrary.get? 2 = some zlib ∧
      zlib.identifier ≠ lib.identifier ∧ lib.version.below zlib.version = true := by
  have hranking : ranking crossedLibrary = ["app", "lib", "zlib"] := by
    rw [ranking, List.mergeSort_of_pairwise (by decide +kernel)]
    decide +kernel
  have hkeys : keyOrder crossedLibrary = [0, 1, 2, 3, 4] := by
    rw [keyOrder, keyed, hranking, List.mergeSort_of_pairwise (by decide +kernel)]
    decide +kernel
  have hpreference : crossedLibrary.preferenceOrder = [0, 2, 1, 3, 4] := by
    rw [preferenceOrder, hkeys]
    decide +kernel
  have hids : crossedLibrary.ids.Nodup := by decide +kernel
  have hin : 1 ∈ crossedLibrary.ids ∧ 2 ∈ crossedLibrary.ids := by decide +kernel
  obtain ⟨lib, hlib, hlibId, hgetLib⟩ := exists_get?_eq_some hin.1
  obtain ⟨zlib, hzlib, hzlibId, hgetZlib⟩ := exists_get?_eq_some hin.2
  obtain ⟨-, -, -, -, hcorrected, -⟩ := preference_corrects_keys hids
  refine ⟨hkeys, hpreference, lib, zlib, hgetLib, hgetZlib, hcorrected zlib hzlib lib hlib ?_ ?_⟩
  · rw [hpreference, hlibId, hzlibId]
    decide
  · rw [hkeys, hlibId, hzlibId]
    decide

end Store
end Loadout
