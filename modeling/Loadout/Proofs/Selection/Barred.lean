/-
# Candidates that are barred

A group lists a candidate twice where its descriptor repeats a key.  With nothing else that
offers the key, its at-most-one rule has one literal, and the search takes a rule of one
literal for an assertion: the candidate is *barred* (`Instance.Barred`).  These are the only
at-most-one rules with fewer than two literals (`Instance.Exact.exists_barred_of_short`).

So to meet the rules as the search reads them is to obey the instance without any candidate
that is barred (`Instance.Exact.metBy_iff`), and nothing that is found selects one.
-/

import Loadout.Proofs.Selection.Solve
import Loadout.Proofs.Store.Multiplicity

namespace Loadout
namespace Instance

variable {i : Instance}

/-- **A candidate that a rule bars**: a group lists it more than once, and nothing else offers
the key of the group. -/
def Barred (i : Instance) (id : CandidateId) : Prop :=
  ∃ key, 1 < (i.store.providers key).count id ∧
    ∀ o ∈ i.offers, o.provides key = true → o.choice = .candidate id

namespace Exact

/-- **An at-most-one rule of one literal bars a candidate.** -/
theorem exists_barred_of_short (h : i.Exact) (ho : i.order.Nodup) {r : Rule Choice}
    (hr : r ∈ i.encode.rules.toList) (hk : r.isAtMostOne = true) (hshort : r.literals.length < 2) :
    ∃ id, r.literals = [(selected id).flip] ∧ i.Barred id := by
  rcases ruleList_cases (RuleSet.mem_of_mem_ofList hr) with ⟨literals, kind, rfl, hkind⟩ |
    ⟨key, -, hseveral, rfl⟩
  · rw [Rule.isAtMostOne_of, decide_eq_true_eq] at hk
    exact absurd hk hkind
  · obtain ⟨id, hcount, hone, hall⟩ := exists_repeated_of_short ho hseveral hshort
    exact ⟨id, hone, key, hcount, fun o hoffer hp =>
      pos_inj (hall _ (h.mem_providerLiterals.2 ⟨o, hoffer, hp, rfl⟩))⟩

/-- **Every candidate that is barred has such a rule.** -/
theorem exists_short_of_barred (h : i.Exact) (ho : i.order.Nodup) {id : CandidateId}
    (hbarred : i.Barred id) : ∃ r ∈ i.encode.rules.toList,
      r.isAtMostOne = true ∧ r.literals = [(selected id).flip] := by
  obtain ⟨key, hcount, hall⟩ := hbarred
  obtain ⟨c, hc, rfl, hp⟩ := (h.indexed.members key id).1
    (List.count_pos_iff.1 (Nat.lt_trans Nat.zero_lt_one hcount))
  have hoffer := ofCandidate_mem_offers hc
  have hliterals : ∀ l ∈ i.providerLiterals key, l = selected c.id := fun l hl => by
    obtain ⟨o, ho, hop, rfl⟩ := h.mem_providerLiterals.1 hl
    rw [hall o ho hop]
    rfl
  have hmember : selected c.id ∈ i.providerLiterals key :=
    h.mem_providerLiterals.2 ⟨_, hoffer, hp, rfl⟩
  have hseveral : 1 < (i.providerLiterals key).length := by
    rw [← count_selected ho (h.id_mem_order hc) key] at hcount
    exact Nat.lt_of_lt_of_le hcount List.count_le_length
  have hrule : Rule.atMostOne (i.providerLiterals key) ∈ i.ruleList := by
    refine mem_ruleList.2 (Or.inr (Or.inl ⟨key, h.mem_providedKeys hoffer hp, ?_⟩))
    rw [exclusionRules, if_pos hseveral]
    exact List.mem_singleton_self _
  have hone : (Rule.atMostOne (i.providerLiterals key)).literals = [(selected c.id).flip] := by
    refine Rule.literals_of_eq_singleton_iff.2 ⟨List.mem_map_of_mem hmember, ?_⟩
    rw [List.forall_mem_map]
    exact fun l hl => congrArg Literal.flip (hliterals l hl)
  obtain ⟨r, hr, hk, hlike⟩ := RuleSet.exists_like_of_mem (fun _ => nodup_of_mem_ruleList) hrule
  refine ⟨r, hr, hk.symm, (eq_singleton_iff_of_nodup (i.closed_encode.rules r hr).1).2 fun x => ?_⟩
  rw [← hlike, hone, List.mem_singleton]

/-- **What the search asks for**: to obey the instance, and to do without the candidates that are
barred. -/
theorem metBy_iff (h : i.Exact) (ho : i.order.Nodup) {w : Choice → Bool} :
    i.encode.rules.MetBy w ↔ i.Obeys w ∧ ∀ id, i.Barred id → w (.candidate id) = false := by
  have hout : ∀ id, (selected id).flip.holds w = true ↔ w (.candidate id) = false := by
    intro id
    rw [Literal.holds_flip, Bool.not_eq_true', ← Bool.not_eq_true, selected_holds, Bool.not_eq_true]
  constructor
  · intro hmet
    refine ⟨h.holds_iff.1 ((i.holds_encode w).1 hmet.holds), fun id hbarred => ?_⟩
    obtain ⟨r, hr, -, hone⟩ := h.exists_short_of_barred ho hbarred
    obtain ⟨l, hl, hv⟩ := hmet.short r hr (by rw [hone]; exact Nat.one_lt_two)
    rw [hone, List.mem_singleton] at hl
    exact (hout id).1 (hl ▸ hv)
  · rintro ⟨hobeys, hbarred⟩
    have hholds := (i.holds_encode w).2 (h.holds_iff.2 hobeys)
    refine ⟨hholds, fun r hr hshort => ?_⟩
    cases hk : r.isAtMostOne with
    | false => exact (Rule.holds_iff_exists hk w).1 ((RuleSet.holds_iff _ w).1 hholds r hr)
    | true =>
        obtain ⟨id, hone, hid⟩ := h.exists_barred_of_short ho hr hk hshort
        rw [hone]
        exact ⟨_, List.mem_singleton_self _, (hout id).2 (hbarred id hid)⟩

end Exact
end Instance

namespace Solver

variable {s : Solver} {purpose : Purpose} {made : List Choice}

/-- Nothing that a search finds selects a candidate that is barred. -/
theorem not_mem_of_barred (h : (s.posed purpose).Exact) (ho : s.order.Nodup)
    (hbest : s.best purpose = .ok (some made)) {id : CandidateId}
    (hbarred : (s.posed purpose).Barred id) : .candidate id ∉ made := by
  have hout := ((h.metBy_iff ho).1 (metBy_of_best hbest)).2 id hbarred
  simpa using hout

/-- So no successful selection has one. -/
theorem not_barred_of_solve (h : (s.posed .select).Exact) (ho : s.order.Nodup)
    {selection : List CandidateId} (hsolve : s.solve = .ok (.success selection)) {id : CandidateId}
    (hid : id ∈ selection) : ¬(s.posed .select).Barred id := by
  obtain ⟨m, hm, rfl⟩ := solve_eq_success_iff.1 hsolve
  have hbest : s.best .select = .ok (some (s.choice.encode.decode m)) := by rw [best_select, hm]
  rw [← selection_decode, selection, List.mem_filter] at hid
  exact fun hbarred => not_mem_of_barred h ho hbest hbarred (List.contains_iff_mem.1 hid.2)

/-- **A candidate is listed as often as its descriptor says, and can be barred for it.**  After
any changes a group lists a candidate as often as the descriptor that it came in with has the
key, but at least once; so groups list nothing twice just where no such descriptor repeats a
key.  In every encoding an at-most-one rule with fewer than two literals bars a candidate that
is listed twice under a key which nothing else offers.  Every such candidate has this rule, and
nothing that is found selects it. -/
theorem repeated_keys_listed_and_barred {changes : List Change} (hstore : s.store = .after changes)
    (ho : s.order.Perm s.store.ids) :
    (∀ c ∈ s.store.records, ∃ new, Store.CameInAs changes c.id new ∧ ∀ key,
      (s.store.providers key).count c.id =
        if c.provides key then max 1 (new.keys.count key) else 0) ∧
    ((∀ g ∈ s.store.groups, g.members.Nodup) ↔
      ∀ c ∈ s.store.records, ∀ new, Store.CameInAs changes c.id new → new.keys.Nodup) ∧
    (∀ purpose,
      (∀ r ∈ (s.encode purpose).rules.toList, r.isAtMostOne = true → r.literals.length < 2 →
        ∃ id, r.literals = [(Instance.selected id).flip] ∧ (s.posed purpose).Barred id) ∧
      ∀ id, (s.posed purpose).Barred id →
        (∃ r ∈ (s.encode purpose).rules.toList,
          r.isAtMostOne = true ∧ r.literals = [(Instance.selected id).flip]) ∧
        ∀ made, s.best purpose = .ok (some made) → .candidate id ∉ made) ∧
    ∀ selection, s.solve = .ok (.success selection) →
      ∀ id ∈ selection, ¬(s.posed .select).Barred id := by
  have hindexed : s.store.Indexed := hstore ▸ (Store.catalogued_after changes).indexed
  have hnodup : s.order.Nodup := ho.nodup_iff.2 hindexed.nodup
  have hexact := exact_posed hindexed ho
  refine ⟨?_, hstore ▸ Store.nodup_groups_iff changes, fun purpose => ⟨fun r hr hk hshort => ?_,
    fun id hbarred => ⟨?_, fun made hbest => ?_⟩⟩, fun selection hsolve id hid => ?_⟩
  · rw [hstore]
    intro c hc
    obtain ⟨⟨new, hnew⟩, hcount⟩ := Store.count_providers changes hc
    exact ⟨new, hnew, (hcount new hnew).2⟩
  · exact (hexact purpose).exists_barred_of_short hnodup hr hk hshort
  · exact (hexact purpose).exists_short_of_barred hnodup hbarred
  · exact not_mem_of_barred (hexact purpose) hnodup hbest hbarred
  · exact not_barred_of_solve (hexact .select) hnodup hsolve hid

/-- A mod that gives its own identifier as an alias. -/
def selfNamed : List Change := [.take "alpha" ["alpha"] none]

/-- The alias of `selfNamed` is its identifier: the candidate is listed twice, its rule has one
literal, and it is not selected. -/
theorem repeated_keys_listed_and_barred_selfNamed :
    (Store.after selfNamed).providers "alpha" = [0, 0] ∧
      ∃ r ∈ ((Solver.mk (.after selfNamed) [0] [] .never).encode .select).rules.toList,
        r.isAtMostOne = true ∧ r.literals = [(Instance.selected 0).flip] ∧
        ∀ made, (Solver.mk (.after selfNamed) [0] [] .never).best .select = .ok (some made) →
          .candidate 0 ∉ made := by
  have hlisted : (Store.after selfNamed).providers "alpha" = [0, 0] := by decide +kernel
  have hbarred : ((Solver.mk (.after selfNamed) [0] [] .never).posed .select).Barred 0 := by
    refine ⟨"alpha", ?_, ?_⟩
    · show 1 < ((Store.after selfNamed).providers "alpha").count 0
      rw [hlisted]
      decide
    · have halone : ∀ o ∈ ((Solver.mk (.after selfNamed) [0] [] .never).posed .select).offers,
          o.choice = .candidate 0 := by decide +kernel
      exact fun o ho _ => halone o ho
  have horder : [0].Perm (Store.after selfNamed).ids := by decide +kernel
  obtain ⟨-, -, hrules, -⟩ := repeated_keys_listed_and_barred
    (s := ⟨.after selfNamed, [0], [], .never⟩) rfl horder
  obtain ⟨⟨r, hr, hk, hone⟩, hout⟩ := (hrules .select).2 0 hbarred
  exact ⟨hlisted, r, hr, hk, hone, hout⟩

end Solver
end Loadout
