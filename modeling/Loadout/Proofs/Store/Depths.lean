/-
# New depths

Computing depths anew gives each candidate that the roots reach the length of a shortest way in,
whatever the store is like: containment may have cycles, a candidate may have several containers,
and lists of edges may name what is not there (`Store.settled_depths_shortest`).  Candidates that no
root reaches keep their depths, and nothing else changes.

Ways in are told by roots and by what candidates contain, not by depths (`Store.reaches_map`), so
depths that are new already stay when they are computed again
(`Store.settleDepths_settleDepths`).
-/

import Loadout.Proofs.Store.Distance
import Loadout.Proofs.Store.Change

namespace Loadout
namespace Store

variable {s : Store}

/-- Ways in do not depend on depths. -/
theorem reaches_map {s' : Store} {f : Candidate → Candidate}
    (hf : ∀ a, f a = { a with depth := (f a).depth }) (hs : s'.records = s.records.map f) {n : Nat}
    {id : CandidateId} : s'.Reaches n id ↔ s.Reaches n id := by
  have hid : ∀ a, (f a).id = a.id := fun a => by rw [hf]
  have hisRoot : ∀ a, (f a).isRoot = a.isRoot := fun a => by rw [hf]; rfl
  have hroot : s'.HasRoot = s.HasRoot := by
    funext id
    simp [HasRoot, hs, hid, hisRoot]
  have hchildren : s'.childrenOf = s.childrenOf := by
    funext id
    have hsame : Candidate.children ∘ f = Candidate.children := by
      funext a
      rw [Function.comp_apply, hf]
    rw [childrenOf, childrenOf, get?_map hid hs, Option.map_map]
    exact congrArg (fun g => ((s.get? id).map g).getD []) hsame
  rw [Reaches, Reaches, hroot, hchildren]

/-- **Depths that have been computed anew stay** when they are again. -/
theorem settleDepths_settleDepths (s : Store) : s.settleDepths.settleDepths = s.settleDepths := by
  obtain ⟨f, hfirst, hf, hleast, hkept⟩ := s.settleDepths_spec
  obtain ⟨g, hsecond, hg, hleast', hkept'⟩ := s.settleDepths.settleDepths_spec
  have hrecords : s.settleDepths.records = s.records.map f := by rw [hfirst]
  have hsame : s.settleDepths.records.map g = s.settleDepths.records := by
    conv_rhs => rw [← List.map_id s.settleDepths.records]
    refine List.map_congr_left fun b hb => ?_
    rw [hrecords] at hb
    obtain ⟨a, -, rfl⟩ := List.mem_map.1 hb
    have hid : (f a).id = a.id := by rw [hf]
    suffices hdepth : (g (f a)).depth = (f a).depth by rw [hg, hdepth, id]
    by_cases hreach : ∃ n, s.Reaches n a.id
    · obtain ⟨n, hn⟩ := hreach
      have hnew := hleast' (f a) n ((reaches_map hf hrecords).2 (hid ▸ hn))
      simp only [reaches_map hf hrecords, hid] at hnew
      exact hnew.unique (hleast a n hn)
    · refine hkept' (f a) fun n hn => hreach ⟨n, ?_⟩
      exact hid ▸ (reaches_map hf hrecords).1 hn
  rw [hsecond, hsame]

/-- **Depths are the lengths of shortest ways in.**  Computing them anew changes nothing but depths.
A candidate that a root reaches, by steps each from a candidate to something that it contains, gets
the length of a shortest such way, which is zero just for roots, as numbers are those of different
candidates; one that no root reaches keeps the depth that it had; and doing so again changes
nothing. -/
theorem settled_depths_shortest (s : Store) : ∃ depthOf : Candidate → Nat,
    s.settleDepths =
      { s with records := s.records.map fun c => { c with depth := depthOf c } } ∧
    (∀ c ∈ s.records, ∀ n, s.Reaches n c.id → IsLeast {n | s.Reaches n c.id} (depthOf c)) ∧
    (s.ids.Nodup → ∀ c ∈ s.records, ∀ n, s.Reaches n c.id →
      (depthOf c = 0 ↔ c.isRoot = true)) ∧
    (∀ c ∈ s.records, (∀ n, ¬ s.Reaches n c.id) → depthOf c = c.depth) ∧
    s.settleDepths.settleDepths = s.settleDepths := by
  obtain ⟨f, heq, hf, hleast, hkept⟩ := s.settleDepths_spec
  refine ⟨Candidate.depth ∘ f, ?_, fun c _ => hleast c, fun hnodup c hc n hn => ?_,
    fun c _ => hkept c, s.settleDepths_settleDepths⟩
  · rw [heq]
    congr 1
    exact List.map_congr_left fun c _ => hf c
  · have hdepth := hleast c n hn
    constructor
    · intro hzero
      have hstart : s.Reaches 0 c.id := hzero ▸ hdepth.1
      obtain ⟨r, hr, hrc, hroot⟩ : s.HasRoot c.id := by
        cases hstart with
        | start hroot => exact hroot
      rwa [← List.inj_on_of_nodup_map hnodup hr hc hrc]
    · exact fun hroot => Nat.le_zero.1 (hdepth.2 (.start ⟨c, hc, rfl, hroot⟩))

/-- A library further down is linked to a second mod and contains what it is in, the mod is linked
to something that is not there, and two archives contain each other while nothing else contains
them. -/
def tangled : List Change :=
  [.take "app" [] none, .take "mid" [] (some 0), .take "lib" [] (some 1), .take "side" [] none,
    .link 3 2, .link 2 1, .link 3 9, .take "host" [] none, .take "left" [] (some 4),
    .take "right" [] (some 5), .link 6 5, .detach 4]

/-- The depth of the library in `tangled` is that of the short way once depths are computed; what no
root reaches keeps its own. -/
theorem settled_depths_shortest_tangled :
    (after tangled).ids.Nodup ∧
    (after tangled).records.map (fun c => (c.id, c.depth)) =
      [(0, 0), (1, 1), (2, 2), (3, 0), (5, 1), (6, 2)] ∧
    (after tangled).settleDepths.records.map (fun c => (c.id, c.depth)) =
      [(0, 0), (1, 1), (2, 1), (3, 0), (5, 1), (6, 2)] ∧
    IsLeast {n | (after tangled).Reaches n 2} 1 ∧
    ((after tangled).get? 2).map (·.isRoot) = some false ∧
    (after tangled).settleDepths.settleDepths = (after tangled).settleDepths := by
  have hroot : (after tangled).HasRoot 3 := by
    unfold HasRoot
    decide +kernel
  have hreach : (after tangled).Reaches 1 2 := .along (.start hroot) (by decide +kernel)
  have hnodup : (after tangled).ids.Nodup := by decide +kernel
  obtain ⟨c, hget⟩ : ∃ c, (after tangled).get? 2 = some c :=
    Option.isSome_iff_exists.1 (by decide +kernel)
  obtain ⟨hc, hid⟩ := mem_of_get? hget
  obtain ⟨depthOf, heq, hleast, hzero, -, hagain⟩ := settled_depths_shortest (after tangled)
  have hdepth : depthOf c = 1 := by
    have hnew : ((after tangled).settleDepths.get? 2).map (·.depth) = some 1 := by decide +kernel
    rw [heq, get?_map (s := after tangled) (f := fun c => { c with depth := depthOf c })
      (fun _ => rfl) rfl, hget] at hnew
    exact Option.some.inj hnew
  have hshortest := hleast c hc 1 (hid ▸ hreach)
  have hnested := hzero hnodup c hc 1 (hid ▸ hreach)
  rw [hdepth] at hnested
  rw [hdepth, hid] at hshortest
  refine ⟨hnodup, by decide +kernel, by decide +kernel, hshortest, ?_, hagain⟩
  rw [hget]
  exact congrArg some (Bool.eq_false_iff.2 fun hisRoot => Nat.one_ne_zero (hnested.2 hisRoot))

end Store
end Loadout
