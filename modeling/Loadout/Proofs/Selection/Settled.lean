/-
# What a successful selection leaves

Once solving has succeeded, the candidates that were not selected go, and what is left is the
selection as it was in the store: the edges and the groups of its candidates, as far as they are
among themselves (`Store.Paired.exists_settles`, `Store.Indexed.providers_settle`).

Two things do not follow from taking candidates out, but from what solving promises.  No candidate
that is left becomes a root for want of what was around it, because a nested candidate is selected
with something around it, and as containment has no cycles there is a way in to every one; so
depths are told by what is around.  And nothing is provided twice, so groups have one member at
most.  What is warned of can then be told from the store as it was, without groups and without
taking anything out (`Store.unhonoured`).
-/

import Loadout.Proofs.Selection.Solve
import Loadout.Proofs.Store.Keep

namespace Loadout

/-- Lists of one element at most are told by what is in them. -/
theorem eq_of_length_le_one {α : Type} {l l' : List α} (h : l.length ≤ 1) (h' : l'.length ≤ 1)
    (hmem : ∀ a, a ∈ l ↔ a ∈ l') : l = l' := by
  match l, l' with
  | [], [] => rfl
  | [], b :: _ => exact absurd ((hmem b).2 (List.mem_cons_self ..)) List.not_mem_nil
  | a :: _, [] => exact absurd ((hmem a).1 (List.mem_cons_self ..)) List.not_mem_nil
  | [a], [b] => rw [List.mem_singleton.1 ((hmem a).1 (List.mem_singleton_self a))]

namespace Store

variable {s : Store} {selection : List CandidateId}

/-- The selected candidates that provide the target of a dependency, but for its source. -/
def selectedBeside (s : Store) (selection : List CandidateId) (source : CandidateId)
    (d : Dependency) : List Candidate :=
  s.records.filter fun m => selection.contains m.id && m.id != source && m.provides d.target

/-- **The soft conditions that a selection does not honour**, by candidate in the order of the
selection and by dependency as they are declared.  They are told by what candidates provide. -/
def unhonoured (s : Store) (selection : List CandidateId) : List Warning :=
  (s.getAll selection).flatMap fun c => c.descriptor.dependencies.flatMap fun d =>
    let others := s.selectedBeside selection c.id d
    let matching := others.filter fun m => d.admits m.version
    match d.relation with
    | .recommends =>
      if matching = [] then [.missingRecommendation (.ofCandidate c) d (others.map .ofCandidate)]
      else []
    | .conflicts => matching.map fun m => .conflict (.ofCandidate c) d (.ofCandidate m)
    | _ => []

/-- **A selection that stands on its own**: candidates of the store, none of them twice, each with
something around it unless it is a root, and no two that provide the same. -/
structure Selected (s : Store) (selection : List CandidateId) : Prop where
  nodup : selection.Nodup
  known : ∀ id ∈ selection, id ∈ s.ids
  contained : ∀ c ∈ s.records, c.id ∈ selection → c.isRoot = false → ∃ p ∈ c.parents, p ∈ selection
  single : ∀ a ∈ s.records, ∀ b ∈ s.records, a.id ∈ selection → b.id ∈ selection →
    ∀ key, a.provides key = true → b.provides key = true → a.id = b.id

namespace Selected

/-- **Two candidates of a selection** do not provide the same. -/
theorem eq_of_provides (h : s.Selected selection) (hi : s.Indexed) {a b : Candidate}
    (ha : a ∈ s.records) (hb : b ∈ s.records) (has : a.id ∈ selection) (hbs : b.id ∈ selection)
    {key : String} (hap : a.provides key = true) (hbp : b.provides key = true) : a = b :=
  hi.eq_of_id_eq ha hb (h.single a ha b hb has hbs key hap hbp)

/-- The numbers that stay are those of the selection. -/
theorem ids_settle_perm (h : s.Selected selection) (hp : s.Paired) :
    (s.settle selection).ids.Perm selection := by
  obtain ⟨stay, hstay⟩ := hp.exists_settles selection
  refine (List.perm_ext_iff_of_nodup (hp.indexed.settle selection).nodup h.nodup).2 fun id => ?_
  rw [Store.mem_ids]
  simp only [hstay.mem_records]
  constructor
  · rintro ⟨_, ⟨c, -, hin, rfl⟩, rfl⟩
    rwa [hstay.id]
  · intro hin
    obtain ⟨c, hc, rfl⟩ := Store.mem_ids.1 (h.known id hin)
    exact ⟨stay c, ⟨c, hc, hin, rfl⟩, hstay.id c⟩

/-- **A group keeps one member at most.** -/
theorem length_providers_le (h : s.Selected selection) (hi : s.Indexed)
    (hg : ∀ g ∈ s.groups, g.members.Nodup) (key : String) :
    ((s.settle selection).providers key).length ≤ 1 := by
  have hnodup := Instance.nodup_providers hg key
  rw [hi.providers_settle]
  refine (length_le_one_iff_of_nodup (hnodup.filter _)).2 fun x hx y hy => ?_
  simp only [List.mem_filter, hi.members, List.contains_eq_mem, decide_eq_true_eq] at hx hy
  obtain ⟨⟨a, ha, rfl, hap⟩, has⟩ := hx
  obtain ⟨⟨b, hb, rfl, hbp⟩, hbs⟩ := hy
  exact h.single a ha b hb has hbs key hap hbp

/-- Who stays is a root just where it was one. -/
theorem isRoot_keeping (h : s.Selected selection) {c : Candidate} (hc : c ∈ s.records)
    (hin : c.id ∈ selection) : (c.keeping selection.contains).isRoot = c.isRoot := by
  refine Candidate.isRoot_keeping fun hnested => ?_
  obtain ⟨p, hp, hps⟩ := h.contained c hc hin hnested
  exact ⟨p, hp, List.contains_iff_mem.2 hps⟩

/-- **There is a way in to every candidate that stays**, by way of others that do. -/
theorem exists_reaches (h : s.Selected selection) (hp : s.Paired) (hr : s.Ranked) :
    ∀ c ∈ ((s.unselected selection).foldl Store.detach s).records,
      ∃ n, ((s.unselected selection).foldl Store.detach s).Reaches n c.id := by
  have hpaired := hp.foldl_detach (s.unselected selection)
  have hmem : ∀ c ∈ s.records, c.id ∈ selection → c.keeping selection.contains ∈
      ((s.unselected selection).foldl Store.detach s).records := by
    intro c hc hin
    rw [hp.records_left]
    exact List.mem_map_of_mem (List.mem_filter.2 ⟨hc, List.contains_iff_mem.2 hin⟩)
  have hrooted : ∀ id, s.Rooted selection id →
      ∃ n, ((s.unselected selection).foldl Store.detach s).Reaches n id := by
    intro id hid
    induction hid with
    | @root c hc hin hroot =>
        refine ⟨0, (hpaired.reaches_iff (hmem c hc hin)).2 (Or.inl ⟨rfl, ?_⟩)⟩
        rw [h.isRoot_keeping hc hin, hroot]
    | @nested c p hc hin hparent haround ih =>
        obtain ⟨n, hn⟩ := ih
        have hkept : p ∈ (c.keeping selection.contains).parents := by
          refine List.mem_filter.2 ⟨hparent, List.contains_iff_mem.2 ?_⟩
          cases haround <;> assumption
        exact ⟨n + 1, (hpaired.reaches_iff (hmem c hc hin)).2 (Or.inr ⟨n, rfl, p, hkept, hn⟩)⟩
  intro c' hc'
  rw [hp.records_left] at hc'
  obtain ⟨c, hc, rfl⟩ := List.mem_map.1 hc'
  have hin := List.contains_iff_mem.1 (List.mem_filter.1 hc).2
  exact hrooted c.id (hr.rooted h.known h.contained c.id hin)

/-- **Depths of what stays** are told by what is around. -/
theorem leveled_settle (h : s.Selected selection) (hp : s.Paired) (hr : s.Ranked) :
    (s.settle selection).Leveled :=
  (hp.foldl_detach (s.unselected selection)).leveled_settleDepths (h.exists_reaches hp hr)

/-! ### Warnings -/

/-- **What is left of the target of a dependency** are the selected candidates that provide it. -/
theorem getAll_providers_settle (h : s.Selected selection) (hi : s.Indexed)
    (hg : ∀ g ∈ s.groups, g.members.Nodup) (source : CandidateId) (d : Dependency) :
    s.getAll (((s.settle selection).providers d.target).filter (· ≠ source)) =
      s.selectedBeside selection source d := by
  refine eq_of_length_le_one ?_ ?_ fun c => ?_
  · calc (s.getAll (((s.settle selection).providers d.target).filter (· ≠ source))).length
        ≤ (((s.settle selection).providers d.target).filter (· ≠ source)).length :=
          List.length_filterMap_le ..
      _ ≤ ((s.settle selection).providers d.target).length := List.length_filter_le ..
      _ ≤ 1 := h.length_providers_le hi hg d.target
  · refine (length_le_one_iff_of_nodup (hi.nodup.of_map.filter _)).2 fun a ha b hb => ?_
    simp only [List.mem_filter, Bool.and_eq_true, List.contains_eq_mem, decide_eq_true_eq] at ha hb
    exact h.eq_of_provides hi ha.1 hb.1 ha.2.1.1 hb.2.1.1 ha.2.2 hb.2.2
  · rw [hi.mem_getAll_iff, List.mem_filter, hi.providers_settle, List.mem_filter, hi.members,
      selectedBeside, List.mem_filter]
    simp only [Bool.and_eq_true, bne_iff_ne, decide_eq_true_eq, List.contains_eq_mem, ne_eq]
    constructor
    · rintro ⟨hc, ⟨⟨a, ha, hac, hprovides⟩, hin⟩, hne⟩
      rw [hi.eq_of_id_eq ha hc hac] at hprovides
      exact ⟨hc, ⟨hin, hne⟩, hprovides⟩
    · rintro ⟨hc, ⟨hin, hne⟩, hprovides⟩
      exact ⟨hc, ⟨⟨c, hc, rfl, hprovides⟩, hin⟩, hne⟩

/-- After settling, what else provides a target is what the selection has beside the source. -/
theorem othersProviding_settle (h : s.Selected selection) (hp : s.Paired)
    (hg : ∀ g ∈ s.groups, g.members.Nodup) (source : CandidateId) (d : Dependency) :
    (s.settle selection).othersProviding source d =
      (s.selectedBeside selection source d).map ModRef.ofCandidate := by
  obtain ⟨stay, hstay⟩ := hp.exists_settles selection
  have hselected : ∀ x ∈ ((s.settle selection).providers d.target).filter (· ≠ source),
      x ∈ selection := by
    intro x hx
    rw [hp.indexed.providers_settle] at hx
    exact List.contains_iff_mem.1 (List.mem_filter.1 (List.mem_filter.1 hx).1).2
  rw [othersProviding, hstay.getAll_eq hp.indexed (fun x hx => h.known x (hselected x hx)) hselected,
    h.getAll_providers_settle hp.indexed hg, List.map_map]
  exact List.map_congr_left fun c _ => hstay.ofCandidate c

/-- **Warnings are about soft conditions that the selection does not honour**, one for each. -/
theorem warnings_settle (h : s.Selected selection) (hp : s.Paired)
    (hg : ∀ g ∈ s.groups, g.members.Nodup) :
    (s.settle selection).warnings selection = s.unhonoured selection := by
  obtain ⟨stay, hstay⟩ := hp.exists_settles selection
  rw [warnings, unhonoured, hstay.getAll_eq hp.indexed h.known fun _ hin => hin, List.flatMap_map]
  refine List.flatMap_congr fun c _ => ?_
  rw [hstay.descriptor, hstay.ofCandidate]
  refine List.flatMap_congr fun d _ => ?_
  rw [dependencyWarnings, h.othersProviding_settle hp hg]
  have hid : (ModRef.ofCandidate c).id = c.id := rfl
  rw [hid]
  generalize s.selectedBeside selection c.id d = others
  cases d.relation with
  | recommends =>
      have hany : ((others.map ModRef.ofCandidate).any fun p => d.admits p.version) = true ↔
          ¬ others.filter (fun m => d.admits m.version) = [] := by
        rw [List.any_map, List.any_eq_true, List.filter_eq_nil_iff]
        simp [ModRef.ofCandidate]
      by_cases hnone : others.filter (fun m => d.admits m.version) = []
      · simp only [if_pos hnone, if_neg (mt hany.1 (not_not.2 hnone))]
      · simp only [if_neg hnone, if_pos (hany.2 hnone)]
  | conflicts =>
      show ((others.map ModRef.ofCandidate).filter fun p => d.admits p.version).map _ = _
      rw [List.filter_map, List.map_map]
      rfl
  | _ => rfl

end Selected
end Store

namespace Solver

variable {s : Solver} {selection : List CandidateId}

/-- **A successful selection stands on its own**, whatever was asked for. -/
theorem selected_of_solve (hs : s.store.Prepared) (ho : s.order.Perm s.store.ids)
    (h : s.solve = .ok (.success selection)) : s.store.Selected selection := by
  obtain ⟨m, hm, rfl⟩ := solve_eq_success_iff.1 h
  have hground : s.choice.Grounded := grounded_posed hs.indexed hs.ranked ho .select
  have hcon := hground.consistent_of_obeys rfl (hground.obeys_of_optimize hm)
  have hwaived : s.choice.waivedEdges (s.choice.valuation m) = [] := by
    simp [Instance.waivedEdges, choice]
  rw [hwaived, Store.withoutEdges_nil] at hcon
  exact ⟨(ho.nodup_iff.2 hs.indexed.nodup).filter _, hcon.known, hcon.contained, hcon.single⟩

/-- **What is left is the selection, as it was.**  After a successful solve on a store that inserts
built, with groups that list nothing twice, the settled store has just the selected candidates.
Each group is the selected part of what it was and has one member at most; each candidate is as it
was, with the selected part of its edges, and a root just where it was one; roots have depth zero
and all else lies one below the highest candidate left around it.  The cache has lost what left the
store, and the warnings tell of each soft condition that the selection does not honour. -/
theorem selection_settles (hs : s.store.Prepared) (hg : ∀ g ∈ s.store.groups, g.members.Nodup)
    (ho : s.order.Perm s.store.ids) (h : s.solve = .ok (.success selection)) (cache : ByteCache) :
    (s.store.settle selection).ids.Perm selection ∧
    (∀ key, (s.store.settle selection).providers key =
        (s.store.providers key).filter selection.contains ∧
      ((s.store.settle selection).providers key).length ≤ 1) ∧
    (∀ c ∈ s.store.records, c.id ∈ selection → ∃ c',
      (s.store.settle selection).get? c.id = some c' ∧
      c' = { c.keeping selection.contains with depth := c'.depth } ∧ c'.isRoot = c.isRoot) ∧
    (s.store.settle selection).Leveled ∧
    (∀ id, (cache.settle s.store selection).get? id =
      if id ∈ s.store.ids ∧ id ∉ selection then none else cache.get? id) ∧
    (s.store.settle selection).warnings selection = s.store.unhonoured selection := by
  have hpaired := hs.paired
  have hselected := selected_of_solve hs ho h
  obtain ⟨stay, hstay⟩ := hpaired.exists_settles selection
  refine ⟨hselected.ids_settle_perm hpaired, fun key => ⟨?_, ?_⟩, fun c hc hin => ?_,
    hselected.leveled_settle hpaired hs.ranked, cache.get?_settle s.store selection,
    hselected.warnings_settle hpaired hg⟩
  · exact hs.indexed.providers_settle selection key
  · exact hselected.length_providers_le hs.indexed hg key
  · refine ⟨stay c, hstay.get?_eq hs.indexed hc hin, hstay.frame c, ?_⟩
    rw [hstay.isRoot, hselected.isRoot_keeping hc hin]

/-- A library is in a mod that stays and in a tool that nobody asks for, which is found alone too.
The app would like documentation that is not there, and is at odds with the mod inside it. -/
def sharedLibrary : Store :=
  [found { id := "app", version := versionOne, dependencies :=
      [⟨.recommends, "docs", .any⟩, ⟨.conflicts, "mid", .any⟩] } none,
    found { id := "mid", version := versionOne } (some 0),
    found { id := "tool", version := versionOne } (some 0),
    found { id := "lib", version := versionOne } (some 1),
    found { id := "lib", version := versionOne } (some 2),
    found { id := "tool", version := versionOne, load? := some .ifRecommended } none].foldl
      Store.inserted .empty

/-- The store of `sharedLibrary` is built by inserting. -/
theorem sharedLibrary_built : sharedLibrary.Built := Store.Built.empty.foldl _

/-- The selection of `sharedLibrary` leaves the tool out, and the library gets its depth from the
mod that stays; both soft conditions are reported. -/
theorem selection_settles_sharedLibrary :
    (Solver.mk sharedLibrary.settleDepths [0, 1, 2, 3] [] .never).solve =
      .ok (.success [0, 1, 3]) ∧
    (sharedLibrary.settleDepths.settle [0, 1, 3]).ids.Perm [0, 1, 3] ∧
    (sharedLibrary.settleDepths.settle [0, 1, 3]).Leveled ∧
    (sharedLibrary.settleDepths.settle [0, 1, 3]).warnings [0, 1, 3] =
      sharedLibrary.settleDepths.unhonoured [0, 1, 3] ∧
    (sharedLibrary.settleDepths.records.map fun c => (c.id, c.depth, c.parents)) =
      [(0, 0, []), (1, 1, [0]), (2, 0, []), (3, 1, [1, 2])] ∧
    ((sharedLibrary.settleDepths.settle [0, 1, 3]).records.map fun c =>
      (c.id, c.depth, c.parents)) = [(0, 0, []), (1, 1, [0]), (3, 2, [1])] ∧
    (sharedLibrary.settleDepths.unhonoured [0, 1, 3]).length = 2 := by
  have hsolve : (Solver.mk sharedLibrary.settleDepths [0, 1, 2, 3] [] .never).solve =
      .ok (.success [0, 1, 3]) := by decide +kernel
  obtain ⟨hids, -, -, hleveled, -, hwarnings⟩ :=
    selection_settles (s := ⟨sharedLibrary.settleDepths, [0, 1, 2, 3], [], .never⟩)
      (.settled sharedLibrary_built) (by decide +kernel) (by decide +kernel) hsolve .empty
  exact ⟨hsolve, hids, hleveled, hwarnings, by decide +kernel, by decide +kernel, by decide +kernel⟩

end Solver
end Loadout
