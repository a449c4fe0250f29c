/-
# Explanations name a smallest cause

A selection is consistent without some dependencies when it is consistent without any, and
violates only these (`Store.consistent_withoutEdges_iff`).  The instance that explains a
failure lets hard dependencies be waived, and wants above all to waive few.  So its best
choices waive just what their selection violates (`Instance.Best.waived_iff_violates`), and no
fewer dependencies could be left out for a consistent selection
(`Solver.length_waived_le`).

Explanations are these waivers, each told by its candidate and its dependency
(`Solver.perm_edgesNamed`).  There are none of them where nothing helps but to change the
mods, because solving fails only if no selection is consistent with all dependencies.
-/

import Loadout.Proofs.Selection.Solve

namespace Loadout

/-! ### Violated dependencies -/

namespace Store

/-- The dependency at a place. -/
def dependency? (s : Store) (e : Edge) : Option Dependency :=
  (s.get? e.1).bind fun c => c.descriptor.dependencies[e.2]?

/-- The places of the dependencies that have to be met. -/
def hardEdges (s : Store) : List Edge :=
  s.edges.filter fun e => (s.dependency? e).any (·.relation.isHard)

/-- **A dependency that a selection violates**: its source is selected, and nothing that meets
it is, or something else that it rules out. -/
def Violates (s : Store) (selection : List CandidateId) (source : CandidateId) (d : Dependency) :
    Prop :=
  source ∈ selection ∧
    match d.relation with
    | .depends => ¬∃ m ∈ s.records, m.id ∈ selection ∧ m.meets d = true
    | .breaks => ∃ m ∈ s.records, m.id ∈ selection ∧ m.id ≠ source ∧ m.meets d = true
    | _ => False

variable {s : Store} {selection preselected : List CandidateId} {edges : List Edge}

/-- The dependency at a place is the one that its candidate has there. -/
theorem Indexed.dependency?_eq_some_iff (h : s.Indexed) {e : Edge} {d : Dependency} :
    s.dependency? e = some d ↔
      ∃ c ∈ s.records, c.id = e.1 ∧ c.descriptor.dependencies[e.2]? = some d := by
  rw [dependency?, Option.bind_eq_some_iff]
  simp only [h.get?_eq_some_iff, and_assoc]

/-- A consistent selection violates none of the dependencies that count. -/
theorem Consistent.not_violates (h : (s.withoutEdges edges).Consistent preselected selection) :
    ∀ c ∈ s.records, ∀ d ∈ (c.withoutEdges edges).descriptor.dependencies,
      ¬s.Violates selection c.id d := by
  rintro c hc d hd ⟨hs, hv⟩
  cases hr : d.relation with
  | depends =>
      rw [hr] at hv
      exact hv (exists_withoutEdges.1 (forall_withoutEdges.1 h.depends c hc hs d hd hr))
  | breaks =>
      rw [hr] at hv
      obtain ⟨m, hm, hms, hne, hmd⟩ := hv
      have hno := forall_withoutEdges.1 (forall_withoutEdges.1 h.breaks c hc hs d hd hr) m hm hms hne
      exact absurd (hno.symm.trans hmd) Bool.false_ne_true
  | _ => simp [hr] at hv

/-- A selection stays consistent where other dependencies count, if it violates none of them. -/
theorem Consistent.otherEdges {others : List Edge}
    (h : (s.withoutEdges edges).Consistent preselected selection)
    (hkept : ∀ c ∈ s.records, ∀ d ∈ (c.withoutEdges others).descriptor.dependencies,
      ¬s.Violates selection c.id d) :
    (s.withoutEdges others).Consistent preselected selection where
  known := by simpa using h.known
  depends := by
    rw [forall_withoutEdges]
    intro c hc hs d hd hr
    have hmet := hkept c hc d hd
    rw [Violates, hr] at hmet
    exact exists_withoutEdges.2 (not_not.1 (not_and.1 hmet hs))
  breaks := by
    simp only [forall_withoutEdges]
    intro c hc hs d hd hr m hm hms hne
    have hmet := hkept c hc d hd
    rw [Violates, hr] at hmet
    rw [← Bool.not_eq_true]
    exact fun hmd => hmet ⟨hs, m, hm, hms, hne, hmd⟩
  -- the other conditions are not about dependencies
  single := by
    have hsingle := h.single
    simp only [forall_withoutEdges] at hsingle ⊢
    exact hsingle
  contained := by
    have hcontained := h.contained
    rw [forall_withoutEdges] at hcontained ⊢
    exact hcontained
  root := by
    have hroot := h.root
    simp only [forall_withoutEdges, exists_withoutEdges] at hroot ⊢
    exact hroot
  nested := by
    have hnested := h.nested
    simp only [forall_withoutEdges, exists_withoutEdges] at hnested ⊢
    exact hnested
  preselected := h.preselected

/-- **What is consistent without some dependencies** is consistent without any, and violates
none but these. -/
theorem consistent_withoutEdges_iff : (s.withoutEdges edges).Consistent preselected selection ↔
    (s.withoutEdges s.edges).Consistent preselected selection ∧
      ∀ c ∈ s.records, ∀ d index, c.descriptor.dependencies[index]? = some d →
        s.Violates selection c.id d → (c.id, index) ∈ edges := by
  constructor
  · intro h
    refine ⟨h.otherEdges fun c hc d hd => ?_, fun c hc d index hindex hv => ?_⟩
    · obtain ⟨index, hindex, hout⟩ := (c.mem_withoutEdges _).1 hd
      exact absurd (mem_edges.2 ⟨c, hc, rfl, d, hindex⟩) hout
    · by_contra hkept
      exact h.not_violates c hc d ((c.mem_withoutEdges _).2 ⟨index, hindex, hkept⟩) hv
  · rintro ⟨h, hviolated⟩
    refine h.otherEdges fun c hc d hd hv => ?_
    obtain ⟨index, hindex, hout⟩ := (c.mem_withoutEdges _).1 hd
    exact hout (hviolated c hc d index hindex hv)

/-- The places of dependencies are distinct. -/
theorem Indexed.nodup_edges (h : s.Indexed) : s.edges.Nodup := by
  have hids : s.records.Pairwise fun a b => a.id ≠ b.id := List.pairwise_map.1 h.nodup
  rw [edges, List.nodup_flatMap]
  refine ⟨fun c _ => List.nodup_range.map fun a b hab => (Prod.mk.inj hab).2, hids.imp ?_⟩
  intro a b hab e ha hb
  obtain ⟨m, -, rfl⟩ := List.mem_map.1 ha
  obtain ⟨n, -, heq⟩ := List.mem_map.1 hb
  exact hab (Prod.mk.inj heq).1.symm

/-- The places of the dependencies that explanations name. -/
def edgesNamed (s : Store) (explanations : List Explanation) : List Edge :=
  s.edges.filter fun e => explanations.any fun x =>
    x.source.id = e.1 && s.dependency? e = some x.dependency

end Store

namespace Instance

variable {i : Instance} {w : Choice → Bool}

/-! ### Waivers -/

/-- The valuation of a selection that waives some dependencies and gives up all targets. -/
def waiving (s : Store) (edges : List Edge) (selection : List CandidateId) : Choice → Bool
  | .candidate id => selection.contains id || !s.contains id
  | .unmet _ => true
  | .waived source index => edges.contains (source, index)
  | _ => false

namespace Grounded

/-- **A selection that is consistent without some dependencies obeys the instance** where these
are waived. -/
theorem obeys_waiving (h : i.Grounded) {edges : List Edge} {selection : List CandidateId}
    (hpurpose : i.purpose = .explain ∨ (i.purpose = .select ∧ edges = []))
    (hcon : (i.store.withoutEdges edges).Consistent i.asked selection) :
    i.Obeys (waiving i.store edges selection) := by
  have hfixed : i.purpose.isRepair = false := by
    rcases hpurpose with hp | ⟨hp, -⟩ <;> rw [hp] <;> rfl
  have hedges : i.store.withoutEdges (i.waivedEdges (waiving i.store edges selection)) =
      i.store.withoutEdges edges := by
    refine Store.withoutEdges_congr fun e he => ?_
    rw [mem_waivedEdges, and_iff_right he, Waives]
    rcases hpurpose with hp | ⟨hp, rfl⟩
    · simp [hp, waiving]
    · simp [hp]
  have hknown : ∀ id ∈ selection, id ∈ i.store.ids := by simpa using hcon.known
  have hchosen : ∀ id, id ∈ selection ↔ id ∈ i.chosen (waiving i.store edges selection) := by
    intro id
    rw [chosen, List.mem_filter, h.order, waiving, Bool.or_eq_true, Bool.not_eq_true',
      ← Bool.not_eq_true, Store.contains_iff, List.contains_eq_mem, decide_eq_true_eq]
    constructor
    · exact fun hid => ⟨hknown id hid, Or.inl hid⟩
    · rintro ⟨hid, hor⟩
      exact hor.resolve_right (not_not_intro hid)
  refine (h.obeys_iff hfixed).2 ⟨hedges ▸ hcon.congr hchosen, fun _ _ _ _ _ _ _ => Or.inr rfl,
    fun id hid => ?_⟩
  rw [waiving, Bool.or_eq_true, Bool.not_eq_true', ← Bool.not_eq_true, Store.contains_iff,
    List.contains_eq_mem, decide_eq_true_eq]
  by_cases hin : id ∈ i.store.ids
  · exact Or.inl (hcon.preselected id (mem_asked.2 ⟨hid, hin⟩))
  · exact Or.inr hin

/-- **To obey an instance that explains** is to waive what the selection violates. -/
theorem obeys_explain_iff (h : i.Grounded) (hpurpose : i.purpose = .explain) : i.Obeys w ↔
    ((i.store.withoutEdges i.store.edges).Consistent i.asked (i.chosen w) ∧ i.Heeds w ∧
      ∀ id ∈ i.preselected, w (.candidate id) = true) ∧
    ∀ c ∈ i.store.records, ∀ d index, c.descriptor.dependencies[index]? = some d →
      i.store.Violates (i.chosen w) c.id d → w (.waived c.id index) = true := by
  have hwaived : ∀ c ∈ i.store.records, ∀ d index, c.descriptor.dependencies[index]? = some d →
      ((c.id, index) ∈ i.waivedEdges w ↔ w (.waived c.id index) = true) := fun c hc d index hd =>
    (mem_waivedEdges_iff hc hd).trans (and_iff_right hpurpose)
  rw [h.obeys_iff (by rw [hpurpose]; rfl), Store.consistent_withoutEdges_iff]
  constructor
  · rintro ⟨⟨hcon, hviolated⟩, hrest⟩
    exact ⟨⟨hcon, hrest⟩, fun c hc d index hd hv =>
      (hwaived c hc d index hd).1 (hviolated c hc d index hd hv)⟩
  · rintro ⟨⟨hcon, hrest⟩, hviolated⟩
    exact ⟨⟨hcon, fun c hc d index hd hv =>
      (hwaived c hc d index hd).2 (hviolated c hc d index hd hv)⟩, hrest⟩

/-- **Choices waive just what their selection violates**, if no waiver can be left out. -/
theorem waived_iff_violates (hi : i.Grounded) (hpurpose : i.purpose = .explain) {made : List Choice}
    (hobeys : i.Obeys made.contains) {c : Candidate} (hc : c ∈ i.store.records) {d : Dependency}
    {index : Nat} (hd : c.descriptor.dependencies[index]? = some d)
    (hneeded : .waived c.id index ∈ made →
      ¬i.Obeys fun x => decide (x ≠ .waived c.id index) && made.contains x) :
    .waived c.id index ∈ made ↔ i.store.Violates (i.chosen made.contains) c.id d := by
  obtain ⟨hrest, hviolated⟩ := (hi.obeys_explain_iff hpurpose).1 hobeys
  constructor
  · intro hwaived
    by_contra hmet
    -- without this waiver everything would be as well
    refine hneeded hwaived ?_
    have hchosen : (i.chosen fun x => decide (x ≠ .waived c.id index) && made.contains x) =
        i.chosen made.contains := List.filter_congr fun id _ => by simp
    refine (hi.obeys_explain_iff hpurpose).2 ⟨?_, fun a ha e n he hv => ?_⟩
    · rw [hchosen]
      simpa [Heeds] using hrest
    · rw [hchosen] at hv
      have hother : Choice.waived a.id n ≠ .waived c.id index := by
        intro heq
        obtain ⟨hac, rfl⟩ := Choice.waived.inj heq
        obtain rfl := hi.indexed.eq_of_id_eq ha hc hac
        rw [hd, Option.some.injEq] at he
        exact hmet (he ▸ hv)
      rw [Bool.and_eq_true, decide_eq_true_eq]
      exact ⟨hother, hviolated a ha e n he hv⟩
  · intro hv
    simpa using hviolated c hc d index hd hv

end Grounded

namespace Best

variable {made : List Choice}

/-- **The best choices waive just what their selection violates.** -/
theorem waived_iff_violates (h : i.Best made) (hi : i.Grounded) (hpurpose : i.purpose = .explain)
    (hfits : i.store.edges.length < UInt64.size) {c : Candidate} (hc : c ∈ i.store.records)
    {d : Dependency} {index : Nat} (hd : c.descriptor.dependencies[index]? = some d) :
    .waived c.id index ∈ made ↔ i.store.Violates (i.chosen made.contains) c.id d := by
  obtain ⟨rest, htiers⟩ := tiers_explain hpurpose
  exact hi.waived_iff_violates hpurpose h.obeys hc hd fun hwaived =>
    h.not_obeys_without htiers (hi.spent_waiver_lt hfits) hwaived rfl Nat.one_pos

end Best
end Instance

namespace Solver

variable {s : Solver} {f : Failure} {made : List Choice}

/-- What was asked for as far as there is such a candidate. -/
def asked (s : Solver) : List CandidateId := s.preselected.filter s.store.contains

/-! ### How solving fails -/

/-- **Solving fails with the analysis** where there is nothing to select. -/
theorem solve_eq_failure_iff : s.solve = .ok (.failure f) ↔
    s.best .select = .ok none ∧ s.analyze = .ok f := by
  rw [solve]
  cases s.best .select with
  | error e => simp [bind, Except.bind]
  | ok made? =>
      cases made? with
      | some made => simp [bind, Except.bind, pure, Except.pure]
      | none =>
          cases s.analyze with
          | error e => simp [bind, Except.bind]
          | ok f => simp [bind, Except.bind, pure, Except.pure]

/-- **How the analysis ends**: without any explanation, or with those of the best choices and
with the fix that the search for stand-ins gives. -/
theorem analyze_cases (h : s.analyze = .ok f) :
    (s.best .explain = .ok none ∧ f = ⟨[], none⟩) ∨
      ∃ made, s.best .explain = .ok (some made) ∧
        f.explanations = (s.waivers made).filterMap (s.explain made) ∧
        s.fix made (StandIn.synthesize (missing f.explanations)) = .ok f.fix? := by
  rw [analyze] at h
  cases hexplain : s.best .explain with
  | error e => simp [hexplain, bind, Except.bind] at h
  | ok made? =>
      rw [hexplain] at h
      cases made? with
      | none =>
          simp only [bind, Except.bind, pure, Except.pure, Except.ok.injEq] at h
          exact Or.inl ⟨rfl, h.symm⟩
      | some made =>
          simp only [bind, Except.bind] at h
          cases hfix : s.fix made (StandIn.synthesize (missing
              ((s.waivers made).filterMap (s.explain made)))) with
          | error e => simp [hfix] at h
          | ok fix? =>
              rw [hfix] at h
              obtain rfl := Except.ok.inj h
              exact Or.inr ⟨made, rfl, rfl, hfix⟩

/-- Where solving fails no selection is consistent. -/
theorem not_consistent_of_best (h : (s.posed .select).Grounded) (ho : s.order.Nodup)
    (hg : ∀ g ∈ s.store.groups, g.members.Nodup) (hfits : s.store.edges.length < UInt64.size)
    (hbest : s.best .select = .ok none) (selection : List CandidateId) :
    ¬s.store.Consistent s.asked selection := by
  intro hcon
  have hnothing : (s.store.withoutEdges []).Consistent s.asked selection := by
    rwa [Store.withoutEdges_nil]
  exact not_obeys_of_best h ho hg (fits_posed h hfits rfl) hbest _
    (h.obeys_waiving (Or.inr ⟨rfl, rfl⟩) hnothing)

/-! ### What explanations name -/

/-- The waivers that are reported are those that are made, in some order. -/
theorem waivers_perm (s : Solver) (made : List Choice) :
    (s.waivers made).Perm (made.filterMap Choice.waived?) := List.mergeSort_perm ..

/-- What is reported was waived. -/
theorem mem_waivers {source : CandidateId} {index : Nat} :
    (source, index) ∈ s.waivers made ↔ .waived source index ∈ made :=
  (s.waivers_perm made).mem_iff.trans Choice.mem_waived

/-- **Every waiver is explained** by its candidate and its dependency. -/
theorem explain_eq_some (h : (s.posed .explain).Grounded)
    (hknown : ∀ c ∈ made, c ∈ (s.posed .explain).choices) {e : Edge} (he : e ∈ s.waivers made) :
    ∃ c ∈ s.store.records, c.id = e.1 ∧
      ∃ d, c.descriptor.dependencies[e.2]? = some d ∧ d.relation.isHard = true ∧
        s.explain made e = some ⟨.ofCandidate c, d, s.present made e.1 d⟩ := by
  obtain ⟨-, c, hc, hid, d, hd, hhard⟩ := h.occurs (hknown _ (mem_waivers.1 he))
  refine ⟨c, hc, hid, d, hd, hhard, ?_⟩
  have hget : s.store.get? e.1 = some c := h.indexed.get?_eq_some_iff.2 ⟨hc, hid⟩
  rw [explain, hget]
  simp [hd]

/-- There are as many explanations as waivers. -/
theorem length_explanations (h : (s.posed .explain).Grounded)
    (hknown : ∀ c ∈ made, c ∈ (s.posed .explain).choices) :
    ((s.waivers made).filterMap (s.explain made)).length =
      (made.filterMap Choice.waived?).length := by
  rw [← (s.waivers_perm made).length_eq, List.length_filterMap_eq_countP, List.countP_eq_length]
  intro e he
  obtain ⟨c, -, -, d, -, -, hexplain⟩ := explain_eq_some h hknown he
  rw [hexplain]
  rfl

/-- **Explanations name what is waived**, and nothing else. -/
theorem perm_edgesNamed (h : (s.posed .explain).Grounded) (hbest : (s.posed .explain).Best made)
    (hfits : s.store.edges.length < UInt64.size) :
    (s.store.edgesNamed ((s.waivers made).filterMap (s.explain made))).Perm
      (made.filterMap Choice.waived?) := by
  have hindexed : s.store.Indexed := h.indexed
  refine (List.perm_ext_iff_of_nodup (hindexed.nodup_edges.filter _)
    (List.Nodup.filterMap (fun _ _ _ ha hb => Choice.waived?_inj ha hb) hbest.nodup)).2 ?_
  rintro ⟨source, index⟩
  rw [← (s.waivers_perm made).mem_iff]
  simp only [List.mem_filter, List.any_eq_true, Bool.and_eq_true,
    decide_eq_true_eq, List.mem_filterMap]
  constructor
  · rintro ⟨-, x, ⟨e, he, hx⟩, hsource, hd⟩
    obtain ⟨c, hc, hid, d, hcd, -, hexplain⟩ := explain_eq_some h hbest.known he
    obtain rfl := Option.some.inj (hexplain.symm.trans hx)
    obtain ⟨a, ha, haid, had⟩ := hindexed.dependency?_eq_some_iff.1 hd
    obtain rfl := hindexed.eq_of_id_eq hc ha (hsource.trans haid.symm)
    -- the same dependency is violated here as it is there
    have hv := (hbest.waived_iff_violates h rfl hfits hc hcd).1 (hid ▸ mem_waivers.1 he)
    rw [mem_waivers]
    obtain rfl : c.id = source := hsource
    exact (hbest.waived_iff_violates h rfl hfits hc had).2 hv
  · intro he
    obtain ⟨c, hc, rfl, d, hd, -, hexplain⟩ := explain_eq_some h hbest.known he
    refine ⟨Store.mem_edges.2 ⟨c, hc, rfl, d, hd⟩, _, ⟨_, he, hexplain⟩, rfl, ?_⟩
    exact hindexed.dependency?_eq_some_iff.2 ⟨c, hc, rfl, hd⟩

/-- **No fewer dependencies are in the way of a consistent selection.** -/
theorem length_waived_le (h : (s.posed .explain).Grounded) (hbest : (s.posed .explain).Best made)
    (hfits : s.store.edges.length < UInt64.size) {edges : List Edge} {selection : List CandidateId}
    (hcon : (s.store.withoutEdges edges).Consistent s.asked selection) :
    (made.filterMap Choice.waived?).length ≤ edges.length := by
  have hobeys := h.obeys_waiving (Or.inl rfl) hcon
  obtain ⟨rest, htiers⟩ := Instance.tiers_explain (i := s.posed .explain) rfl
  have hle := hbest.spent_le htiers (h.spent_waiver_lt hfits) hobeys
  rw [Instance.spent_waiver, Instance.spent_waiver] at hle
  refine Nat.le_trans hle ?_
  have hnodup := List.Nodup.filterMap (fun _ _ _ ha hb => Choice.waived?_inj ha hb)
    ((s.posed .explain).closed_encode.nodup.filter
      (Instance.waiving (s.posed .explain).store edges selection))
  refine (hnodup.subperm ?_).length_le
  rintro ⟨source, index⟩ he
  simpa [Instance.waiving] using (List.mem_filter.1 (Choice.mem_waived.1 he)).2

/-- **Explanations name a smallest cause.**  Without the dependencies that they name some
selection is consistent, the one of the best choices when dependencies may be waived; no fewer
dependencies do, and each of those that are named is violated by this selection.  There is no
explanation only where nothing is consistent even without any hard dependency.  Dependencies
can be counted in a word, as they can on every machine. -/
theorem explanations_smallest_cause (hs : s.store.Prepared)
    (hg : ∀ g ∈ s.store.groups, g.members.Nodup) (ho : s.order.Perm s.store.ids)
    (hfits : s.store.edges.length < UInt64.size) (h : s.solve = .ok (.failure f)) :
    (f.explanations = [] → ∀ selection,
      ¬(s.store.withoutEdges s.store.hardEdges).Consistent s.asked selection) ∧
    (f.explanations ≠ [] → ∃ made, s.best .explain = .ok (some made) ∧
      (s.store.withoutEdges (s.store.edgesNamed f.explanations)).Consistent s.asked
        (s.selection made) ∧
      s.store.edgesNamed f.explanations ⊆ s.store.hardEdges ∧
      (s.store.edgesNamed f.explanations).length = f.explanations.length ∧
      (∀ edges selection, edges.length < f.explanations.length →
        ¬(s.store.withoutEdges edges).Consistent s.asked selection) ∧
      ∀ x ∈ f.explanations, ∃ c ∈ s.store.records, x.source = .ofCandidate c ∧
        x.dependency ∈ c.descriptor.dependencies ∧
        s.store.Violates (s.selection made) c.id x.dependency) := by
  have hground := grounded_posed hs.indexed hs.ranked ho
  have hnodup : s.order.Nodup := ho.nodup_iff.2 hs.indexed.nodup
  have hexplain := hground .explain
  have hweights := fits_posed hexplain hfits rfl
  obtain ⟨hselect, hanalyze⟩ := solve_eq_failure_iff.1 h
  have hnone := not_consistent_of_best (hground .select) hnodup hg hfits hselect
  rcases analyze_cases hanalyze with ⟨hbest, rfl⟩ | ⟨made, hbest, hexplanations, -⟩
  · refine ⟨fun _ selection hcon => ?_, fun hne => absurd rfl hne⟩
    exact not_obeys_of_best hexplain hnodup hg hweights hbest _
      (hexplain.obeys_waiving (Or.inl rfl) hcon)
  have hmade := best_spec hexplain hnodup hg hweights hbest
  have hperm := perm_edgesNamed hexplain hmade hfits
  have hlength := length_explanations hexplain hmade.known
  rw [← hexplanations] at hperm hlength
  have hcon : (s.store.withoutEdges (s.store.edgesNamed f.explanations)).Consistent s.asked
      (s.selection made) := by
    obtain ⟨⟨hbase, -⟩, hviolated⟩ := (hexplain.obeys_explain_iff rfl).1 hmade.obeys
    refine Store.consistent_withoutEdges_iff.2 ⟨hbase, fun c hc d index hd hv => ?_⟩
    rw [hperm.mem_iff, ← (s.waivers_perm made).mem_iff, mem_waivers]
    simpa using hviolated c hc d index hd hv
  refine ⟨fun hempty => ?_, fun _ => ⟨made, hbest, hcon, fun e he => ?_,
    hperm.length_eq.trans hlength.symm, fun edges selection hfewer hother => ?_, fun x hx => ?_⟩⟩
  · -- nothing is waived, so that solving would not have failed
    rw [hempty] at hcon
    have hnothing : s.store.edgesNamed [] = [] := List.filter_eq_nil_iff.2 fun e _ => by simp
    rw [hnothing, Store.withoutEdges_nil] at hcon
    exact absurd hcon (hnone _)
  · rw [hperm.mem_iff, ← (s.waivers_perm made).mem_iff] at he
    obtain ⟨c, hc, hid, d, hd, hhard, -⟩ := explain_eq_some hexplain hmade.known he
    refine List.mem_filter.2 ⟨Store.mem_edges.2 ⟨c, hc, hid, d, hd⟩, ?_⟩
    rw [hs.indexed.dependency?_eq_some_iff.2 ⟨c, hc, hid, hd⟩]
    exact hhard
  · have hle := length_waived_le hexplain hmade hfits hother
    omega
  · rw [hexplanations] at hx
    obtain ⟨e, he, hx⟩ := List.mem_filterMap.1 hx
    obtain ⟨c, hc, hid, d, hd, -, hsome⟩ := explain_eq_some hexplain hmade.known he
    obtain rfl := Option.some.inj (hsome.symm.trans hx)
    refine ⟨c, hc, rfl, List.mem_of_getElem? hd, ?_⟩
    exact (hmade.waived_iff_violates hexplain rfl hfits hc hd).1 (hid ▸ mem_waivers.1 he)

/-- A mod needs what is not there, and another one rules it out. -/
def unwelcome : Store :=
  [found { id := "app", version := versionOne, dependencies := [⟨.depends, "lib", .any⟩] } none,
    found { id := "user", version := versionOne, dependencies := [⟨.breaks, "app", .any⟩] } none].foldl
      Store.inserted .empty

/-- The store of `unwelcome` is built by inserting. -/
theorem unwelcome_built : unwelcome.Built := Store.Built.empty.foldl _

/-- The store of `unwelcome` cannot be loaded; without the dependencies that are named it can, and
fewer do not do. -/
theorem explanations_smallest_cause_unwelcome : ∃ f,
    (Solver.mk unwelcome [1, 0] [] .never).solve = .ok (.failure f) ∧ f.explanations ≠ [] ∧
      ∃ selection, (unwelcome.withoutEdges (unwelcome.edgesNamed f.explanations)).Consistent []
        selection ∧ ∀ edges other, edges.length < f.explanations.length →
          ¬(unwelcome.withoutEdges edges).Consistent [] other := by
  generalize hs : Solver.mk unwelcome [1, 0] [] .never = s
  have hselect : s.best .select = .ok none := by
    rw [← hs]
    decide +kernel
  have hexplain : s.best .explain =
      .ok (some [.candidate 1, .candidate 0, .waived 1 0, .waived 0 0]) := by
    rw [← hs]
    decide +kernel
  obtain ⟨f, hf⟩ : ∃ f, s.analyze = .ok f := by
    cases hanalyze : s.analyze with
    | ok f => exact ⟨f, rfl⟩
    | error e =>
        obtain ⟨k, hk⟩ := up_of_analyze_eq_error hanalyze
        rw [← hs] at hk
        exact absurd hk Bool.false_ne_true
  have h := solve_eq_failure_iff.2 ⟨hselect, hf⟩
  have hne : f.explanations ≠ [] := by
    rcases analyze_cases hf with ⟨hnone, -⟩ | ⟨made, hmade, hexplanations, -⟩
    · exact absurd (hexplain.symm.trans hnone) (by simp)
    · obtain rfl := Option.some.inj (Except.ok.inj (hexplain.symm.trans hmade))
      have hsome : (s.explain [.candidate 1, .candidate 0, .waived 1 0, .waived 0 0]
          (0, 0)).isSome = true := by
        rw [← hs]
        decide +kernel
      obtain ⟨x, hx⟩ := Option.isSome_iff_exists.1 hsome
      rw [hexplanations]
      exact List.ne_nil_of_mem (List.mem_filterMap.2 ⟨(0, 0), mem_waivers.2 (by decide), hx⟩)
  subst hs
  have hgroups : ∀ g ∈ unwelcome.groups, g.members.Nodup := by decide +kernel
  have horder : [1, 0].Perm unwelcome.ids := by decide +kernel
  have hfits : unwelcome.edges.length < UInt64.size := by decide +kernel
  obtain ⟨made, -, hcon, -, -, hfewer, -⟩ := (explanations_smallest_cause
    (.built unwelcome_built) hgroups horder hfits h).2 hne
  exact ⟨f, h, hne, _, hcon, hfewer⟩

end Solver
end Loadout
