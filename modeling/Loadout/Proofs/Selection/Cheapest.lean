/-
# Fixes are cheapest

A root whose identifier something else provides need not be removed
(`Instance.Grounded.obeys_without_removed`), and removing it costs.  So what the best choices
remove is not replaced as well, and is all told as removed (`Solver.map_id_removals`); a fix
costs what its choices cost (`Solver.cost_readFix`), which is least
(`Instance.Grounded.spent_change_le`).  It is not empty, because choices that change nothing
would have been found when solving (`Solver.Repairs.obeys_select`).
-/

import Loadout.Proofs.Selection.Exceptions
import Loadout.Proofs.Selection.Repair

namespace Loadout
namespace Instance

variable {i : Instance} {w : Choice → Bool} {made : List Choice}

/-- **Changes that would do**: the rules can be met where only some stand-ins are added and
only some roots are removed. -/
def FeasibleWith (i : Instance) (adds : List StandIn) (removes : List CandidateId) : Prop :=
  ∃ w, i.encode.rules.holds w = true ∧
    (∀ n a, i.standIns[n]? = some a → w (.added n) = true → a ∈ adds) ∧
      ∀ id, w (.removed id) = true → id ∈ removes

/-! ### Needless removals -/

/-- Whether roots are removed is about roots alone: all other conditions hold as before. -/
theorem Obeys.of_removals (h : i.Obeys w) {v : Choice → Bool}
    (hsame : ∀ x, x.removed? = none → v x = w x)
    (hroot : ∀ c ∈ i.store.records, c.isRoot = true → c.load = .always → i.Drops w c →
      (∃ o ∈ i.offers, v o.choice = true ∧ o.provides c.identifier = true) ∨ i.Drops v c)
    (hdropped : ∀ c, i.Drops v c → i.Drops w c) : i.Obeys v := by
  have hoffer : ∀ o ∈ i.offers, v o.choice = w o.choice := fun o ho => hsame _ (by
    rcases mem_offers.1 ho with ⟨c, -, rfl⟩ | ⟨a, n, -, rfl⟩ <;> rfl)
  have hcandidate : ∀ id, v (.candidate id) = w (.candidate id) := fun id => hsame _ rfl
  have hwaives : ∀ source index, i.Waives w source index → i.Waives v source index :=
    fun source index hw => ⟨hw.1, (hsame _ rfl).trans hw.2⟩
  have htaken : ∀ {P : Offer → Prop}, (∃ o ∈ i.offers, P o ∧ w o.choice = true) →
      ∃ o ∈ i.offers, P o ∧ v o.choice = true := by
    rintro P ⟨o, ho, hP, hw⟩
    exact ⟨o, ho, hP, (hoffer o ho).trans hw⟩
  have hprovided : ∀ {key : String}, (∃ o ∈ i.offers, w o.choice = true ∧ o.provides key = true) →
      ∃ o ∈ i.offers, v o.choice = true ∧ o.provides key = true := by
    rintro key ⟨o, ho, hw, hp⟩
    exact ⟨o, ho, (hoffer o ho).trans hw, hp⟩
  exact {
    depends := fun c hc hs d index hd hr =>
      (h.depends c hc ((hcandidate _).symm.trans hs) d index hd hr).imp htaken (hwaives _ _)
    recommends := fun c hc hs d hd hr hex =>
      (h.recommends c hc ((hcandidate _).symm.trans hs) d hd hr hex).imp htaken
        fun hunmet => (hsame _ rfl).trans hunmet
    breaks := fun c hc hs d index hd hr o ho hod hne hv =>
      hwaives _ _ (h.breaks c hc ((hcandidate _).symm.trans hs) d index hd hr o ho hod hne
        ((hoffer o ho).symm.trans hv))
    single := fun a ha b hb has hbs =>
      h.single a ha b hb ((hoffer a ha).symm.trans has) ((hoffer b hb).symm.trans hbs)
    contained := fun c hc hs hr => by
      obtain ⟨p, hp, hw⟩ := h.contained c hc ((hcandidate _).symm.trans hs) hr
      exact ⟨p, hp, (hcandidate p).trans hw⟩
    root := fun c hc hr hl => (h.root c hc hr hl).elim (fun hp => Or.inl (hprovided hp))
      (hroot c hc hr hl)
    dropped := fun c hc hr hl hdrop =>
      (hcandidate _).trans (h.dropped c hc hr hl (hdropped c hdrop))
    nested := fun c hc hr hl p hp hs =>
      hprovided (h.nested c hc hr hl p hp ((hcandidate _).symm.trans hs))
    preselected := fun id hid => (hcandidate id).trans (h.preselected id hid) }

/-- **A root whose identifier is provided need not be removed.** -/
theorem Grounded.obeys_without_removed (h : i.Grounded) (hw : i.Obeys w) {c : Candidate}
    (hc : c ∈ i.store.records) {o : Offer} (ho : o ∈ i.offers) (htaken : w o.choice = true)
    (hp : o.provides c.identifier = true) :
    i.Obeys fun x => decide (x ≠ .removed c.id) && w x := by
  refine hw.of_removals (fun x hx => ?_) (fun a ha hr hl hdrop => ?_) fun a hdrop => ?_
  · have hne : x ≠ .removed c.id := fun heq => by
      rw [heq] at hx
      exact absurd hx (by simp [Choice.removed?])
    simp [hne]
  · by_cases hac : a.id = c.id
    · obtain rfl := h.indexed.eq_of_id_eq ha hc hac
      refine Or.inl ⟨o, ho, ?_, hp⟩
      rcases mem_offers.1 ho with ⟨c, -, rfl⟩ | ⟨b, n, -, rfl⟩ <;> simpa using htaken
    · exact Or.inr ⟨hdrop.1, hdrop.2.1, by simpa [hac] using hdrop.2.2⟩
  · have hkept := hdrop.2.2
    rw [Bool.and_eq_true] at hkept
    exact ⟨hdrop.1, hdrop.2.1, hkept.2⟩

/-- **What the best choices remove is not provided.** -/
theorem Best.not_provided_of_removed (h : i.Best made) (hi : i.Grounded) {standIns : List StandIn}
    (hpurpose : i.purpose = .repair standIns) (hsize : i.store.size + i.standIns.length < 2 ^ 32)
    {c : Candidate} (hc : c ∈ i.store.records) (hremoved : .removed c.id ∈ made) {o : Offer}
    (ho : o ∈ i.offers) (htaken : o.choice ∈ made) : o.provides c.identifier = false := by
  obtain ⟨rest, htiers⟩ := tiers_repair hpurpose
  rw [← Bool.not_eq_true]
  intro hp
  exact h.not_obeys_without htiers (hi.spent_change_lt hsize) hremoved rfl Nat.two_pos
    (hi.obeys_without_removed h.obeys hc ho (by simpa using htaken) hp)

/-! ### What changes cost -/

/-- **Changes cost no more than those that they are among.** -/
theorem Grounded.spent_change_le (h : i.Grounded) (hw : i.Obeys w) {adds : List StandIn}
    {removes : List CandidateId}
    (hadds : ∀ n a, i.standIns[n]? = some a → w (.added n) = true → a ∈ adds)
    (hremoves : ∀ id, w (.removed id) = true → id ∈ removes) :
    spent changeCost? (i.choices.filter w) ≤ adds.length + 2 * removes.length := by
  have hnodup : (i.choices.filter w).Nodup := i.closed_encode.nodup.filter w
  have hadded : ((i.choices.filter w).filterMap Choice.added?).length ≤ adds.length := by
    generalize hplaces : (i.choices.filter w).filterMap Choice.added? = places
    have hplace : ∀ n ∈ places, w (.added n) = true ∧ ∃ a, i.standIns[n]? = some a := by
      intro n hn
      rw [← hplaces, Choice.mem_added, List.mem_filter] at hn
      exact ⟨hn.2, _, List.getElem?_eq_getElem (h.occurs hn.1)⟩
    -- different places have stand-ins of different identifiers
    have hdistinct : (places.map fun n => i.standIns[n]?).Nodup := by
      have hplacesNodup : places.Nodup :=
        hplaces ▸ List.Nodup.filterMap (fun _ _ _ ha hb => Choice.added?_inj ha hb) hnodup
      refine hplacesNodup.map_on fun n hn m hm hnm => ?_
      obtain ⟨hwn, a, ha⟩ := hplace n hn
      exact hw.added_unique ha (hnm ▸ ha) hwn (hplace m hm).1 rfl
    have hsub : places.map (fun n => i.standIns[n]?) ⊆ adds.map some := by
      intro x hx
      obtain ⟨n, hn, rfl⟩ := List.mem_map.1 hx
      obtain ⟨hwn, a, ha⟩ := hplace n hn
      exact ha ▸ List.mem_map_of_mem (hadds n a ha hwn)
    simpa using (hdistinct.subperm hsub).length_le
  have hremoved : ((i.choices.filter w).filterMap Choice.removed?).length ≤ removes.length := by
    refine ((List.Nodup.filterMap (fun _ _ _ ha hb => Choice.removed?_inj ha hb)
      hnodup).subperm fun id hid => ?_).length_le
    exact hremoves id (List.mem_filter.1 (Choice.mem_removed.1 hid)).2
  rw [spent_change]
  omega

end Instance

namespace Solver

variable {s : Solver} {explained made : List Choice} {standIns : List StandIn}

namespace Repairs

/-- The best choices of a repair obey its instance and are about something. -/
theorem of_best (hground : (s.posed (.repair standIns)).Grounded) (hranked : s.store.Ranked)
    (h : (s.posed (.repair standIns)).Best made) : s.Repairs standIns made :=
  ⟨hground, hranked, h.obeys, fun c hc => hground.occurs (h.known c hc)⟩

/-- **Choices that change nothing** would do without changes. -/
theorem obeys_select (h : s.Repairs standIns made) (hadded : addedStandIns standIns made = [])
    (hremoved : s.removals made = []) :
    (s.posed .select).Obeys (Instance.plain made.contains) := by
  refine h.obeys.plain_contains (fun c hc => ?_) .select
  rw [← Bool.not_eq_true]
  intro hexception
  have hoccurs := h.occurs c hc
  rcases hoccurs.isException_cases hexception with ⟨hpurpose, -⟩ | ⟨-, ⟨n, rfl⟩ | ⟨id, rfl⟩⟩
  · exact absurd hpurpose (by simp [posed])
  · have hlt : n < standIns.length := hoccurs
    have hin := mem_addedStandIns.2 ⟨n, List.getElem?_eq_getElem hlt, hc⟩
    exact absurd (hadded ▸ hin) List.not_mem_nil
  · exact absurd (hremoved ▸ mem_removals.2 hc) List.not_mem_nil

/-- **A fix changes something** where nothing can be selected without changes. -/
theorem isEmpty_readFix (h : s.Repairs standIns made) (hnone : ∀ w, ¬(s.posed .select).Obeys w)
    (explained : List Choice) : (s.readFix explained standIns made).isEmpty = false := by
  rw [← Bool.not_eq_true]
  intro hempty
  rw [Fix.isEmpty, Bool.and_eq_true, Bool.and_eq_true, List.isEmpty_iff, List.isEmpty_iff,
    List.isEmpty_iff] at hempty
  obtain ⟨⟨hadditions, hremovals⟩, hreplacements⟩ := hempty
  have hbrought := s.perm_brought explained standIns made
  rw [Fix.brought, hadditions, hreplacements] at hbrought
  -- where nothing is replaced, all that is removed is told
  have hremoved : s.removals made = [] := by
    refine List.eq_nil_iff_forall_not_mem.2 fun id hid => ?_
    obtain ⟨-, c, hc, rfl, -⟩ := h.occurs _ (mem_removals.1 hid)
    have htold := removals_readFix s explained standIns made
    rw [hremovals, hreplacements, eq_comm, List.map_eq_nil_iff] at htold
    exact List.ne_nil_of_mem (h.indexed.mem_getAll_iff.2 ⟨hc, by simpa using hid⟩) htold
  exact hnone _ (h.obeys_select hbrought.nil_eq.symm hremoved)

end Repairs

/-! ### What a fix tells -/

section Tells

variable (hground : (s.posed (.repair standIns)).Grounded)
  (hsize : s.store.size + standIns.length < 2 ^ 32) (h : (s.posed (.repair standIns)).Best made)

include hground hsize h

/-- **All that is removed is told as removed**: none of it is replaced. -/
theorem map_id_removals (explained : List Choice) :
    (s.readFix explained standIns made).removals.map (·.id) = s.removals made := by
  have hfilter : (s.removals made).filter (fun id =>
      !(s.readFix explained standIns made).replacements.any fun x => x.1.id = id) =
        s.removals made := by
    refine List.filter_eq_self.2 fun id hid => ?_
    rw [Bool.not_eq_true', ← Bool.not_eq_true]
    intro hany
    obtain ⟨x, hx, hxid⟩ := List.any_eq_true.1 hany
    have hreplaced := ((s.foldl_addStandIn_spec explained (addedStandIns standIns made) {}).2
      id).1 ⟨x, hx, by simpa using hxid⟩
    rcases hreplaced with ⟨x, hx, -⟩ | ⟨a, ha, old, hold, rfl⟩
    · exact absurd hx List.not_mem_nil
    · obtain ⟨hmem, hsame⟩ := replacedBy_spec hold
      obtain ⟨n, hn, hadded⟩ := mem_addedStandIns.1 ha
      have hnot := h.not_provided_of_removed hground rfl hsize hmem (mem_removals.1 hid)
        (Instance.ofStandIn_mem_offers hn) hadded
      exact absurd (hnot.symm.trans (by simp [hsame])) Bool.false_ne_true
  rw [removals_readFix, hfilter, List.map_map]
  refine s.store.map_id_getAll fun id hid => ?_
  obtain ⟨-, c, hc, rfl, -⟩ := hground.occurs (h.known _ (mem_removals.1 hid))
  exact Store.mem_ids.2 ⟨c, hc, rfl⟩

omit hsize in
/-- As many stand-ins come in as choices add. -/
theorem length_addedStandIns :
    (addedStandIns standIns made).length = (made.filterMap Choice.added?).length := by
  have hperm : ((standIns.zipIdx.filter fun x => made.contains (.added x.2)).map (·.2)).Perm
      (made.filterMap Choice.added?) := by
    have hplaces : (standIns.zipIdx.map Prod.snd).Nodup := List.nodup_zipIdx_map_snd _
    refine (List.perm_ext_iff_of_nodup (hplaces.sublist (List.filter_sublist.map _))
      (List.Nodup.filterMap (fun _ _ _ ha hb => Choice.added?_inj ha hb) h.nodup)).2 fun n => ?_
    rw [Choice.mem_added]
    simp only [List.mem_map, List.mem_filter, Prod.exists, List.mem_zipIdx_iff_getElem?,
      List.contains_eq_mem, decide_eq_true_eq]
    constructor
    · rintro ⟨a, m, ⟨-, hm⟩, rfl⟩
      exact hm
    · intro hn
      have hlt : n < standIns.length := hground.occurs (h.known _ hn)
      exact ⟨_, n, ⟨List.getElem?_eq_getElem hlt, hn⟩, rfl⟩
  rw [← hperm.length_eq, List.length_map]
  exact List.length_map ..

/-- **A fix costs what its choices cost.** -/
theorem cost_readFix (explained : List Choice) :
    (s.readFix explained standIns made).cost = Instance.spent Instance.changeCost? made := by
  have hbrought := (s.perm_brought explained standIns made).length_eq
  have hremoved := congrArg List.length (map_id_removals hground hsize h explained)
  rw [List.length_map, (s.removals_perm made).length_eq] at hremoved
  rw [Fix.cost, hbrought, hremoved, length_addedStandIns hground h, Instance.spent_change]

/-- The changes of a fix would do. -/
theorem feasibleWith_readFix (explained : List Choice) :
    (s.posed (.repair standIns)).FeasibleWith (s.readFix explained standIns made).brought
      ((s.readFix explained standIns made).removals.map (·.id)) := by
  refine ⟨made.contains, (Instance.holds_encode _ _).2 (hground.holds_iff.2 h.obeys),
    fun n a ha hn => ?_, fun id hid => ?_⟩
  · rw [(s.perm_brought explained standIns made).mem_iff]
    exact mem_addedStandIns.2 ⟨n, ha, by simpa using hn⟩
  · rw [map_id_removals hground hsize h]
    exact mem_removals.2 (by simpa using hid)

/-- **No other changes that would do are cheaper.** -/
theorem cost_readFix_le (explained : List Choice) {adds : List StandIn}
    {removes : List CandidateId} (hother : (s.posed (.repair standIns)).FeasibleWith adds removes) :
    (s.readFix explained standIns made).cost ≤ adds.length + 2 * removes.length := by
  obtain ⟨w, hw, hadds, hremoves⟩ := hother
  have hobeys := hground.holds_iff.1 ((Instance.holds_encode _ w).1 hw)
  obtain ⟨rest, htiers⟩ := Instance.tiers_repair (i := s.posed (.repair standIns)) rfl
  rw [cost_readFix hground hsize h]
  exact Nat.le_trans (h.spent_le htiers (hground.spent_change_lt hsize) hobeys)
    (hground.spent_change_le hobeys hadds hremoves)

end Tells

/-! ### Fixes of failures -/

/-- Fixes are read off the best choices. -/
theorem fix_eq_some_iff {f : Fix} : s.fix explained standIns = .ok (some f) ↔
    ∃ made, s.best (.repair standIns) = .ok (some made) ∧
      s.readFix explained standIns made = f := by
  rw [fix]
  cases s.best (.repair standIns) with
  | error e => simp [bind, Except.bind]
  | ok made? => cases made? <;> simp [bind, Except.bind, pure, Except.pure]

/-- **What a fix is read off**: the best choices where the failure is explained, and the best
ones where mods are repaired.  Nothing obeys the instance as it is. -/
theorem exists_best_of_fix {f : Failure} {F : Fix} (hs : s.store.Prepared)
    (hg : ∀ g ∈ s.store.groups, g.members.Nodup) (ho : s.order.Perm s.store.ids)
    (hfits : s.store.edges.length < UInt64.size)
    (hsize : s.store.size + (StandIn.synthesize (missing f.explanations)).length < 2 ^ 32)
    (h : s.solve = .ok (.failure f)) (hfix : f.fix? = some F) :
    (∀ w, ¬(s.posed .select).Obeys w) ∧ ∃ explained made, s.best .explain = .ok (some explained) ∧
      (s.posed .explain).Best explained ∧
      (s.posed (.repair (StandIn.synthesize (missing f.explanations)))).Best made ∧
      s.readFix explained (StandIn.synthesize (missing f.explanations)) made = F := by
  have hground := grounded_posed hs.indexed hs.ranked ho
  have hnodup : s.order.Nodup := ho.nodup_iff.2 hs.indexed.nodup
  obtain ⟨hselect, hanalyze⟩ := solve_eq_failure_iff.1 h
  refine ⟨not_obeys_of_best (hground .select) hnodup hg (fits_posed (hground _) hfits rfl)
    hselect, ?_⟩
  rcases analyze_cases hanalyze with ⟨-, rfl⟩ | ⟨explained, hexplain, -, hread⟩
  · exact absurd hfix (by simp)
  generalize StandIn.synthesize (missing f.explanations) = standIns at hsize hread ⊢
  rw [hfix] at hread
  obtain ⟨made, hrepair, hF⟩ := fix_eq_some_iff.1 hread
  have hrepairs := hground (.repair standIns)
  have hweights := hrepairs.fits (Nat.lt_of_le_of_lt hrepairs.length_targets_le hfits)
    (fun _ => hfits) fun _ => hsize
  exact ⟨explained, made, hexplain,
    best_spec (hground _) hnodup hg (fits_posed (hground _) hfits rfl) hexplain,
    best_spec hrepairs hnodup hg hweights hrepair, hF⟩

/-- **Fixes work and are cheapest.**  A fix is not empty, and the store without what goes and
what nothing carries any more, with the mods that come in, has a consistent selection with all
that was asked for.  Its changes make the instance that repairs feasible, and no cheaper ones
do: one for each mod that comes in, two for each root that is removed.  Candidates and
stand-ins can be counted in half a word, as their literals have to be. -/
theorem fix_works_and_is_cheapest {f : Failure} {F : Fix} (hs : s.store.Prepared)
    (hg : ∀ g ∈ s.store.groups, g.members.Nodup) (ho : s.order.Perm s.store.ids)
    (hfits : s.store.edges.length < UInt64.size)
    (hsize : s.store.size + (StandIn.synthesize (missing f.explanations)).length < 2 ^ 32)
    (h : s.solve = .ok (.failure f)) (hfix : f.fix? = some F) :
    F.isEmpty = false ∧ (∃ selection, (s.store.amend F).Consistent s.asked selection) ∧
      (s.posed (.repair (StandIn.synthesize (missing f.explanations)))).FeasibleWith F.brought
        (F.removals.map (·.id)) ∧
      ∀ adds removes,
        (s.posed (.repair (StandIn.synthesize (missing f.explanations)))).FeasibleWith adds removes →
          F.cost ≤ adds.length + 2 * removes.length := by
  obtain ⟨hnone, explained, made, -, -, hmade, rfl⟩ :=
    exists_best_of_fix hs hg ho hfits hsize h hfix
  have hground := grounded_posed hs.indexed hs.ranked ho
    (.repair (StandIn.synthesize (missing f.explanations)))
  have hworks := (Repairs.of_best hground hs.ranked hmade).consistent_amend explained
  exact ⟨(Repairs.of_best hground hs.ranked hmade).isEmpty_readFix hnone explained, ⟨_, hworks⟩,
    feasibleWith_readFix hground hsize hmade explained, fun adds removes hother =>
      cost_readFix_le hground hsize hmade explained hother⟩

/-! ### A mod that is missing -/

/-- What could be missing where one dependency on something is waived. -/
theorem missing_of_waived {e : Edge} {d : Dependency}
    (hwaived : explained.filterMap Choice.waived? = [e]) (hd : s.store.dependency? e = some d)
    (hdepends : d.relation = .depends) :
    missing ((s.waivers explained).filterMap (s.explain explained)) = [d] := by
  have hwaivers : s.waivers explained = [e] :=
    List.perm_singleton.1 (hwaived ▸ s.waivers_perm explained)
  obtain ⟨c, hc, hcd⟩ := Option.bind_eq_some_iff.1 hd
  rw [hwaivers]
  simp [explain, hc, hcd, missing, hdepends]

/-- **How solving fails** where one dependency on something is waived, and mods can be
repaired. -/
theorem exists_failure {e : Edge} {d : Dependency} (hselect : s.best .select = .ok none)
    (hexplain : s.best .explain = .ok (some explained))
    (hwaived : explained.filterMap Choice.waived? = [e]) (hd : s.store.dependency? e = some d)
    (hdepends : d.relation = .depends) (hstandIns : StandIn.synthesize [d] = standIns)
    (hrepair : s.best (.repair standIns) = .ok (some made)) :
    ∃ f, s.solve = .ok (.failure f) ∧ StandIn.synthesize (missing f.explanations) = standIns ∧
      f.fix? = some (s.readFix explained standIns made) := by
  have hmissing := missing_of_waived hwaived hd hdepends
  have hfix : s.fix explained standIns = .ok (some (s.readFix explained standIns made)) :=
    fix_eq_some_iff.2 ⟨made, hrepair, rfl⟩
  have hanalyze : s.analyze = .ok ⟨(s.waivers explained).filterMap (s.explain explained),
      some (s.readFix explained standIns made)⟩ := by
    rw [analyze, hexplain]
    simp only [bind, Except.bind, hmissing, hstandIns, hfix]
    rfl
  refine ⟨_, solve_eq_failure_iff.2 ⟨hselect, hanalyze⟩, ?_, rfl⟩
  rw [hmissing, hstandIns]

end Solver

/-- A single interval that has versions is a cluster. -/
theorem Interval.union_singleton {i : Interval} (h : i.isEmpty = false) :
    Interval.union [i] = [i] := by
  simp [union, h, mergeInto]

/-- For one dependency on an interval that has a version to name there is one stand-in. -/
theorem StandIn.synthesize_singleton {d : Dependency} {i : Interval} {v : Version}
    (hd : d.predicate.intervals = [i]) (hi : i.isEmpty = false) (hv : i.representative? = some v) :
    synthesize [d] = [⟨d.target, v⟩] := by
  have htargets : targets [d] = [d.target] := rfl
  have hpredicates : predicatesOn [d] d.target = [d.predicate] := by simp [predicatesOn]
  simp [synthesize, htargets, hpredicates, forTarget, hd, Interval.union_singleton hi,
    commonClusters, hv]

namespace Solver

/-- A mod needs what is not there. -/
def lonely : Store :=
  Store.empty.inserted (found
    { id := "app", version := versionOne, dependencies := [⟨.depends, "lib", .any⟩] } none)

/-- The store of `lonely` is built by inserting. -/
theorem lonely_built : lonely.Built := Store.Built.empty.inserted _

/-- The fix of `lonely` brings the library that is needed, at the lowest cost there is. -/
theorem fix_works_and_is_cheapest_lonely : ∃ f F,
    (Solver.mk lonely [0] [] .never).solve = .ok (.failure f) ∧ f.fix? = some F ∧
      F.isEmpty = false ∧ (∃ selection, (lonely.amend F).Consistent [] selection) ∧
      ∀ adds removes, ((Solver.mk lonely [0] [] .never).posed
        (.repair [⟨"lib", .ofComponents [0, 0, 0]⟩])).FeasibleWith adds removes →
          F.cost ≤ adds.length + 2 * removes.length := by
  have hselect : (Solver.mk lonely [0] [] .never).best .select = .ok none := by decide +kernel
  have hexplain : (Solver.mk lonely [0] [] .never).best .explain =
      .ok (some [.candidate 0, .waived 0 0]) := by decide +kernel
  have hrepair : (Solver.mk lonely [0] [] .never).best
      (.repair [⟨"lib", .ofComponents [0, 0, 0]⟩]) = .ok (some [.candidate 0, .added 0]) := by
    decide +kernel
  have hdependency : lonely.dependency? (0, 0) = some ⟨.depends, "lib", .any⟩ := by
    decide +kernel
  have hany : StandIn.synthesize [⟨.depends, "lib", .any⟩] = [⟨"lib", .ofComponents [0, 0, 0]⟩] :=
    StandIn.synthesize_singleton rfl rfl (by decide +kernel)
  obtain ⟨f, h, hstandIns, hfix⟩ :=
    exists_failure hselect hexplain rfl hdependency rfl hany hrepair
  have hgroups : ∀ g ∈ lonely.groups, g.members.Nodup := by decide +kernel
  have horder : [0].Perm lonely.ids := by decide +kernel
  have hfits : lonely.edges.length < UInt64.size := by decide +kernel
  have hsize : lonely.size + 1 < 2 ^ 32 := by decide +kernel
  have hresult := fix_works_and_is_cheapest (.built lonely_built) hgroups horder hfits
    (by rw [hstandIns]; exact hsize) h hfix
  rw [hstandIns] at hresult
  obtain ⟨hempty, hworks, -, hcheapest⟩ := hresult
  exact ⟨f, _, h, hfix, hempty, hworks, hcheapest⟩

end Solver
end Loadout
