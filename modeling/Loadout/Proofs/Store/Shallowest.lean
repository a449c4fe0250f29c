/-
# Depths after inserts

What was found in what makes a graph: its nodes are the mods in their versions, each told by its
candidate, its roots are those of which some copy was found in nothing, and its edges go from what
a copy was found in to the mod of the copy (`Store.FoundAlone`, `Store.FoundIn`).

A store keeps an edge only if the copy lay at the least depth of all copies of its mod, by the
depths at the time when each was found (`Store.FoundHighestIn`).  So the depths that are computed
at the end are distances along these edges, and never smaller than distances in the whole graph.
They are larger where a depth was out of date: a mod is found far down, something is found in it,
it is found again higher up, and what is in it is found again in between.  Where every copy was
found one below the depth that what is around it has in the end (`Store.Steady`), no edge that
matters is lost, and depths are distances in the whole graph.
-/

import Loadout.Proofs.Store.Containment
import Loadout.Proofs.Store.Distance
import Loadout.Proofs.Store.Sightings

namespace Loadout

/-- A copy of version one that says nothing but what it is. -/
def NewCandidate.plain (id : String) (parent? : Option CandidateId) : NewCandidate :=
  { descriptor := { id, version := .ofComponents [1] }, location := .file id, parent?, remap := false }

namespace Store

variable {s : Store} {log : List Sighting} {news : List NewCandidate}

/-- Some copy of a candidate was found in nothing. -/
def FoundAlone (s : Store) (log : List Sighting) (id : CandidateId) : Prop :=
  ∃ c ∈ s.records, c.id = id ∧ ∃ x ∈ log, x.IsOf c.edition ∧ x.new.parent? = none

/-- Some copy of a candidate was found in another candidate. -/
def FoundIn (s : Store) (log : List Sighting) (p id : CandidateId) : Prop :=
  ∃ c ∈ s.records, c.id = id ∧ ∃ x ∈ log, x.IsOf c.edition ∧ x.new.parent? = some p

/-- Some copy of a candidate was found in another candidate, and none was found higher up. -/
def FoundHighestIn (s : Store) (log : List Sighting) (p id : CandidateId) : Prop :=
  ∃ c ∈ s.records, c.id = id ∧ ∃ x ∈ log, x.IsOf c.edition ∧ x.new.parent? = some p ∧
    ∀ y ∈ log, y.IsOf c.edition → x.depth ≤ y.depth

/-- Whether every copy was found one below the depth that what is around it has in the end. -/
def Steady (s : Store) (log : List Sighting) : Prop :=
  ∀ x ∈ log, ∀ q ∈ s.records, x.new.parent? = some q.id → x.depth = q.depth + 1

instance (s : Store) (log : List Sighting) : Decidable (s.Steady log) :=
  inferInstanceAs (Decidable (∀ x ∈ log, ∀ q ∈ s.records, x.new.parent? = some q.id → _))

/-- Who was found highest in a candidate was found in it. -/
theorem FoundHighestIn.foundIn {p id : CandidateId} (h : s.FoundHighestIn log p id) :
    s.FoundIn log p id := by
  obtain ⟨c, hc, hid, x, hx, hof, hp, -⟩ := h
  exact ⟨c, hc, hid, x, hx, hof, hp⟩

/-! ### What the store keeps -/

/-- The depth of a candidate is the least one that a copy was found at. -/
theorem Shows.depth_eq_iff (h : s.Shows log) {c : Candidate} (hc : c ∈ s.records) {x : Sighting}
    (hx : x ∈ log) (hof : x.IsOf c.edition) :
    x.depth = c.depth ↔ ∀ y ∈ log, y.IsOf c.edition → x.depth ≤ y.depth := by
  obtain ⟨z, hbest, hdepth, -⟩ := (h.told c hc).origin
  rw [hdepth]
  refine ⟨fun heq y hy hy' => heq ▸ hbest.depth_le hy hy', fun hle => ?_⟩
  exact Nat.le_antisymm (hle z hbest.mem hbest.isOf) (hbest.depth_le hx hof)

/-- No copy of a candidate lies above it. -/
theorem Shows.depth_le (h : s.Shows log) {c : Candidate} (hc : c ∈ s.records) {x : Sighting}
    (hx : x ∈ log) (hof : x.IsOf c.edition) : c.depth ≤ x.depth := by
  obtain ⟨z, hbest, hdepth, -⟩ := (h.told c hc).origin
  exact hdepth ▸ hbest.depth_le hx hof

/-- A candidate is a root if any copy was found in nothing. -/
theorem Shows.isRoot_iff (h : s.Shows log) {c : Candidate} (hc : c ∈ s.records) :
    c.isRoot = true ↔ ∃ x ∈ log, x.IsOf c.edition ∧ x.new.parent? = none := by
  rw [Candidate.isRoot, List.isEmpty_iff, List.eq_nil_iff_forall_not_mem]
  constructor
  · intro hnone
    obtain ⟨x, hbest, hdepth, -⟩ := (h.told c hc).origin
    refine ⟨x, hbest.mem, hbest.isOf, Option.eq_none_iff_forall_ne_some.2 fun p hp => hnone p ?_⟩
    exact ((h.told c hc).parents p).2 ⟨x, hbest.mem, hbest.isOf, hdepth.symm, hp⟩
  · rintro ⟨x, hx, hof, hnone⟩ p hp
    have hzero : c.depth = 0 := Nat.le_zero.1 ((h.root x hx).2 hnone ▸ h.depth_le hc hx hof)
    obtain ⟨y, hy, -, hdepth, hy'⟩ := ((h.told c hc).parents p).1 hp
    rw [(h.root y hy).1 (hdepth.trans hzero)] at hy'
    exact absurd hy' (by simp)

/-- A root lies at depth zero. -/
theorem Shows.depth_eq_zero (h : s.Shows log) {c : Candidate} (hc : c ∈ s.records)
    (hroot : c.isRoot = true) : c.depth = 0 := by
  obtain ⟨x, hx, hof, hnone⟩ := (h.isRoot_iff hc).1 hroot
  exact Nat.le_zero.1 ((h.root x hx).2 hnone ▸ h.depth_le hc hx hof)

/-- The roots are those candidates of which a copy was found in nothing. -/
theorem Shows.hasRoot_iff (h : s.Shows log) {id : CandidateId} :
    s.HasRoot id ↔ s.FoundAlone log id := by
  constructor
  · rintro ⟨c, hc, hid, hroot⟩
    exact ⟨c, hc, hid, (h.isRoot_iff hc).1 hroot⟩
  · rintro ⟨c, hc, hid, hfound⟩
    exact ⟨c, hc, hid, (h.isRoot_iff hc).2 hfound⟩

/-- What a candidate contains is what was found in it and nowhere higher up. -/
theorem Shows.mem_childrenOf_iff (h : s.Shows log) (hindexed : s.Indexed) (hmirrored : s.Mirrored)
    {p id : CandidateId} : id ∈ s.childrenOf p ↔ s.FoundHighestIn log p id := by
  rw [hindexed.mem_childrenOf_iff, ← hmirrored p id, Within, FoundHighestIn]
  refine exists_congr fun c => and_congr_right fun hc => and_congr_right fun _ => ?_
  rw [(h.told c hc).parents]
  refine exists_congr fun x => and_congr_right fun hx => and_congr_right fun hof => ?_
  rw [h.depth_eq_iff hc hx hof, and_comm]

/-- **The ways in are the routes along what was found highest.** -/
theorem Shows.reaches_iff (h : s.Shows log) (hindexed : s.Indexed) (hmirrored : s.Mirrored) {n : Nat}
    {id : CandidateId} :
    s.Reaches n id ↔ Route (s.FoundAlone log) (s.FoundHighestIn log) n id := by
  have hedge : ∀ a b, b ∈ s.childrenOf a ↔ s.FoundHighestIn log a b := fun a b =>
    h.mem_childrenOf_iff hindexed hmirrored
  exact ⟨Route.mono (fun _ => h.hasRoot_iff.1) fun a b => (hedge a b).1,
    Route.mono (fun _ => h.hasRoot_iff.2) fun a b => (hedge a b).2⟩

/-- **There is a way in to every candidate**, no longer than its depth. -/
theorem Nested.exists_reaches (h : s.Nested) {c : Candidate} (hc : c ∈ s.records) :
    ∃ n ≤ c.depth, s.Reaches n c.id := by
  induction hd : c.depth using Nat.strong_induction_on generalizing c with
  | _ d ih =>
    by_cases hroot : c.isRoot = true
    · exact ⟨0, Nat.zero_le _, .start ⟨c, hc, rfl, hroot⟩⟩
    rw [Candidate.isRoot, List.isEmpty_iff] at hroot
    obtain ⟨p, hp⟩ := List.exists_mem_of_ne_nil _ hroot
    obtain ⟨q, hq, rfl, hlt⟩ := h.coherent.layered c hc p hp
    obtain ⟨n, hn, hreach⟩ := ih q.depth (hd ▸ hlt) hq rfl
    have hholds : c.id ∈ q.children :=
      (h.coherent.indexed.holds_iff hq).1 ((h.mirrored _ _).1 ⟨c, hc, rfl, hp⟩)
    refine ⟨n + 1, by omega, .along hreach ?_⟩
    rw [childrenOf, h.coherent.indexed.get?_eq_some_iff.2 ⟨hq, rfl⟩]
    exact hholds

/-! ### Steady depths -/

/-- Who is on a route is a candidate. -/
theorem mem_ids_of_route {n : Nat} {id : CandidateId}
    (h : Route (s.FoundAlone log) (s.FoundIn log) n id) : id ∈ s.ids := by
  cases h with
  | start h =>
      obtain ⟨c, hc, hid, -⟩ := h
      exact mem_ids.2 ⟨c, hc, hid⟩
  | along _ h =>
      obtain ⟨c, hc, hid, -⟩ := h
      exact mem_ids.2 ⟨c, hc, hid⟩

/-- **Steady depths are no larger than routes are long.** -/
theorem Shows.depth_le_of_route (h : s.Shows log) (hindexed : s.Indexed) (hsteady : s.Steady log)
    {n : Nat} {id : CandidateId} (hroute : Route (s.FoundAlone log) (s.FoundIn log) n id) :
    ∀ c ∈ s.records, c.id = id → c.depth ≤ n := by
  induction hroute with
  | start hfound =>
      obtain ⟨c, hc, rfl, x, hx, hof, hnone⟩ := hfound
      intro c' hc' hid
      obtain rfl := hindexed.eq_of_id_eq hc' hc hid
      exact (h.root x hx).2 hnone ▸ h.depth_le hc hx hof
  | along hroute hfound ih =>
      obtain ⟨c, hc, rfl, x, hx, hof, hp⟩ := hfound
      intro c' hc' hid
      obtain rfl := hindexed.eq_of_id_eq hc' hc hid
      obtain ⟨q, hq, rfl⟩ := mem_ids.1 (mem_ids_of_route hroute)
      calc c'.depth ≤ x.depth := h.depth_le hc hx hof
        _ = q.depth + 1 := hsteady x hx q hq hp
        _ ≤ _ := Nat.succ_le_succ (ih q hq rfl)

/-! ### The depths of a gathered store -/

/-- What copies build is told alike by both lists and goes down. -/
theorem nested_gathered (news : List NewCandidate) : (gathered news).Nested := by
  rw [gathered_eq_after]
  refine nested_after fun change hchange => ?_
  obtain ⟨new, -, rfl⟩ := List.mem_map.1 hchange
  rfl

/-- **Steady depths are distances along finds.** -/
theorem Shows.isLeast_depth (h : s.Shows log) (hnested : s.Nested) (hsteady : s.Steady log)
    {c : Candidate} (hc : c ∈ s.records) :
    IsLeast {n | Route (s.FoundAlone log) (s.FoundIn log) n c.id} c.depth := by
  have hindexed := hnested.coherent.indexed
  have hleast : ∀ n, Route (s.FoundAlone log) (s.FoundIn log) n c.id → c.depth ≤ n := fun n hroute =>
    h.depth_le_of_route hindexed hsteady hroute c hc rfl
  obtain ⟨n, hn, hreach⟩ := hnested.exists_reaches hc
  have hroute := Route.mono (fun _ => fun h => h) (fun _ _ => FoundHighestIn.foundIn)
    ((h.reaches_iff hindexed hnested.mirrored).1 hreach)
  obtain rfl := Nat.le_antisymm hn (hleast n hroute)
  exact ⟨hroute, hleast⟩

/-- **Steady depths need not be computed anew.** -/
theorem Shows.settleDepths_eq (h : s.Shows log) (hnested : s.Nested) (hsteady : s.Steady log) :
    s.settleDepths = s := by
  obtain ⟨f, heq, hf, hleast, -⟩ := s.settleDepths_spec
  have hsame : ∀ c ∈ s.records, f c = c := by
    intro c hc
    obtain ⟨n, hn, hreach⟩ := hnested.exists_reaches hc
    have hsettled := hleast c n hreach
    have hroute := Route.mono (fun _ => fun h => h) (fun _ _ => FoundHighestIn.foundIn)
      ((h.reaches_iff hnested.coherent.indexed hnested.mirrored).1 hsettled.1)
    rw [hf c, Nat.le_antisymm ((hsettled.2 hreach).trans hn)
      ((h.isLeast_depth hnested hsteady hc).2 hroute)]
  rw [heq, List.map_congr_left hsame, List.map_id']

/-- There is a route of some length along finds of some copies, from one that was found alone. -/
def FindRoute (news : List NewCandidate) (n : Nat) (id : CandidateId) : Prop :=
  Route ((gathered news).FoundAlone (empty.sightings news))
    ((gathered news).FoundIn (empty.sightings news)) n id

/-- There is such a route along finds in which no copy lay deeper than another one of its mod. -/
def HighestRoute (news : List NewCandidate) (n : Nat) (id : CandidateId) : Prop :=
  Route ((gathered news).FoundAlone (empty.sightings news))
    ((gathered news).FoundHighestIn (empty.sightings news)) n id

/-- A route along the highest finds is one along finds. -/
theorem HighestRoute.findRoute {n : Nat} {id : CandidateId} (h : HighestRoute news n id) :
    FindRoute news n id :=
  Route.mono (fun _ => fun h => h) (fun _ _ => FoundHighestIn.foundIn) h

/-- What new depths are, candidate by candidate. -/
theorem exists_settled (h : empty.admits news = true) : ∃ f : Candidate → Candidate,
    (gathered news).settleDepths.records = (gathered news).records.map f ∧
    (∀ c, f c = { c with depth := (f c).depth }) ∧ ∀ c ∈ (gathered news).records,
      IsLeast {n | HighestRoute news n c.id} (f c).depth ∧ FindRoute news (f c).depth c.id ∧
      ((gathered news).Steady (empty.sightings news) →
        IsLeast {n | FindRoute news n c.id} (f c).depth) := by
  have hshows := shows_gathered h
  have hnested := nested_gathered news
  have hindexed := hnested.coherent.indexed
  obtain ⟨f, heq, hf, hleast, -⟩ := (gathered news).settleDepths_spec
  refine ⟨f, by rw [heq], hf, fun c hc => ?_⟩
  have hiff : ∀ n, (gathered news).Reaches n c.id ↔ HighestRoute news n c.id := fun n =>
    hshows.reaches_iff hindexed hnested.mirrored
  obtain ⟨n, hn, hreach⟩ := hnested.exists_reaches hc
  have hsettled : IsLeast {n | HighestRoute news n c.id} (f c).depth := by
    simpa only [hiff] using hleast c n hreach
  refine ⟨hsettled, hsettled.1.findRoute, fun hsteady => ⟨hsettled.1.findRoute, fun m hm => ?_⟩⟩
  calc (f c).depth ≤ n := hsettled.2 ((hiff n).1 hreach)
    _ ≤ c.depth := hn
    _ ≤ m := (hshows.isLeast_depth hnested hsteady hc).2 hm

/-- **Depths are distances along what was found highest.**  When copies have been taken in without
an error, each with what is around it in the store, and depths are computed, there is a candidate
for every copy, and the depth of each candidate is the length of a shortest route along finds in
which no copy lay deeper than another one of its mod.  So it is the length of some route along
finds, and of a shortest one if all depths were steady. -/
theorem settled_depths (news : List NewCandidate) (h : empty.admits news = true) :
    (∀ new ∈ news, ∃ c ∈ (gathered news).settleDepths.records,
      new.descriptor.edition.same c.edition = true) ∧
    ∀ c ∈ (gathered news).settleDepths.records,
      IsLeast {n | HighestRoute news n c.id} c.depth ∧ FindRoute news c.depth c.id ∧
      ((gathered news).Steady (empty.sightings news) → IsLeast {n | FindRoute news n c.id} c.depth) := by
  obtain ⟨f, heq, hf, hdepths⟩ := exists_settled h
  refine ⟨fun new hnew => ?_, fun c' hc' => ?_⟩
  · obtain ⟨c, hc, hsame⟩ := exists_candidate_of_mem h hnew
    refine ⟨f c, heq ▸ List.mem_map_of_mem hc, ?_⟩
    rw [Candidate.edition, hf]
    exact hsame
  · rw [heq] at hc'
    obtain ⟨c, hc, rfl⟩ := List.mem_map.1 hc'
    have hid : (f c).id = c.id := by rw [hf]
    rw [hid]
    exact hdepths c hc

/-- A library is found in a tool and then beside it; only then something is found in the library. -/
def foundHigher : List NewCandidate :=
  [.plain "app" none, .plain "tool" (some 0), .plain "lib" (some 1), .plain "lib" (some 0),
    .plain "util" (some 2)]

/-- In `foundHigher` the copies give the depths, as each was found where it lies in the end. -/
theorem settled_depths_foundHigher :
    empty.admits foundHigher = true ∧
    (gathered foundHigher).Steady (empty.sightings foundHigher) ∧
    ((gathered foundHigher).settleDepths.records.map fun c => (c.identifier, c.depth)) =
      [("app", 0), ("tool", 1), ("lib", 1), ("util", 2)] ∧
    ∀ c ∈ (gathered foundHigher).settleDepths.records,
      IsLeast {n | FindRoute foundHigher n c.id} c.depth :=
  ⟨by decide +kernel, by decide +kernel, by decide +kernel, fun c hc =>
    ((settled_depths foundHigher (by decide +kernel)).2 c hc).2.2 (by decide +kernel)⟩

/-- What is in a library has a depth that is out of date once the library is found alone. -/
def overtaken : List NewCandidate :=
  [.plain "app" none, .plain "tool" (some 0), .plain "lib" (some 1), .plain "util" (some 2),
    .plain "lib" none, .plain "util" (some 1)]

/-- A copy that lies deeper wins: there is a route of length one to what has depth two. -/
example : empty.admits overtaken = true ∧ FindRoute overtaken 1 3 ∧
    ((gathered overtaken).settleDepths.get? 3).map (·.depth) = some 2 := by
  refine ⟨by decide +kernel, .along (a := 2) (.start ?_) ?_, by decide +kernel⟩
  · unfold FoundAlone Sighting.IsOf
    decide +kernel
  · unfold FoundIn Sighting.IsOf
    decide +kernel

end Store
end Loadout
