/-
# What a store tells of what was found

A store takes in copies of mods one after the other.  What it holds in the end follows from the
list of these *sightings*, each with the depth that the copy was found at (`Store.sightings`), and
from nothing else.  For every mod and version that was found there is one candidate, and

* it has location, descriptor and depth of the copy that won: the first one at the least depth, or
  among roots the first one with the smallest location key (`FirstBest`),
* it provides what any of its copies does,
* around it is what any copy *at the depth of the candidate* was found in (`Candidate.Shows`).

So what a copy was found in is forgotten if another copy is found higher up.  Depths are those of
the time of the sighting, which need not be what they come to be later.
-/

import Loadout.Proofs.Store.Multiplicity

namespace Loadout

/-- A copy of a mod that was found, with the depth that it was found at. -/
structure Sighting where
  new : NewCandidate
  depth : Nat
  deriving DecidableEq, Repr

namespace Sighting

/-- Whether the copy is one of a mod in a version. -/
def IsOf (x : Sighting) (e : Edition) : Prop := x.new.descriptor.edition.same e = true

/-- Whether one copy wins over another one that came first. -/
def Beats (x y : Sighting) : Prop := x.depth < y.depth ∨
  (x.depth = 0 ∧ y.depth = 0 ∧ compare x.new.location.key y.new.location.key = .lt)

/-- A sighting of an edition is one of it in any spelling. -/
theorem isOf_congr {x : Sighting} {a b : Edition} (h : a.same b = true) : x.IsOf a ↔ x.IsOf b := by
  rw [IsOf, IsOf, Edition.same_congr_right h]

/-- No copy beats itself. -/
theorem not_beats_self (x : Sighting) : ¬ x.Beats x := by
  rintro (hlt | ⟨-, -, hlt⟩)
  · exact Nat.lt_irrefl _ hlt
  · rw [Std.ReflOrd.compare_self] at hlt
    exact absurd hlt (by decide)

/-- Who beats the best one beats all. -/
theorem Beats.of_not_beats {x y z : Sighting} (h : z.Beats x) (hy : ¬ y.Beats x) : z.Beats y := by
  simp only [Beats, not_or, not_and, Nat.not_lt] at hy ⊢
  obtain ⟨hle, hkey⟩ := hy
  rcases h with hlt | ⟨hz, hx, hlt⟩
  · exact Or.inl (Nat.lt_of_lt_of_le hlt hle)
  · rcases Nat.eq_zero_or_pos y.depth with hy | hpos
    · refine Or.inr ⟨hz, hy, Std.TransCmp.lt_of_lt_of_isLE hlt ?_⟩
      rw [Std.OrientedOrd.eq_swap, Ordering.isLE_swap, Ordering.isGE_iff_ne_lt]
      exact hkey hy hx
    · exact Or.inl (hz ▸ hpos)

/-- Of two copies only one can beat the other. -/
theorem Beats.asymm {x y : Sighting} (h : x.Beats y) : ¬ y.Beats x := by
  intro hyx
  rcases h with hlt | ⟨hx, hy, hlt⟩ <;> rcases hyx with hlt' | ⟨hy', hx', hlt'⟩
  · exact Nat.lt_asymm hlt hlt'
  · omega
  · omega
  · exact Std.OrientedCmp.not_lt_of_lt hlt hlt'

/-- What is not beaten lies no deeper. -/
theorem le_of_not_beats {x y : Sighting} (h : ¬ y.Beats x) : x.depth ≤ y.depth :=
  Nat.le_of_not_lt fun hlt => h (Or.inl hlt)

end Sighting

/-- **The first of the best copies** of a mod: those that came before lose to it, and none that
came after beats it. -/
def FirstBest (log : List Sighting) (e : Edition) (x : Sighting) : Prop :=
  ∃ before after, log = before ++ x :: after ∧ x.IsOf e ∧
    (∀ y ∈ before, y.IsOf e → x.Beats y) ∧ ∀ y ∈ after, y.IsOf e → ¬ y.Beats x

namespace FirstBest

variable {log : List Sighting} {e : Edition} {x z : Sighting}

/-- The first best copy was seen. -/
theorem mem (h : FirstBest log e x) : x ∈ log := by
  obtain ⟨before, after, rfl, -⟩ := h
  exact List.mem_append_right _ (List.mem_cons_self ..)

/-- The first best copy is a copy of the edition. -/
theorem isOf (h : FirstBest log e x) : x.IsOf e := by
  obtain ⟨_, _, -, hof, -⟩ := h
  exact hof

/-- No copy of the edition beats it. -/
theorem not_beats (h : FirstBest log e x) {y : Sighting} (hy : y ∈ log) (hof : y.IsOf e) :
    ¬ y.Beats x := by
  obtain ⟨before, after, rfl, -, hbefore, hafter⟩ := h
  rcases List.mem_append.1 hy with hy | hy
  · exact (hbefore y hy hof).asymm
  · rcases List.mem_cons.1 hy with rfl | hy
    · exact y.not_beats_self
    · exact hafter y hy hof

/-- No copy of the edition lies above it. -/
theorem depth_le (h : FirstBest log e x) {y : Sighting} (hy : y ∈ log) (hof : y.IsOf e) :
    x.depth ≤ y.depth := Sighting.le_of_not_beats (h.not_beats hy hof)

/-- The first best copy of an edition is that of the edition in any spelling. -/
theorem congr {e' : Edition} (he : e.same e' = true) (h : FirstBest log e x) :
    FirstBest log e' x := by
  simpa only [FirstBest, Sighting.isOf_congr he] using h

/-- The first copy of a mod is the best one. -/
theorem of_new (hnew : ∀ y ∈ log, ¬ y.IsOf e) (hz : z.IsOf e) : FirstBest (log ++ [z]) e z :=
  ⟨log, [], rfl, hz, fun y hy hof => absurd hof (hnew y hy), fun _ hy => absurd hy List.not_mem_nil⟩

/-- A copy that beats the best one is the best one. -/
theorem of_beats (h : FirstBest log e x) (hz : z.IsOf e) (hbeats : z.Beats x) :
    FirstBest (log ++ [z]) e z :=
  ⟨log, [], rfl, hz, fun _ hy hof => hbeats.of_not_beats (h.not_beats hy hof),
    fun _ hy => absurd hy List.not_mem_nil⟩

/-- A copy that does not beat the best one changes nothing. -/
theorem of_not_beats (h : FirstBest log e x) (hz : z.IsOf e → ¬ z.Beats x) :
    FirstBest (log ++ [z]) e x := by
  obtain ⟨before, after, rfl, hof, hbefore, hafter⟩ := h
  refine ⟨before, after ++ [z], by simp, hof, hbefore, fun y hy hy' => ?_⟩
  rcases List.mem_append.1 hy with hy | hy
  · exact hafter y hy hy'
  · rw [List.mem_singleton.1 hy] at hy' ⊢
    exact hz hy'

end FirstBest

/-! ### What one candidate tells -/

/-- **What a candidate tells of its copies**: it is the best one, it provides what any of them
does, and around it is what those at its depth were found in. -/
structure Candidate.Shows (c : Candidate) (log : List Sighting) : Prop where
  origin : ∃ x, FirstBest log c.edition x ∧ c.depth = x.depth ∧ c.location = x.new.location ∧
    c.descriptor = { x.new.descriptor with provides := c.aliases }
  provides : ∀ key, c.provides key = true ↔ ∃ x ∈ log, x.IsOf c.edition ∧ key ∈ x.new.keys
  parents : ∀ p, p ∈ c.parents ↔
    ∃ x ∈ log, x.IsOf c.edition ∧ x.depth = c.depth ∧ x.new.parent? = some p

/-- **Two candidates tell the same**, whatever they contain and in whatever order their aliases
and what is around them are listed. -/
structure Candidate.Alike (c c' : Candidate) : Prop where
  descriptor : c'.descriptor = { c.descriptor with provides := c'.aliases }
  depth : c'.depth = c.depth
  location : c'.location = c.location
  provides : ∀ key, c'.provides key = true ↔ c.provides key = true
  parents : ∀ p, p ∈ c'.parents ↔ p ∈ c.parents

namespace Candidate.Alike

variable {a b c : Candidate}

/-- Candidates that tell the same as a third one tell the same. -/
theorem trans (hab : a.Alike b) (hbc : b.Alike c) : a.Alike c where
  descriptor := by rw [hbc.descriptor, hab.descriptor]
  depth := hbc.depth.trans hab.depth
  location := hbc.location.trans hab.location
  provides := fun key => (hbc.provides key).trans (hab.provides key)
  parents := fun p => (hbc.parents p).trans (hab.parents p)

/-- Candidates that tell the same are of one edition. -/
theorem edition_eq (h : a.Alike b) : b.edition = a.edition := by
  rw [edition, edition, h.descriptor]
  rfl

end Candidate.Alike

namespace Candidate.Shows

variable {c c' : Candidate} {log : List Sighting} {z : Sighting}

/-- What one of them tells is told by the other one. -/
theorem congr (h : c.Shows log) (halike : c.Alike c') : c'.Shows log := by
  have hedition := halike.edition_eq
  obtain ⟨x, hbest, hd, hl, hdesc⟩ := h.origin
  refine ⟨⟨x, hedition ▸ hbest, halike.depth.trans hd, halike.location.trans hl, ?_⟩, fun key => ?_,
    fun p => ?_⟩
  · rw [halike.descriptor, hdesc]
  · rw [halike.provides, h.provides, hedition]
  · rw [halike.parents, h.parents, hedition, halike.depth]

/-- A copy of something else tells nothing. -/
theorem skip (h : c.Shows log) (hz : ¬ z.IsOf c.edition) : c.Shows (log ++ [z]) := by
  obtain ⟨x, hbest, hrest⟩ := h.origin
  refine ⟨⟨x, hbest.of_not_beats fun hof => absurd hof hz, hrest⟩, fun key => ?_, fun p => ?_⟩
  · rw [h.provides]
    simp [or_and_right, exists_or, hz]
  · rw [h.parents]
    simp [or_and_right, exists_or, hz]

/-- The first copy tells all of a new candidate. -/
theorem of_new (hnew : ∀ y ∈ log, ¬ y.IsOf c.edition) (hdescriptor : c.descriptor = z.new.descriptor)
    (hdepth : c.depth = z.depth) (hlocation : c.location = z.new.location)
    (hparents : ∀ p, p ∈ c.parents ↔ z.new.parent? = some p) : c.Shows (log ++ [z]) := by
  have hz : z.IsOf c.edition := by
    rw [Sighting.IsOf, edition, hdescriptor]
    exact Edition.same_self _
  have honly : ∀ x, (x ∈ log ++ [z] ∧ x.IsOf c.edition) ↔ x = z := by
    intro x
    rw [List.mem_append, List.mem_singleton]
    constructor
    · rintro ⟨hx | rfl, hof⟩
      · exact absurd hof (hnew x hx)
      · rfl
    · rintro rfl
      exact ⟨Or.inr rfl, hz⟩
  refine ⟨⟨z, FirstBest.of_new hnew hz, hdepth, hlocation, ?_⟩, fun key => ?_, fun p => ?_⟩
  · rw [Candidate.aliases, hdescriptor]
  · rw [Store.provides_iff_mem, Candidate.keys, Candidate.identifier, Candidate.aliases, hdescriptor]
    simp only [← and_assoc, honly, exists_eq_left]
    rfl
  · rw [hparents, hdepth]
    constructor
    · exact fun hp => ⟨z, ((honly z).2 rfl).1, hz, rfl, hp⟩
    · rintro ⟨x, hx, hof, -, hp⟩
      rwa [(honly x).1 ⟨hx, hof⟩] at hp

/-- One more copy adds to what a candidate provides, whatever else becomes of it. -/
theorem provides_concat (h : c.Shows log) (hz : z.IsOf c.edition)
    (hedition : c.edition.same c'.edition = true) (hprovides : ∀ key, c'.provides key = true ↔
      c.provides key = true ∨ key ∈ z.new.descriptor.provides) (key : String) :
    c'.provides key = true ↔ ∃ x ∈ log ++ [z], x.IsOf c'.edition ∧ key ∈ x.new.keys := by
  have hid : z.new.descriptor.id = c.identifier := by
    rw [Sighting.IsOf, Edition.same_iff] at hz
    exact hz.1
  have hkeys : c.provides key = true ∨ key ∈ z.new.descriptor.provides ↔
      c.provides key = true ∨ key ∈ z.new.keys := by
    rw [NewCandidate.keys, List.mem_cons, hid, ← or_assoc]
    refine or_congr_left (or_iff_left_of_imp fun hkey => ?_).symm
    exact Store.provides_iff.2 (Or.inl hkey)
  rw [hprovides, hkeys, h.provides]
  simp only [← Sighting.isOf_congr hedition, List.mem_append, List.mem_singleton, or_and_right,
    exists_or, exists_eq_left, hz, true_and]

/-- A new copy wins where it beats the sighting that the candidate shows. -/
theorem wins_iff {x : Sighting} (hdepth : c.depth = x.depth) (hlocation : c.location = x.new.location) :
    Store.wins z.new z.depth c = true ↔ z.Beats x := by
  simp [Store.wins, Sighting.Beats, hdepth, hlocation, and_assoc]

/-- **A copy that wins** takes the candidate over, and what was around it is forgotten. -/
theorem moved (h : c.Shows log) (hz : z.IsOf c.edition) (hwins : Store.wins z.new z.depth c = true)
    (hroots : ∀ x ∈ log ++ [z], x.depth = 0 → x.new.parent? = none)
    (hdescriptor : c'.descriptor = { z.new.descriptor with provides := c'.aliases })
    (hdepth : c'.depth = z.depth) (hlocation : c'.location = z.new.location)
    (hprovides : ∀ key, c'.provides key = true ↔
      c.provides key = true ∨ key ∈ z.new.descriptor.provides)
    (hparents : ∀ p, p ∈ c'.parents ↔ z.new.parent? = some p) : c'.Shows (log ++ [z]) := by
  obtain ⟨x, hbest, hd, hl, -⟩ := h.origin
  have hbeats := (wins_iff hd hl).1 hwins
  have hedition : c'.edition = z.new.descriptor.edition := by
    rw [edition, hdescriptor]
    rfl
  have hsame : c.edition.same c'.edition = true := by rw [hedition, Edition.same_comm]; exact hz
  have hz' : z.IsOf c'.edition := (Sighting.isOf_congr hsame).1 hz
  refine ⟨⟨z, (hbest.of_beats hz hbeats).congr hsame, hdepth, hlocation, hdescriptor⟩,
    h.provides_concat hz hsame hprovides, fun p => ?_⟩
  rw [hparents, hdepth]
  refine ⟨fun hp => ⟨z, by simp, hz', rfl, hp⟩, fun ⟨y, hy, hof, hyd, hp⟩ => ?_⟩
  rcases List.mem_append.1 hy with hyl | hyz
  · -- no earlier copy lies as high, unless both are roots
    have hle := hbest.depth_le hyl ((Sighting.isOf_congr hsame).2 hof)
    rcases hbeats with hlt | ⟨hzero, -⟩
    · omega
    · rw [hroots y hy (hyd.trans hzero)] at hp
      exact absurd hp (by simp)
  · rwa [List.mem_singleton.1 hyz] at hp

/-- **A copy that does not win** leaves the candidate where it is; at the depth of the candidate
it adds what it was found in. -/
theorem met (h : c.Shows log) (hz : z.IsOf c.edition) (hlost : Store.wins z.new z.depth c = false)
    (hdescriptor : c'.descriptor = { c.descriptor with provides := c'.aliases })
    (hdepth : c'.depth = c.depth) (hlocation : c'.location = c.location)
    (hprovides : ∀ key, c'.provides key = true ↔
      c.provides key = true ∨ key ∈ z.new.descriptor.provides)
    (hparents : ∀ p, p ∈ c'.parents ↔
      p ∈ c.parents ∨ (z.depth = c.depth ∧ z.new.parent? = some p)) : c'.Shows (log ++ [z]) := by
  obtain ⟨x, hbest, hd, hl, hdesc⟩ := h.origin
  have hbeats : ¬ z.Beats x := by rw [← wins_iff hd hl, hlost]; exact Bool.false_ne_true
  have hedition : c'.edition = c.edition := by rw [edition, edition, hdescriptor]; rfl
  refine ⟨⟨x, hedition ▸ hbest.of_not_beats fun _ => hbeats, hdepth.trans hd, hlocation.trans hl, ?_⟩,
    h.provides_concat hz (hedition ▸ Edition.same_self _) hprovides, fun p => ?_⟩
  · rw [hdescriptor, hdesc]
  · rw [hparents, h.parents, hedition, hdepth]
    simp only [List.mem_append, List.mem_singleton, or_and_right, exists_or, exists_eq_left, hz,
      true_and]

end Candidate.Shows

namespace Store

variable {s s' : Store} {log : List Sighting}

/-! ### What a store tells -/

/-- **A store tells of sightings**: each is of one of its candidates, and every candidate tells of
its own.  Only what was found in nothing lies at depth zero. -/
structure Shows (s : Store) (log : List Sighting) : Prop where
  found : ∀ x ∈ log, ∃ c ∈ s.records, x.IsOf c.edition
  told : ∀ c ∈ s.records, c.Shows log
  root : ∀ x ∈ log, x.depth = 0 ↔ x.new.parent? = none

/-- The empty store tells of nothing. -/
theorem shows_empty : empty.Shows [] :=
  ⟨fun _ hx => absurd hx List.not_mem_nil, fun _ hc => absurd hc List.not_mem_nil,
    fun _ hx => absurd hx List.not_mem_nil⟩

/-- Others tell the same when one candidate comes to provide more, moves, or gets something
around it. -/
theorem Gains.alike {own : CandidateId} {keys : List String} {f : Candidate → Candidate}
    (hf : Gains s.records own keys f) {a : Candidate} (ha : a ∈ s.records) (hne : a.id ≠ own) :
    a.Alike (f a) where
  descriptor := congrArg Candidate.descriptor (hf.frame a)
  depth := hf.depth a
  location := by rw [hf.frame]
  provides := fun key => (hf.provides a ha key).trans (or_iff_left fun h => hne h.1)
  parents := fun p => by rw [hf.parents]

/-- All candidates but the one that moves tell what they did. -/
theorem Moves.alike {own : CandidateId} {left : List CandidateId} {new : NewCandidate} {depth : Nat}
    {g : Candidate → Candidate} (hg : Moves own left new depth g) {a : Candidate} (hne : a.id ≠ own) :
    a.Alike (g a) := by
  rw [hg.others a hne]
  exact ⟨rfl, rfl, rfl, fun _ => Iff.rfl, fun _ => Iff.rfl⟩

/-- All candidates but the one in the container tell what they did. -/
theorem Ties.alike {parent? : Option CandidateId} {child : CandidateId} {t : Candidate → Candidate}
    (ht : Ties parent? child t) {a : Candidate} (hne : a.id ≠ child) : a.Alike (t a) where
  descriptor := by
    rw [Candidate.aliases, ht.descriptor]
  depth := ht.depth a
  location := ht.location a
  provides := fun key => by rw [provides_congr (ht.descriptor a)]
  parents := fun p => (ht.parents a p).trans (or_iff_left fun h => hne h.1)

/-- One more sighting, and still only what was found in nothing lies at depth zero. -/
theorem Shows.root_concat (h : s.Shows log) {z : Sighting}
    (hroot : z.depth = 0 ↔ z.new.parent? = none) :
    ∀ x ∈ log ++ [z], x.depth = 0 ↔ x.new.parent? = none := by
  intro x hx
  rcases List.mem_append.1 hx with hx | hx
  · exact h.root x hx
  · rwa [List.mem_singleton.1 hx]

/-- **One copy more of a candidate** of the store: all others tell what they did. -/
theorem Shows.of_map (h : s.Shows log) (hcat : s.Catalogued) {z : Sighting} {c : Candidate}
    (hc : c ∈ s.records) (hz : z.IsOf c.edition) (hroot : z.depth = 0 ↔ z.new.parent? = none)
    {f : Candidate → Candidate} (hs : s'.records = s.records.map f)
    (hown : (f c).Shows (log ++ [z])) (hsame : c.edition.same (f c).edition = true)
    (hothers : ∀ a ∈ s.records, a.id ≠ c.id → a.Alike (f a)) : s'.Shows (log ++ [z]) := by
  have hcopy : ∀ a ∈ s.records, a.id = c.id → a = c := fun a ha => hcat.indexed.eq_of_id_eq ha hc
  have hseen : ∀ a ∈ s.records, a.edition.same (f a).edition = true := by
    intro a ha
    by_cases hac : a.id = c.id
    · rwa [hcopy a ha hac]
    · rw [(hothers a ha hac).edition_eq]
      exact Edition.same_self _
  have hfound : ∀ x ∈ log ++ [z], ∃ a ∈ s.records, x.IsOf a.edition := by
    intro x hx
    rcases List.mem_append.1 hx with hx | hx
    · exact h.found x hx
    · exact List.mem_singleton.1 hx ▸ ⟨c, hc, hz⟩
  refine ⟨fun x hx => ?_, fun c' hc' => ?_, h.root_concat hroot⟩
  · obtain ⟨a, ha, hof⟩ := hfound x hx
    exact ⟨f a, hs ▸ List.mem_map_of_mem ha, (Sighting.isOf_congr (hseen a ha)).1 hof⟩
  · rw [hs] at hc'
    obtain ⟨a, ha, rfl⟩ := List.mem_map.1 hc'
    by_cases hac : a.id = c.id
    · rwa [hcopy a ha hac]
    · -- there is one candidate for each mod in each version
      refine ((h.told a ha).skip fun hof => hac ?_).congr (hothers a ha hac)
      rw [Sighting.IsOf, Edition.same_comm] at hof
      exact congrArg Candidate.id (hcat.distinct a ha c hc ((Edition.same_congr hof _).trans hz))

/-- What is around a new copy is another candidate, and the copy lies right below it. -/
theorem Indexed.around (h : s.Indexed) {new : NewCandidate} (hin : ∀ p, new.parent? = some p → p ∈ s.ids)
    {p : CandidateId} (hp : new.parent? = some p) :
    ∃ q ∈ s.records, q.id = p ∧ q.depth + 1 = s.depthFor new := by
  obtain ⟨q, hq, hqp⟩ := mem_ids.1 (hin p hp)
  exact ⟨q, hq, hqp, h.succ_depth hp hq hqp⟩

/-- Depth zero is for what is found in nothing. -/
theorem Indexed.depthFor_eq_zero_iff (h : s.Indexed) {new : NewCandidate}
    (hin : ∀ p, new.parent? = some p → p ∈ s.ids) : s.depthFor new = 0 ↔ new.parent? = none := by
  cases hp : new.parent? with
  | none => simp [depthFor, hp]
  | some p =>
      obtain ⟨q, -, -, hdepth⟩ := h.around hin hp
      exact ⟨fun hzero => by omega, fun hnone => by simp at hnone⟩

/-- **A copy of a mod that was not found before** is told of by a candidate of its own. -/
theorem Shows.number (h : s.Shows log) (hindexed : s.Indexed) {new : NewCandidate}
    (hin : ∀ p, new.parent? = some p → p ∈ s.ids) (hnone : s.copyOf? new.descriptor = none) :
    ((s.add (s.numbered new)).linkParent new.parent? s.nextId).Shows
      (log ++ [⟨new, s.depthFor new⟩]) := by
  obtain ⟨t, ht, heq⟩ := exists_ties (s.add (s.numbered new)) new.parent? s.nextId fun p hp => by
      obtain ⟨q, hq, hqp⟩ := mem_ids.1 (hin p hp)
      exact ⟨hqp ▸ Nat.ne_of_lt (hindexed.fresh q hq), mem_ids.2 ⟨q, List.mem_append_left _ hq, hqp⟩⟩
  have hold : ∀ a ∈ s.records, a.Alike (t a) := fun a ha => ht.alike (Nat.ne_of_lt (hindexed.fresh a ha))
  have hunlike : ∀ a ∈ s.records, ¬ new.descriptor.edition.same a.edition = true := by
    intro a ha hsame
    rw [Edition.same_iff] at hsame
    have hother := hindexed.not_sameAs_of_copyOf?_eq_none hnone ha hsame.1.symm
    rw [Version.sameAs_comm] at hother
    exact Bool.false_ne_true (hother.symm.trans hsame.2)
  have hedition : (t (s.numbered new)).edition = new.descriptor.edition := by
    rw [Candidate.edition, ht.descriptor]
    rfl
  rw [heq]
  refine ⟨fun x hx => ?_, fun c' hc' => ?_, h.root_concat (hindexed.depthFor_eq_zero_iff hin)⟩
  · rcases List.mem_append.1 hx with hx | hx
    · obtain ⟨a, ha, hof⟩ := h.found x hx
      exact ⟨t a, List.mem_map_of_mem (List.mem_append_left _ ha), (hold a ha).edition_eq ▸ hof⟩
    · refine ⟨t (s.numbered new), List.mem_map_of_mem (List.mem_append_right _ (by simp)), ?_⟩
      rw [List.mem_singleton.1 hx, hedition]
      exact Edition.same_self _
  · obtain ⟨a, ha, rfl⟩ := List.mem_map.1 hc'
    rcases List.mem_append.1 ha with ha | ha
    · exact (Candidate.Shows.skip (z := ⟨new, s.depthFor new⟩) (h.told a ha) (hunlike a ha)).congr (hold a ha)
    · rw [List.mem_singleton.1 ha]
      refine Candidate.Shows.of_new (fun y hy hof => ?_) (ht.descriptor _) (ht.depth _) (ht.location _)
        fun p => ?_
      · obtain ⟨b, hb, hof'⟩ := h.found y hy
        rw [hedition] at hof
        exact hunlike b hb ((Edition.same_congr hof _).symm.trans hof')
      · rw [ht.parents]
        simp [numbered]

/-- What is around a copy is not the candidate that the copy is taken in as, unless that lies
higher up. -/
theorem Indexed.exists_ties_around (h : s.Indexed) {new : NewCandidate}
    (hin : ∀ p, new.parent? = some p → p ∈ s.ids) {c : Candidate} (hc : c ∈ s.records)
    (hle : s.depthFor new ≤ c.depth) {f : Candidate → Candidate} (hid : ∀ a, (f a).id = a.id)
    (hs : s'.records = s.records.map f) : ∃ t, Ties new.parent? c.id t ∧
      (s'.linkParent new.parent? c.id).records = s.records.map fun a => t (f a) := by
  obtain ⟨t, ht, heq⟩ := exists_ties s' new.parent? c.id fun p hp => by
    obtain ⟨q, hq, rfl, hdepth⟩ := h.around hin hp
    refine ⟨fun heq => ?_, mem_ids.2 ⟨f q, hs ▸ List.mem_map_of_mem hq, hid q⟩⟩
    rw [h.eq_of_id_eq hq hc heq] at hdepth
    omega
  exact ⟨t, ht, by simp [heq, hs]⟩

section Copies

variable {new : NewCandidate} {c : Candidate} {f t : Candidate → Candidate} {keys : List String}

/-- **A copy that does not win** is told of by the candidate that it is a copy of. -/
theorem Shows.meet (h : s.Shows log) (hcat : s.Catalogued)
    (hcopy : s.copyOf? new.descriptor = some c) (hroot : s.depthFor new = 0 ↔ new.parent? = none)
    (hgains : Gains s.records c.id keys f) (hlost : wins new (s.depthFor new) c = false)
    (hprovides : ∀ key, (f c).provides key = true ↔
      c.provides key = true ∨ key ∈ new.descriptor.provides)
    {around? : Option CandidateId} (ht : Ties around? c.id t)
    (haround : ∀ p, around? = some p ↔ s.depthFor new = c.depth ∧ new.parent? = some p)
    (hs : s'.records = s.records.map fun a => t (f a)) :
    s'.Shows (log ++ [⟨new, s.depthFor new⟩]) := by
  obtain ⟨hc, hz⟩ := same_of_copyOf? hcopy
  have hdescriptor : (t (f c)).descriptor = { c.descriptor with provides := (t (f c)).aliases } := by
    rw [Candidate.aliases, ht.descriptor, hgains.frame]
  refine h.of_map hcat hc hz hroot hs ?_ ?_ fun a ha hne =>
    (hgains.alike ha hne).trans (ht.alike (by rwa [hgains.id]))
  · refine (h.told c hc).met hz hlost hdescriptor ?_ ?_ (fun key => ?_) fun p => ?_
    · rw [ht.depth, hgains.depth]
    · rw [ht.location, hgains.frame]
    · rw [provides_congr (ht.descriptor _), hprovides]
    · rw [ht.parents, hgains.parents, hgains.id, and_iff_right rfl, haround]
  · rw [Candidate.edition, Candidate.edition, hdescriptor]
    exact Edition.same_self _

/-- **A copy that wins** is told of by the candidate that it takes over. -/
theorem Shows.move (h : s.Shows log) (hcat : s.Catalogued)
    (hcopy : s.copyOf? new.descriptor = some c) (hroot : s.depthFor new = 0 ↔ new.parent? = none)
    (hgains : Gains s.records c.id keys f) (hwon : wins new (s.depthFor new) c = true)
    (hknown : ∀ key ∈ new.descriptor.provides, (f c).provides key = true)
    (hprovides : ∀ key, (f c).provides key = true ↔
      c.provides key = true ∨ key ∈ new.descriptor.provides)
    {left : List CandidateId} {g : Candidate → Candidate}
    (hmoves : Moves c.id left new (s.depthFor new) g) (ht : Ties new.parent? c.id t)
    (hs : s'.records = s.records.map fun a => t (g (f a))) :
    s'.Shows (log ++ [⟨new, s.depthFor new⟩]) := by
  obtain ⟨hc, hz⟩ := same_of_copyOf? hcopy
  have hid : new.descriptor.id = (f c).identifier :=
    (copyOf?_spec hcopy).2.1.trans (hgains.identifier c).symm
  have hindexed := hcat.indexed.gain (mem_ids.2 ⟨c, hc, rfl⟩) hgains
  have hroots := fun x hx => (h.root_concat (z := ⟨new, s.depthFor new⟩) hroot x hx).1
  refine h.of_map hcat hc hz hroot hs ?_ ?_ fun a ha hne => ?_
  · refine (h.told c hc).moved hz hwon hroots ?_ ?_ ?_ (fun key => ?_) fun p => ?_
    · rw [Candidate.aliases, ht.descriptor, hmoves.descriptor _ (hgains.id c)]
    · rw [ht.depth, hmoves.depth _ (hgains.id c)]
    · rw [ht.location, hmoves.location _ (hgains.id c)]
    · rw [provides_congr (ht.descriptor _), hindexed.provides_move (List.mem_map_of_mem hc)
        (hgains.id c) hmoves hid hknown (List.mem_map_of_mem hc), hprovides]
    · rw [ht.parents, hmoves.parents _ (hgains.id c), hmoves.id, hgains.id, and_iff_right rfl]
      exact or_iff_right List.not_mem_nil
  · rw [Candidate.edition, Candidate.edition, ht.descriptor, hmoves.descriptor _ (hgains.id c),
      Edition.same_comm]
    exact hz
  · have hfa : (f a).id ≠ c.id := by rwa [hgains.id]
    exact (hgains.alike ha hne).trans ((hmoves.alike hfa).trans (ht.alike (by rwa [hmoves.id])))

end Copies

/-- **Taking a copy in adds one sighting** to what a store tells of, whatever becomes of it. -/
theorem Shows.insert (h : s.Shows log) (hcat : s.Catalogued) {new : NewCandidate} {o : Outcome}
    (hin : ∀ p, new.parent? = some p → p ∈ s.ids) (hs : s.insert new = .ok (s', o)) :
    s'.Shows (log ++ [⟨new, s.depthFor new⟩]) := by
  have hindexed := hcat.indexed
  have hroot := hindexed.depthFor_eq_zero_iff hin
  cases hindexed.takes hs with
  | numbered hnone => exact h.number hindexed hin hnone
  | @moved c f g keys hcopy hgains hknown hdepth hmoves hwon hprovides =>
      have hmap : { s.gain f c.id keys with records := (s.gain f c.id keys).records.map g }.records
          = s.records.map fun a => g (f a) := List.map_map
      obtain ⟨t, ht, hrecords⟩ := hindexed.exists_ties_around hin (same_of_copyOf? hcopy).1 hdepth
        (fun a => (hmoves.id (f a)).trans (hgains.id a)) hmap
      exact h.move hcat hcopy hroot hgains hwon hknown hprovides hmoves ht hrecords
  | @joined c f keys hcopy hgains hdepth hlost hprovides =>
      have hmap : (s.gain f c.id keys).records = s.records.map f := rfl
      obtain ⟨t, ht, hrecords⟩ := hindexed.exists_ties_around hin (same_of_copyOf? hcopy).1
        (Nat.le_of_eq hdepth) hgains.id hmap
      exact h.meet hcat hcopy hroot hgains hlost hprovides ht (fun p => by simp [hdepth]) hrecords
  | @kept c f keys hcopy hgains hdeeper hprovides =>
      have hlost : wins new (s.depthFor new) c = false := by
        simp only [wins, Bool.or_eq_false_iff, decide_eq_false_iff_not, Bool.and_eq_false_imp,
          Bool.and_eq_true, beq_iff_eq]
        omega
      exact h.meet hcat hcopy hroot hgains hlost hprovides (ties_none c.id)
        (fun p => by simp [Nat.ne_of_gt hdeeper]) rfl

/-! ### Copies taken in one after the other -/

/-- Whether copies can be taken in one after the other, each without an error and with what is
around it in the store. -/
def admits : Store → List NewCandidate → Bool
  | _, [] => true
  | s, new :: rest =>
    new.parent?.all s.contains && (s.insert new).isOk && (s.inserted new).admits rest

/-- Copies with the depths that they are found at when they are taken in one after the other. -/
def sightings : Store → List NewCandidate → List Sighting
  | _, [] => []
  | s, new :: rest => ⟨new, s.depthFor new⟩ :: (s.inserted new).sightings rest

/-- The store of some copies. -/
def gathered (news : List NewCandidate) : Store := news.foldl inserted empty

/-- Copies are taken in by inserts. -/
theorem gathered_eq_after (news : List NewCandidate) : gathered news = after (news.map .insert) := by
  rw [gathered, after, List.foldl_map]
  rfl

/-- What copies build is catalogued. -/
theorem catalogued_gathered (news : List NewCandidate) : (gathered news).Catalogued :=
  gathered_eq_after news ▸ catalogued_after _

/-- An insert that works leaves the store that is meant. -/
theorem isOk_insert_iff {new : NewCandidate} :
    (s.insert new).isOk = true ↔ ∃ o, s.insert new = .ok (s.inserted new, o) := by
  rw [inserted]
  cases s.insert new with
  | ok r => exact ⟨fun _ => ⟨r.2, rfl⟩, fun _ => rfl⟩
  | error e => simp [Except.isOk, Except.toBool]

/-- The first of some copies is taken in before the others. -/
theorem admits_cons {new : NewCandidate} {rest : List NewCandidate} :
    s.admits (new :: rest) = true ↔ (∀ p, new.parent? = some p → p ∈ s.ids) ∧
      (∃ o, s.insert new = .ok (s.inserted new, o)) ∧ (s.inserted new).admits rest = true := by
  rw [admits, Bool.and_eq_true, Bool.and_eq_true, Option.all_eq_true, and_assoc, isOk_insert_iff]
  exact and_congr_left fun _ => by simp only [contains_iff]

/-- Copies are taken in part by part. -/
theorem admits_append : ∀ (news : List NewCandidate) {more : List NewCandidate} {s : Store},
    s.admits (news ++ more) = (s.admits news && (news.foldl inserted s).admits more)
  | [], _, _ => rfl
  | new :: rest, more, s => by
      simp only [List.cons_append, admits, admits_append rest, List.foldl_cons, Bool.and_assoc]

/-- **A store goes on to tell of what it takes in.** -/
theorem Shows.foldl_inserted : ∀ (news : List NewCandidate) {s : Store} {log : List Sighting},
    s.Shows log → s.Catalogued → s.admits news = true →
    (news.foldl inserted s).Shows (log ++ s.sightings news)
  | [], _, log, h, _, _ => (List.append_nil log).symm ▸ h
  | new :: rest, s, log, h, hcat, hadmits => by
      obtain ⟨hin, ⟨o, hs⟩, hrest⟩ := admits_cons.1 hadmits
      rw [List.foldl_cons, sightings, ← List.singleton_append, ← List.append_assoc]
      exact (h.insert hcat hin hs).foldl_inserted rest (hcat.insert hs) hrest

/-- **A store tells of all copies that it took in.** -/
theorem shows_gathered {news : List NewCandidate} (h : empty.admits news = true) :
    (gathered news).Shows (empty.sightings news) :=
  shows_empty.foldl_inserted news catalogued_empty h

/-- The last copy comes after the others. -/
theorem gathered_concat (news : List NewCandidate) (new : NewCandidate) :
    gathered (news ++ [new]) = (gathered news).inserted new := List.foldl_concat ..

/-- **One copy more**, after all that were taken in. -/
theorem admits_concat {news : List NewCandidate} {new : NewCandidate} {s' : Store} {o : Outcome}
    (h : empty.admits news = true) (hin : ∀ p, new.parent? = some p → p ∈ (gathered news).ids)
    (hs : (gathered news).insert new = .ok (s', o)) :
    empty.admits (news ++ [new]) = true ∧ gathered (news ++ [new]) = s' := by
  have hinserted : (gathered news).inserted new = s' := by rw [inserted, hs]
  refine ⟨?_, by rw [gathered_concat, hinserted]⟩
  rw [admits_append, h, Bool.true_and, ← gathered]
  exact admits_cons.2 ⟨hin, ⟨o, hinserted ▸ hs⟩, rfl⟩

/-- Each copy is seen once, in order. -/
theorem map_new_sightings : ∀ (news : List NewCandidate) (s : Store),
    (s.sightings news).map (·.new) = news
  | [], _ => rfl
  | new :: rest, s => congrArg (new :: ·) (map_new_sightings rest (s.inserted new))

/-! ### What was taken in -/

/-- Every copy is seen. -/
theorem exists_sighting {news : List NewCandidate} {new : NewCandidate} (hnew : new ∈ news) :
    ∃ x ∈ empty.sightings news, x.new = new := List.mem_map.1 ((map_new_sightings news empty).symm ▸ hnew)

/-- What is seen is a copy. -/
theorem new_mem_of_sighting {news : List NewCandidate} {x : Sighting}
    (hx : x ∈ empty.sightings news) : x.new ∈ news :=
  map_new_sightings news empty ▸ List.mem_map_of_mem hx

section Gathered

variable {news : List NewCandidate} {c : Candidate}

/-- Every copy is one of a candidate. -/
theorem exists_candidate_of_mem (h : empty.admits news = true) {new : NewCandidate} (hnew : new ∈ news) :
    ∃ c ∈ (gathered news).records, new.descriptor.edition.same c.edition = true := by
  obtain ⟨x, hx, rfl⟩ := exists_sighting hnew
  exact (shows_gathered h).found x hx

/-- Every candidate has a copy. -/
theorem exists_new_of_mem (h : empty.admits news = true) (hc : c ∈ (gathered news).records) :
    ∃ new ∈ news, new.descriptor.edition.same c.edition = true := by
  obtain ⟨x, hbest, -⟩ := ((shows_gathered h).told c hc).origin
  exact ⟨x.new, new_mem_of_sighting hbest.mem, hbest.isOf⟩

/-- **A candidate provides what any copy of it does** that was taken in. -/
theorem provides_iff_exists_new (h : empty.admits news = true) (hc : c ∈ (gathered news).records)
    (key : String) : c.provides key = true ↔
      ∃ new ∈ news, new.descriptor.edition.same c.edition = true ∧ key ∈ new.keys := by
  rw [((shows_gathered h).told c hc).provides]
  constructor
  · rintro ⟨x, hx, hof, hkey⟩
    exact ⟨x.new, new_mem_of_sighting hx, hof, hkey⟩
  · rintro ⟨new, hnew, hsame, hkey⟩
    obtain ⟨x, hx, rfl⟩ := exists_sighting hnew
    exact ⟨x, hx, hsame, hkey⟩

end Gathered

end Store
end Loadout
