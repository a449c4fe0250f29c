/-
# Copies in any order

Copies of mods, each with the mod and the version that it lies in, can be taken in one after the
other as soon as what is around them is there (`Store.arrivals`).  The same copies can come in many
orders.  Numbers differ then, but every copy is told of in both stores, with counterparts around it
(`Store.Retells`), so each thing that a store shows of its sightings can be compared.

What a mod provides, whether it is a root, and the place of a root are the same in every order.
Depths need not be, as a depth may be out of date when a copy is compared with it.  An order of
which all depths are steady has the smallest ones; two such orders agree in depths and in what is
around what, and in places and descriptors too, unless different copies are found equally far down
and none of them is a root, when the first one stays.
-/

import Loadout.Proofs.Store.Shallowest

namespace Loadout

/-- A copy of a mod, and the mod that it lies in. -/
structure Copy where
  descriptor : Descriptor
  location : Location
  /-- the mod around it; none for a root -/
  within? : Option Edition
  remap : Bool
  deriving DecidableEq, Repr

/-- A copy of version one that says nothing but what it is. -/
def Copy.plain (id : String) (within? : Option String) : Copy :=
  { descriptor := { id, version := .ofComponents [1] }, location := .file id,
    within? := within?.map fun e => ⟨e, .ofComponents [1]⟩, remap := false }

/-- A copy that lies in a candidate of a store, with the number of that. -/
def Copy.inside? (s : Store) (a : Copy) : Option NewCandidate :=
  match a.within? with
  | none => some ⟨a.descriptor, a.location, none, a.remap⟩
  | some e => (s.records.find? fun c => c.edition.same e).map fun c =>
      ⟨a.descriptor, a.location, some c.id, a.remap⟩

namespace Store

variable {s s' s'' : Store} {log log' : List Sighting}

/-- Copies as they are taken in one after the other; none if what is around one of them is not
there yet, or if there is an error. -/
def arrivals : Store → List Copy → Option (List NewCandidate)
  | _, [] => some []
  | s, a :: rest =>
    match a.inside? s with
    | none => none
    | some new =>
      if (s.insert new).isOk then ((s.inserted new).arrivals rest).map (new :: ·) else none

/-! ### Candidates stay -/

/-- **All candidates are still there**, as the same mods. -/
def Retains (s s' : Store) : Prop :=
  ∀ a ∈ s.records, ∃ b ∈ s'.records, b.id = a.id ∧ a.edition.same b.edition = true

/-- A store retains its candidates. -/
theorem retains_refl (s : Store) : s.Retains s := fun a ha => ⟨a, ha, rfl, Edition.same_self _⟩

/-- What is retained twice is retained. -/
theorem Retains.trans (h : s.Retains s') (h' : s'.Retains s'') : s.Retains s'' := by
  intro a ha
  obtain ⟨b, hb, hid, hsame⟩ := h a ha
  obtain ⟨c, hc, hid', hsame'⟩ := h' b hb
  exact ⟨c, hc, hid'.trans hid, (Edition.same_congr hsame _).trans hsame'⟩

/-- What is retained keeps its number. -/
theorem Retains.ids (h : s.Retains s') {id : CandidateId} (hid : id ∈ s.ids) : id ∈ s'.ids := by
  obtain ⟨a, ha, rfl⟩ := mem_ids.1 hid
  obtain ⟨b, hb, hid, -⟩ := h a ha
  exact mem_ids.2 ⟨b, hb, hid⟩

/-- Changes that keep numbers and editions retain the candidates. -/
theorem retains_map {f : Candidate → Candidate} (hs : s'.records = s.records.map f)
    (hid : ∀ a ∈ s.records, (f a).id = a.id)
    (hsame : ∀ a ∈ s.records, a.edition.same (f a).edition = true) : s.Retains s' :=
  fun a ha => ⟨f a, hs ▸ List.mem_map_of_mem ha, hid a ha, hsame a ha⟩

/-- A link to a container retains them. -/
theorem retains_linkParent (s : Store) (parent? : Option CandidateId) (child : CandidateId) :
    s.Retains (s.linkParent parent? child) := by
  rcases s.linkParent_cases parent? child with heq | ⟨p, -, -, -, heq⟩ <;> rw [heq]
  · exact retains_refl s
  · refine retains_map rfl (fun a _ => by rw [tie_eq]) fun a _ => ?_
    rw [Candidate.edition, Candidate.edition, tie_eq]
    exact Edition.same_self _

/-- More aliases retain the candidates. -/
theorem Gains.retains {own : CandidateId} {keys : List String} {f : Candidate → Candidate}
    (hf : Gains s.records own keys f) : s.Retains (s.gain f own keys) := by
  refine retains_map rfl (fun a _ => hf.id a) fun a _ => ?_
  rw [Candidate.edition, Candidate.edition, hf.frame]
  exact Edition.same_self _

/-- **An insert takes nothing away.** -/
theorem Catalogued.retains (h : s.Catalogued) {new : NewCandidate} {o : Outcome}
    (hs : s.insert new = .ok (s', o)) : s.Retains s' := by
  cases h.indexed.takes hs with
  | numbered =>
      refine Retains.trans (fun a ha => ?_) (retains_linkParent _ _ _)
      exact ⟨a, List.mem_append_left _ ha, rfl, Edition.same_self _⟩
  | @moved c f g keys hcopy hgains _ _ hmoves =>
      refine hgains.retains.trans (Retains.trans ?_ (retains_linkParent _ _ _))
      obtain ⟨hc, hid, hversion⟩ := copyOf?_spec hcopy
      refine retains_map rfl (fun a _ => hmoves.id a) fun a ha => ?_
      by_cases hac : a.id = c.id
      · obtain ⟨b, hb, rfl⟩ := List.mem_map.1 ha
        rw [h.indexed.eq_of_id_eq hb hc ((hgains.id b).symm.trans hac), Candidate.edition,
          Candidate.edition, hmoves.descriptor _ (hgains.id c), Edition.same_iff]
        exact ⟨(hgains.identifier c).trans hid.symm,
          (congrArg (fun v => v.sameAs new.descriptor.version) (hgains.version c)).trans hversion⟩
      · rw [hmoves.others a hac]
        exact Edition.same_self _
  | joined _ hgains => exact hgains.retains.trans (retains_linkParent _ _ _)
  | kept _ hgains => exact hgains.retains

/-- What gets a number is in the store under that number. -/
theorem Indexed.mem_ids_of_insert (h : s.Indexed) {new : NewCandidate} {id : CandidateId}
    (hs : s.insert new = .ok (s', .inserted id)) : id ∈ s'.ids := by
  cases h.takes hs with
  | numbered =>
      have hin : s.nextId ∈ (s.add (s.numbered new)).ids :=
        mem_ids.2 ⟨s.numbered new, List.mem_append_right _ (List.mem_singleton_self _), rfl⟩
      exact (retains_linkParent _ _ _).ids hin

/-- What gets no number of its own is a copy. -/
theorem Indexed.exists_copy (h : s.Indexed) {new : NewCandidate} {o : Outcome}
    (hs : s.insert new = .ok (s', o)) (hold : o.isInserted = false) :
    ∃ c ∈ s.records, new.descriptor.edition.same c.edition = true := by
  cases h.takes hs with
  | numbered => exact absurd hold (by simp [Outcome.isInserted])
  | moved copy => exact ⟨_, same_of_copyOf? copy⟩
  | joined copy => exact ⟨_, same_of_copyOf? copy⟩
  | kept copy => exact ⟨_, same_of_copyOf? copy⟩

end Store

/-! ### Copies and sightings -/

/-- **A sighting is one of a copy** that lies in a candidate of the store. -/
structure Sighting.Reports (s : Store) (x : Sighting) (a : Copy) : Prop where
  descriptor : x.new.descriptor = a.descriptor
  location : x.new.location = a.location
  alone : a.within? = none → x.new.parent? = none
  around : ∀ e, a.within? = some e →
    ∃ q ∈ s.records, q.edition.same e = true ∧ x.new.parent? = some q.id

namespace Store

variable {s s' : Store} {log log' : List Sighting} {copies xs ys : List Copy}
  {news news' : List NewCandidate}

/-- A sighting goes on to report its copy, where candidates are retained. -/
theorem Retains.reports (h : s.Retains s') {x : Sighting} {a : Copy} (hx : x.Reports s a) :
    x.Reports s' a := by
  refine ⟨hx.descriptor, hx.location, hx.alone, fun e he => ?_⟩
  obtain ⟨q, hq, hsame, hp⟩ := hx.around e he
  obtain ⟨q', hq', hid, hsame'⟩ := h q hq
  exact ⟨q', hq', (Edition.same_congr hsame' e).symm.trans hsame, hid ▸ hp⟩

/-- A copy that is taken in is reported at whatever depth it gets. -/
theorem reports_of_inside? {a : Copy} {new : NewCandidate} (h : a.inside? s = some new)
    (depth : Nat) : Sighting.Reports s ⟨new, depth⟩ a := by
  rw [Copy.inside?] at h
  split at h
  · rename_i hnone
    obtain rfl := Option.some.inj h
    exact ⟨rfl, rfl, fun _ => rfl, fun e he => by simp [hnone] at he⟩
  · rename_i e hsome
    obtain ⟨q, hfind, rfl⟩ := Option.map_eq_some_iff.1 h
    refine ⟨rfl, rfl, fun hnone => by simp [hnone] at hsome, fun e' he => ?_⟩
    obtain rfl := Option.some.inj (hsome.symm.trans he)
    have hsame := List.find?_some hfind
    exact ⟨q, List.mem_of_find?_eq_some hfind, hsame, rfl⟩

/-- The first of some copies lies in what is there, and is taken in before the others. -/
theorem arrivals_cons {a : Copy} {rest : List Copy} (h : s.arrivals (a :: rest) = some news) :
    ∃ new more, a.inside? s = some new ∧ (∃ o, s.insert new = .ok (s.inserted new, o)) ∧
      (s.inserted new).arrivals rest = some more ∧ news = new :: more := by
  rw [arrivals] at h
  split at h
  · exact absurd h (by simp)
  rename_i new hinside
  split at h
  · rename_i hok
    obtain ⟨more, hmore, rfl⟩ := Option.map_eq_some_iff.1 h
    exact ⟨new, more, hinside, isOk_insert_iff.1 hok, hmore, rfl⟩
  · exact absurd h (by simp)

/-- The copies that a store tells of, and the sightings of them. -/
structure Collected (s : Store) (log : List Sighting) (copies : List Copy) : Prop where
  reported : ∀ x ∈ log, ∃ a ∈ copies, x.Reports s a
  seen : ∀ a ∈ copies, ∃ x ∈ log, x.Reports s a

/-- Copies are collected part by part. -/
theorem Collected.append (h : s.Collected log xs) (h' : s.Collected log' ys) :
    s.Collected (log ++ log') (xs ++ ys) := by
  refine ⟨fun x hx => ?_, fun a ha => ?_⟩
  · rcases List.mem_append.1 hx with hx | hx
    · exact (h.reported x hx).imp fun _ => And.imp_left (List.mem_append_left _)
    · exact (h'.reported x hx).imp fun _ => And.imp_left (List.mem_append_right _)
  · rcases List.mem_append.1 ha with ha | ha
    · exact (h.seen a ha).imp fun _ => And.imp_left (List.mem_append_left _)
    · exact (h'.seen a ha).imp fun _ => And.imp_left (List.mem_append_right _)

/-- One copy is collected by what reports it. -/
theorem collected_singleton {x : Sighting} {a : Copy} (h : x.Reports s a) :
    s.Collected [x] [a] :=
  ⟨fun _ hx => ⟨a, List.mem_singleton_self a, List.mem_singleton.1 hx ▸ h⟩,
    fun _ ha => ⟨x, List.mem_singleton_self x, List.mem_singleton.1 ha ▸ h⟩⟩

/-- **Copies that arrive are taken in**, and every one of them is told of. -/
theorem collected_of_arrivals : ∀ (copies : List Copy) {s : Store} {news : List NewCandidate},
    s.Catalogued → s.arrivals copies = some news →
    s.admits news = true ∧ s.Retains (news.foldl inserted s) ∧
      (news.foldl inserted s).Collected (s.sightings news) copies
  | [], s, news, _, h => by
      obtain rfl := Option.some.inj h
      exact ⟨rfl, retains_refl s, fun _ hx => absurd hx List.not_mem_nil,
        fun _ ha => absurd ha List.not_mem_nil⟩
  | a :: rest, s, news, hcat, h => by
      obtain ⟨new, more, hinside, ⟨o, hs⟩, hmore, rfl⟩ := arrivals_cons h
      have hreport := reports_of_inside? hinside (s.depthFor new)
      obtain ⟨hadmits, hretains, hcollected⟩ := collected_of_arrivals rest (hcat.insert hs) hmore
      have hall := (hcat.retains hs).trans hretains
      refine ⟨admits_cons.2 ⟨fun p hp => ?_, ⟨o, hs⟩, hadmits⟩, hall,
        (collected_singleton (hall.reports hreport)).append hcollected⟩
      cases hwithin : a.within? with
      | none => rw [hreport.alone hwithin] at hp; exact absurd hp (by simp)
      | some e =>
          obtain ⟨q, hq, -, hq'⟩ := hreport.around e hwithin
          exact mem_ids.2 ⟨q, hq, Option.some.inj (hq'.symm.trans hp)⟩

end Store

/-! ### The same copies in another store -/

/-- **Two sightings of one copy** in two stores, with what is around it in each. -/
structure Sighting.Matches (s s' : Store) (x x' : Sighting) : Prop where
  descriptor : x'.new.descriptor = x.new.descriptor
  location : x'.new.location = x.new.location
  alone : x.new.parent? = none → x'.new.parent? = none
  around : ∀ p, x.new.parent? = some p → ∃ q ∈ s.records, q.id = p ∧
    ∃ q' ∈ s'.records, q.edition.same q'.edition = true ∧ x'.new.parent? = some q'.id

/-- Matching sightings are of the same edition. -/
theorem Sighting.Matches.isOf {s s' : Store} {x x' : Sighting} (h : x.Matches s s' x') {e e' : Edition}
    (hsame : e.same e' = true) (hof : x.IsOf e) : x'.IsOf e' := by
  rw [Sighting.IsOf, h.descriptor]
  exact (Sighting.isOf_congr hsame).1 hof

/-- Two copies have one place, and they need and are loaded alike. -/
def Sighting.Interchangeable (x y : Sighting) : Prop :=
  x.new.location = y.new.location ∧
  x.new.descriptor.dependencies = y.new.descriptor.dependencies ∧
  x.new.descriptor.load? = y.new.descriptor.load?

/-- Whether copies of one mod of which none beats another one are as good as each other. -/
def Undisputed (log : List Sighting) : Prop :=
  ∀ x ∈ log, ∀ y ∈ log, y.IsOf x.new.descriptor.edition → ¬ x.Beats y → ¬ y.Beats x →
    x.Interchangeable y

instance (x y : Sighting) : Decidable (x.Beats y) :=
  inferInstanceAs (Decidable (_ ∨ (_ ∧ _ ∧ _)))

instance (log : List Sighting) : Decidable (Undisputed log) :=
  inferInstanceAs (Decidable (∀ x ∈ log, ∀ y ∈ log,
    y.new.descriptor.edition.same x.new.descriptor.edition = true → _ → _ → (_ ∧ _ ∧ _)))

/-- **Two candidates agree** as far as candidates of the same copies do in every order. -/
structure Candidate.Agrees (c c' : Candidate) : Prop where
  edition : c.edition.same c'.edition = true
  provides : ∀ key, c.provides key = true ↔ c'.provides key = true
  isRoot : c.isRoot = true ↔ c'.isRoot = true
  key : c.isRoot = true → c.location.key = c'.location.key

namespace Store

variable {s s' : Store} {log log' : List Sighting} {xs ys : List Copy}
  {news news' : List NewCandidate} {c c' : Candidate}

/-- What is told of in one store is told of in another one. -/
def Retells (s : Store) (log : List Sighting) (s' : Store) (log' : List Sighting) : Prop :=
  ∀ x ∈ log, ∃ x' ∈ log', x.Matches s s' x'

/-- A mod in a version is around a candidate. -/
def Surrounds (s : Store) (e : Edition) (c : Candidate) : Prop :=
  ∃ q ∈ s.records, q.id ∈ c.parents ∧ q.edition.same e = true

/-- What is collected of some copies is told of wherever all of them are. -/
theorem Collected.retells (h : s.Collected log xs) (h' : s'.Collected log' ys)
    (hsub : ∀ a ∈ xs, a ∈ ys) : s.Retells log s' log' := by
  intro x hx
  obtain ⟨a, ha, hreport⟩ := h.reported x hx
  obtain ⟨x', hx', hreport'⟩ := h'.seen a (hsub a ha)
  refine ⟨x', hx', hreport'.descriptor.trans hreport.descriptor.symm,
    hreport'.location.trans hreport.location.symm, fun hnone => ?_, fun p hp => ?_⟩
  · refine hreport'.alone (Option.eq_none_iff_forall_ne_some.2 fun e he => ?_)
    obtain ⟨_, -, -, hp⟩ := hreport.around e he
    exact absurd (hnone.symm.trans hp) (by simp)
  · cases hwithin : a.within? with
    | none => exact absurd ((hreport.alone hwithin).symm.trans hp) (by simp)
    | some e =>
        obtain ⟨q, hq, hsame, hp'⟩ := hreport.around e hwithin
        obtain ⟨q', hq', hsame', hp''⟩ := hreport'.around e hwithin
        refine ⟨q, hq, Option.some.inj (hp'.symm.trans hp), q', hq', ?_, hp''⟩
        rw [Edition.same_comm, Edition.same_congr_right hsame, hsame']

namespace Retells

/-- **Every candidate has a counterpart.** -/
theorem exists_counterpart (h : s.Retells log s' log') (hs : s.Shows log) (hs' : s'.Shows log')
    (hc : c ∈ s.records) : ∃ c' ∈ s'.records, c.edition.same c'.edition = true := by
  obtain ⟨x, hbest, -⟩ := (hs.told c hc).origin
  obtain ⟨x', hx', hmatches⟩ := h x hbest.mem
  obtain ⟨c', hc', hof⟩ := hs'.found x' hx'
  rw [Sighting.IsOf, hmatches.descriptor, Edition.same_congr hbest.isOf] at hof
  exact ⟨c', hc', hof⟩

/-- Where sightings are told of again, so are all keys that they provide. -/
theorem provides (h : s.Retells log s' log') (hs : s.Shows log) (hs' : s'.Shows log')
    (hc : c ∈ s.records) (hc' : c' ∈ s'.records) (hsame : c.edition.same c'.edition = true)
    {key : String} (hkey : c.provides key = true) : c'.provides key = true := by
  obtain ⟨x, hx, hof, hkey⟩ := ((hs.told c hc).provides key).1 hkey
  obtain ⟨x', hx', hmatches⟩ := h x hx
  refine ((hs'.told c' hc').provides key).2 ⟨x', hx', hmatches.isOf hsame hof, ?_⟩
  rwa [NewCandidate.keys, hmatches.descriptor]

/-- Where sightings are told of again, what was a root is one. -/
theorem isRoot (h : s.Retells log s' log') (hs : s.Shows log) (hs' : s'.Shows log')
    (hc : c ∈ s.records) (hc' : c' ∈ s'.records) (hsame : c.edition.same c'.edition = true)
    (hroot : c.isRoot = true) : c'.isRoot = true := by
  obtain ⟨x, hx, hof, hnone⟩ := (hs.isRoot_iff hc).1 hroot
  obtain ⟨x', hx', hmatches⟩ := h x hx
  exact (hs'.isRoot_iff hc').2 ⟨x', hx', hmatches.isOf hsame hof, hmatches.alone hnone⟩

/-- No root has a smaller key than its counterpart. -/
theorem not_key_lt (h : s.Retells log s' log') (hs : s.Shows log) (hs' : s'.Shows log')
    (hc : c ∈ s.records) (hc' : c' ∈ s'.records) (hsame : c.edition.same c'.edition = true)
    (hroot : c.isRoot = true) : compare c.location.key c'.location.key ≠ .lt := by
  obtain ⟨x, hbest, hdepth, hlocation, -⟩ := (hs.told c hc).origin
  obtain ⟨z', hbest', hdepth', hlocation', -⟩ := (hs'.told c' hc').origin
  obtain ⟨x', hx', hmatches⟩ := h x hbest.mem
  have hzero : x.new.parent? = none :=
    (hs.root x hbest.mem).1 (hdepth.symm.trans (hs.depth_eq_zero hc hroot))
  have hz' : z'.depth = 0 :=
    hdepth'.symm.trans (hs'.depth_eq_zero hc' (h.isRoot hs hs' hc hc' hsame hroot))
  intro hlt
  refine hbest'.not_beats hx' (hmatches.isOf hsame hbest.isOf)
    (Or.inr ⟨(hs'.root x' hx').2 (hmatches.alone hzero), hz', ?_⟩)
  rwa [hmatches.location, ← hlocation, ← hlocation']

/-- **Candidates of the same copies agree.** -/
theorem agrees (h : s.Retells log s' log') (h' : s'.Retells log' s log) (hs : s.Shows log)
    (hs' : s'.Shows log') (hc : c ∈ s.records) (hc' : c' ∈ s'.records)
    (hsame : c.edition.same c'.edition = true) : c.Agrees c' := by
  have hsame' : c'.edition.same c.edition = true := by rwa [Edition.same_comm]
  refine ⟨hsame, fun key => ⟨h.provides hs hs' hc hc' hsame, h'.provides hs' hs hc' hc hsame'⟩,
    ⟨h.isRoot hs hs' hc hc' hsame, h'.isRoot hs' hs hc' hc hsame'⟩, fun hroot => ?_⟩
  have hlt := h.not_key_lt hs hs' hc hc' hsame hroot
  have hgt := h'.not_key_lt hs' hs hc' hc hsame' (h.isRoot hs hs' hc hc' hsame hroot)
  rw [Std.OrientedOrd.eq_swap, ne_eq, Ordering.swap_eq_lt] at hgt
  cases hcompare : compare c.location.key c'.location.key with
  | lt => exact absurd hcompare hlt
  | eq => exact Std.LawfulEqOrd.eq_of_compare hcompare
  | gt => exact absurd hcompare hgt

/-- **Routes along finds** are the same. -/
theorem route (h : s.Retells log s' log') (hindexed : s.Indexed) {n : Nat} {id : CandidateId}
    (hroute : Route (s.FoundAlone log) (s.FoundIn log) n id) :
    ∀ c ∈ s.records, c.id = id → ∀ c' ∈ s'.records, c.edition.same c'.edition = true →
      Route (s'.FoundAlone log') (s'.FoundIn log') n c'.id := by
  induction hroute with
  | start hfound =>
      obtain ⟨a, ha, rfl, x, hx, hof, hnone⟩ := hfound
      intro c hc hid c' hc' hsame
      obtain rfl := hindexed.eq_of_id_eq hc ha hid
      obtain ⟨x', hx', hmatches⟩ := h x hx
      exact .start ⟨c', hc', rfl, x', hx', hmatches.isOf hsame hof, hmatches.alone hnone⟩
  | along _ hfound ih =>
      obtain ⟨a, ha, rfl, x, hx, hof, hp⟩ := hfound
      intro c hc hid c' hc' hsame
      obtain rfl := hindexed.eq_of_id_eq hc ha hid
      obtain ⟨x', hx', hmatches⟩ := h x hx
      obtain ⟨q, hq, hqp, q', hq', hqsame, hp'⟩ := hmatches.around _ hp
      exact .along (ih q hq hqp q' hq' hqsame)
        ⟨c', hc', rfl, x', hx', hmatches.isOf hsame hof, hp'⟩

end Retells

/-! ### Where depths are steady -/

/-- **Counterparts lie equally deep.** -/
def Level (s s' : Store) : Prop := ∀ c ∈ s.records, ∀ c' ∈ s'.records,
  c.edition.same c'.edition = true → c.depth = c'.depth

section Level

variable (hlevel : s.Level s') (hs : s.Shows log) (hs' : s'.Shows log') (hsteady : s.Steady log)
  (hsteady' : s'.Steady log')

include hlevel hs hs' hsteady hsteady'

/-- A copy was found equally deep. -/
theorem Sighting.Matches.depth_eq {x x' : Sighting} (hx : x ∈ log) (hx' : x' ∈ log')
    (h : x.Matches s s' x') : x'.depth = x.depth := by
  cases hp : x.new.parent? with
  | none => rw [(hs.root x hx).2 hp, (hs'.root x' hx').2 (h.alone hp)]
  | some p =>
      obtain ⟨q, hq, rfl, q', hq', hsame, hp'⟩ := h.around p hp
      rw [hsteady x hx q hq hp, hsteady' x' hx' q' hq' hp', hlevel q hq q' hq' hsame]

/-- The same mods are around counterparts. -/
theorem Retells.surrounds (h : s.Retells log s' log') (hindexed : s.Indexed)
    (hc : c ∈ s.records) (hc' : c' ∈ s'.records) (hsame : c.edition.same c'.edition = true)
    {e : Edition} (he : s.Surrounds e c) : s'.Surrounds e c' := by
  obtain ⟨q, hq, hqc, hqe⟩ := he
  obtain ⟨x, hx, hof, hdepth, hp⟩ := ((hs.told c hc).parents q.id).1 hqc
  obtain ⟨x', hx', hmatches⟩ := h x hx
  obtain ⟨r, hr, hid, q', hq', hqsame, hp'⟩ := hmatches.around q.id hp
  obtain rfl := hindexed.eq_of_id_eq hr hq hid
  refine ⟨q', hq', ((hs'.told c' hc').parents q'.id).2
    ⟨x', hx', hmatches.isOf hsame hof, ?_, hp'⟩, (Edition.same_congr hqsame e).symm.trans hqe⟩
  rw [Sighting.Matches.depth_eq hlevel hs hs' hsteady hsteady' hx hx' hmatches, hdepth,
    hlevel c hc c' hc' hsame]

/-- Where no copies are in dispute, counterparts have one origin. -/
theorem Retells.origin (h : s.Retells log s' log') (h' : s'.Retells log' s log)
    (hundisputed : Undisputed log) (hc : c ∈ s.records) (hc' : c' ∈ s'.records)
    (hsame : c.edition.same c'.edition = true) :
    c.location = c'.location ∧ c.descriptor.dependencies = c'.descriptor.dependencies ∧
      c.descriptor.load? = c'.descriptor.load? := by
  obtain ⟨x, hbest, -, hlocation, hdescriptor⟩ := (hs.told c hc).origin
  obtain ⟨z', hbest', -, hlocation', hdescriptor'⟩ := (hs'.told c' hc').origin
  obtain ⟨x', hx', hx⟩ := h x hbest.mem
  obtain ⟨z, hzl, hz⟩ := h' z' hbest'.mem
  have hlevel' : s'.Level s := fun a ha b hb hab =>
    (hlevel b hb a ha ((Edition.same_comm _ _).trans hab)).symm
  have hxd := Sighting.Matches.depth_eq hlevel hs hs' hsteady hsteady' hbest.mem hx' hx
  have hzd := Sighting.Matches.depth_eq hlevel' hs' hs hsteady' hsteady hbest'.mem hzl hz
  have hzof : z.IsOf c.edition := hz.isOf ((Edition.same_comm _ _).trans hsame) hbest'.isOf
  have hnot : ¬ x.Beats z := by
    intro hbeats
    refine hbest'.not_beats hx' (hx.isOf hsame hbest.isOf) ?_
    rwa [Sighting.Beats, hxd, ← hzd, hx.location, ← hz.location]
  obtain ⟨hloc, hdeps, hload⟩ := hundisputed x hbest.mem z hzl
    ((Sighting.isOf_congr ((Edition.same_comm _ _).trans hbest.isOf)).1 hzof) hnot
    (hbest.not_beats hzl hzof)
  rw [hlocation, hlocation', hloc, hz.location, hdescriptor, hdescriptor', hdeps, hload,
    hz.descriptor]
  exact ⟨rfl, rfl, rfl⟩

end Level

/-- **Steady depths are the same in every order.** -/
theorem Retells.level (h : s.Retells log s' log') (h' : s'.Retells log' s log) (hs : s.Shows log)
    (hs' : s'.Shows log') (hnested : s.Nested) (hnested' : s'.Nested) (hsteady : s.Steady log)
    (hsteady' : s'.Steady log') : s.Level s' := by
  intro c hc c' hc' hsame
  have hleast := hs.isLeast_depth hnested hsteady hc
  have hleast' := hs'.isLeast_depth hnested' hsteady' hc'
  have hsame' : c'.edition.same c.edition = true := by rwa [Edition.same_comm]
  exact Nat.le_antisymm
    (hleast.2 (h'.route hnested'.coherent.indexed hleast'.1 c' hc' rfl c hc hsame'))
    (hleast'.2 (h.route hnested.coherent.indexed hleast.1 c hc rfl c' hc' hsame))

/-- **Counterparts in two steady orders** lie equally deep in the same mods, and where no copies
are in dispute they have one origin. -/
theorem Retells.alike (h : s.Retells log s' log') (h' : s'.Retells log' s log) (hs : s.Shows log)
    (hs' : s'.Shows log') (hnested : s.Nested) (hnested' : s'.Nested) (hsteady : s.Steady log)
    (hsteady' : s'.Steady log') (hc : c ∈ s.records) (hc' : c' ∈ s'.records)
    (hsame : c.edition.same c'.edition = true) :
    c.depth = c'.depth ∧ (∀ e, s.Surrounds e c ↔ s'.Surrounds e c') ∧
      (Undisputed log → c.location = c'.location ∧
        c.descriptor.dependencies = c'.descriptor.dependencies ∧ c.load = c'.load) := by
  have hlevel := h.level h' hs hs' hnested hnested' hsteady hsteady'
  have hlevel' := h'.level h hs' hs hnested' hnested hsteady' hsteady
  have hsame' : c'.edition.same c.edition = true := by rwa [Edition.same_comm]
  have hagrees := h.agrees h' hs hs' hc hc' hsame
  refine ⟨hlevel c hc c' hc' hsame, fun e => ⟨?_, ?_⟩, fun hundisputed => ?_⟩
  · exact h.surrounds hlevel hs hs' hsteady hsteady' hnested.coherent.indexed hc hc' hsame
  · exact h'.surrounds hlevel' hs' hs hsteady' hsteady hnested'.coherent.indexed hc' hc hsame'
  · obtain ⟨hloc, hdeps, hload⟩ :=
      h.origin hlevel hs hs' hsteady hsteady' h' hundisputed hc hc' hsame
    refine ⟨hloc, hdeps, ?_⟩
    rw [Candidate.load, Candidate.load, hload, Bool.eq_iff_iff.2 hagrees.isRoot]

/-- **What does not depend on the order in which copies come.**  The same copies are taken in in
two orders, each after what is around it, both times without an error, and depths are computed.
Then the candidates correspond to each other, and they agree in what they provide, in whether they
are roots, and in the keys of the places of roots.  If all depths were steady in one order, its
depths are the smaller ones.  If they were in both, depths are the same and so is what is around
what; and where no copies are in dispute, counterparts have the same place and are needed and
loaded alike. -/
theorem gathered_in_any_order (xs ys : List Copy) (hmem : ∀ a, a ∈ xs ↔ a ∈ ys)
    (news news' : List NewCandidate) (hx : empty.arrivals xs = some news)
    (hy : empty.arrivals ys = some news') :
    (∀ c' ∈ (gathered news').settleDepths.records, ∃ c ∈ (gathered news).settleDepths.records,
      c.edition.same c'.edition = true) ∧
    ∀ c ∈ (gathered news).settleDepths.records, ∃ c' ∈ (gathered news').settleDepths.records,
      c.Agrees c' ∧ ((gathered news).Steady (empty.sightings news) → c.depth ≤ c'.depth ∧
        ((gathered news').Steady (empty.sightings news') → c.depth = c'.depth ∧
          (∀ e, (gathered news).settleDepths.Surrounds e c ↔
            (gathered news').settleDepths.Surrounds e c') ∧
          (Undisputed (empty.sightings news) → c.location = c'.location ∧
            c.descriptor.dependencies = c'.descriptor.dependencies ∧ c.load = c'.load))) := by
  obtain ⟨hadmits, -, hcollected⟩ := collected_of_arrivals xs catalogued_empty hx
  obtain ⟨hadmits', -, hcollected'⟩ := collected_of_arrivals ys catalogued_empty hy
  have h := hcollected.retells hcollected' fun a => (hmem a).1
  have h' := hcollected'.retells hcollected fun a => (hmem a).2
  have hs := shows_gathered hadmits
  have hs' := shows_gathered hadmits'
  obtain ⟨f, heq, hf, hdepths⟩ := exists_settled hadmits
  obtain ⟨f', heq', hf', hdepths'⟩ := exists_settled hadmits'
  have hedition : ∀ a, (f a).edition = a.edition := fun a => by rw [Candidate.edition, hf]; rfl
  have hedition' : ∀ a, (f' a).edition = a.edition := fun a => by rw [Candidate.edition, hf']; rfl
  refine ⟨fun b' hb' => ?_, fun b hb => ?_⟩
  · rw [heq'] at hb'
    obtain ⟨c', hc', rfl⟩ := List.mem_map.1 hb'
    obtain ⟨c, hc, hsame⟩ := h'.exists_counterpart hs' hs hc'
    refine ⟨f c, heq ▸ List.mem_map_of_mem hc, ?_⟩
    rwa [hedition, hedition', Edition.same_comm]
  rw [heq] at hb
  obtain ⟨c, hc, rfl⟩ := List.mem_map.1 hb
  obtain ⟨c', hc', hsame⟩ := h.exists_counterpart hs hs' hc
  have hagrees : (f c).Agrees (f' c') := by
    obtain ⟨hedition, hprovides, hroot, hkey⟩ := h.agrees h' hs hs' hc hc' hsame
    rw [hf, hf']
    exact ⟨hedition, hprovides, hroot, hkey⟩
  refine ⟨f' c', heq' ▸ List.mem_map_of_mem hc', hagrees, fun hsteady => ⟨?_, fun hsteady' => ?_⟩⟩
  · refine ((hdepths c hc).2.2 hsteady).2 (h'.route (catalogued_gathered news').indexed
      (hdepths' c' hc').2.1 c' hc' rfl c hc ?_)
    rwa [Edition.same_comm]
  · -- new depths are the old ones, so that all can be said about the stores as they were
    have hsettled := hs.settleDepths_eq (nested_gathered news) hsteady
    have hsettled' := hs'.settleDepths_eq (nested_gathered news') hsteady'
    have hfc : f c ∈ (gathered news).records := hsettled ▸ heq ▸ List.mem_map_of_mem hc
    have hfc' : f' c' ∈ (gathered news').records := hsettled' ▸ heq' ▸ List.mem_map_of_mem hc'
    rw [hsettled, hsettled']
    exact h.alike h' hs hs' (nested_gathered news) (nested_gathered news') hsteady hsteady' hfc hfc'
      hagrees.edition

/-- A library is found twice, and something is found in it. -/
def twiceFound : List Copy :=
  [.plain "app" none, .plain "tool" (some "app"), .plain "lib" (some "tool"),
    .plain "lib" (some "app"), .plain "util" (some "lib")]

/-- The same, with the copy that lies higher first. -/
def twiceFoundAgain : List Copy :=
  [.plain "app" none, .plain "lib" (some "app"), .plain "util" (some "lib"),
    .plain "tool" (some "app"), .plain "lib" (some "tool")]

/-- How they arrive. -/
def highestFirst : List NewCandidate :=
  [.plain "app" none, .plain "lib" (some 0), .plain "util" (some 1), .plain "tool" (some 0),
    .plain "lib" (some 3)]

/-- Two orders of finding the same copies give stores that differ, but whose candidates agree, with
the same depths. -/
theorem gathered_in_any_order_twiceFound :
    twiceFound.Perm twiceFoundAgain ∧
    empty.arrivals twiceFound = some foundHigher ∧
    empty.arrivals twiceFoundAgain = some highestFirst ∧
    (gathered foundHigher).settleDepths ≠ (gathered highestFirst).settleDepths ∧
    ∀ c ∈ (gathered foundHigher).settleDepths.records,
      ∃ c' ∈ (gathered highestFirst).settleDepths.records,
        c.Agrees c' ∧ c.depth = c'.depth ∧ c.location = c'.location ∧
          ∀ e, (gathered foundHigher).settleDepths.Surrounds e c ↔
            (gathered highestFirst).settleDepths.Surrounds e c' := by
  have hperm : twiceFound.Perm twiceFoundAgain := by decide +kernel
  refine ⟨hperm, by decide +kernel, by decide +kernel, by decide +kernel, fun c hc => ?_⟩
  obtain ⟨c', hc', hagrees, hsteady⟩ := (gathered_in_any_order twiceFound twiceFoundAgain
    (fun a => hperm.mem_iff) foundHigher highestFirst (by decide +kernel) (by decide +kernel)).2 c hc
  obtain ⟨hdepth, hsurrounds, hundisputed⟩ := (hsteady (by decide +kernel)).2 (by decide +kernel)
  exact ⟨c', hc', hagrees, hdepth, (hundisputed (by decide +kernel)).1, hsurrounds⟩

/-- Where a depth is out of date in one order, depths differ. -/
example :
    let early : List Copy := [.plain "app" none, .plain "tool" (some "app"),
      .plain "lib" (some "tool"), .plain "util" (some "lib"), .plain "lib" none,
      .plain "util" (some "tool")]
    let late : List Copy := [.plain "app" none, .plain "tool" (some "app"), .plain "lib" none,
      .plain "lib" (some "tool"), .plain "util" (some "lib"), .plain "util" (some "tool")]
    early.Perm late ∧
    (empty.arrivals early).map (fun news => ((gathered news).settleDepths.get? 3).map (·.depth)) =
      some (some 2) ∧
    (empty.arrivals late).map (fun news => ((gathered news).settleDepths.get? 3).map (·.depth)) =
      some (some 1) := by
  decide +kernel

end Store
end Loadout
