/-
# What is learned from a conflict

A walk back over the trail counts the variables of the present level that it has met and
not yet passed, and keeps the literals of lower levels (`Walk.Along`).  As long as it
runs, a valuation that meets the rules makes one of the literals kept true, or
contradicts the trail at one of the variables ahead (`Walk.Leads`): passing a forced
variable replaces it by the rest of the clause that forced it.  A decision is never
passed, since nothing of its level lies before it, so the walk ends at a single variable
(`walkBack_spec`).

What is learned this way has one literal of the present level and a level to go back to
below it at which all the others are false (`Learns`, `analyze_spec`), and every
valuation that meets the rules and the false clause meets it.
-/

import Loadout.Proofs.Search.Trail
import Loadout.Search.Conflict
import Mathlib.Data.List.Count

namespace Loadout

/-- No at-most-one rule has fewer than two literals. -/
def RuleSet.Wide (rules : RuleSet Nat) : Prop :=
  ∀ r ∈ rules.toList, r.isAtMostOne = true → 2 ≤ r.literals.length

instance (rules : RuleSet Nat) : Decidable rules.Wide :=
  inferInstanceAs (Decidable (∀ r ∈ rules.toList, r.isAtMostOne = true → 2 ≤ r.literals.length))

/-- A valuation meets rules **as the search reads them**: it makes the only literal of a rule
true even where the rule asks for no more than that at most one is false. -/
structure RuleSet.MetBy {α : Type} (rules : RuleSet α) (val : α → Bool) : Prop where
  holds : rules.holds val = true
  short : ∀ r ∈ rules.toList, r.literals.length < 2 → ∃ l ∈ r.literals, l.holds val = true

/-- Without short at-most-one rules this is to meet the rules. -/
theorem RuleSet.Wide.metBy_iff {rules : RuleSet Nat} (hwide : rules.Wide) {val : Nat → Bool} :
    rules.MetBy val ↔ rules.holds val = true := by
  refine ⟨fun h => h.holds, fun h => ⟨h, fun r hr hshort => ?_⟩⟩
  have hk : r.isAtMostOne = false := by
    by_contra hk
    have := hwide r hr (by simpa using hk)
    omega
  exact (Rule.holds_iff_exists hk val).1 ((RuleSet.holds_iff _ val).1 h r hr)

namespace Search

variable {rules : RuleSet Nat} {n : Nat} {t : Trail Trail.unbounded}

/-! ### Reasons -/

/-- The literals beside a forced one were false before it. -/
theorem Justified.assigns_flip {older : List Assignment} {e : Assignment}
    (h : Justified rules older e) {l : Lit}
    (hl : l ∈ reasonClause rules e.reason?) (hne : l ≠ e.literal) : Assigns older l.flip := by
  unfold Justified at h
  split at h
  · rename_i hr
    rw [hr] at hl
    exact absurd hl List.not_mem_nil
  · rename_i id hr
    obtain ⟨r, hid, -, -, hothers⟩ := h
    rw [hr, reasonClause, hid] at hl
    exact hothers l hl hne
  · rename_i cause hr
    rw [hr, reasonClause, List.mem_singleton] at hl
    exact hl ▸ h.1

/-- A valuation that meets the rules and not a forced literal meets another literal of the
clause that forced it. -/
theorem Justified.exists_holds {older : List Assignment} {e : Assignment}
    (hrule : ∀ r ∈ rules.toList, r.literals.Nodup)
    (h : Justified rules older e) (hforced : e.reason? ≠ none) {val : Nat → Bool}
    (hmet : rules.MetBy val) (he : e.literal.holds val = false) :
    ∃ l ∈ reasonClause rules e.reason?, l ≠ e.literal ∧ l.holds val = true := by
  have hval := (RuleSet.holds_iff _ val).1 hmet.holds
  unfold Justified at h
  split at h
  · rename_i hr
    exact absurd hr hforced
  · rename_i id hr
    obtain ⟨r, hid, hord, -, -⟩ := h
    have hmem := RuleSet.mem_of_get? hid
    obtain ⟨l, hl, hlv⟩ : ∃ l ∈ r.literals, l.holds val = true := by
      rcases hord with hord | hsingle
      · exact (Rule.holds_iff_exists hord val).1 (hval r hmem)
      · exact hmet.short r hmem (by simp [hsingle])
    refine ⟨l, by simpa [hr, reasonClause, hid] using hl, ?_, hlv⟩
    rintro rfl
    rw [he] at hlv
    exact absurd hlv Bool.false_ne_true
  · rename_i cause hr
    obtain ⟨-, hne, r, hmem, hk, hc, hl⟩ := h
    refine ⟨cause, by simp [hr, reasonClause], hne, ?_⟩
    rcases (Rule.holds_atMostOne_iff hk (hrule r hmem) val).1 (hval r hmem) cause hc _ hl hne with
      hv | hv
    · exact hv
    · rw [he] at hv
      exact absurd hv Bool.false_ne_true

/-- **What is assigned at level zero follows from the rules.** -/
theorem Supported.holds_of_level_zero (hrule : ∀ r ∈ rules.toList, r.literals.Nodup)
    {val : Nat → Bool} (hval : rules.MetBy val) :
    ∀ {entries : List Assignment}, Supported rules entries →
      entries.Pairwise (fun newer older => older.level ≤ newer.level) →
      ∀ e ∈ entries, e.level = 0 → e.literal.holds val = true
  | [], _, _ => fun e he => absurd he List.not_mem_nil
  | a :: entries, hs, hsorted => by
      obtain ⟨ha, hsorted⟩ := List.pairwise_cons.1 hsorted
      have ih := Supported.holds_of_level_zero hrule hval hs.2 hsorted
      intro e he hzero
      rcases List.mem_cons.1 he with rfl | he
      · by_contra hfalse
        rw [Bool.not_eq_true] at hfalse
        have hforced : e.reason? ≠ none := by
          intro hn
          have hj := hs.1
          simp only [Justified, hn] at hj
          omega
        obtain ⟨l, hl, hne, hlv⟩ := hs.1.exists_holds hrule hforced hval hfalse
        obtain ⟨b, hb, hbl⟩ := hs.1.assigns_flip hl hne
        have hv := ih b hb (Nat.le_zero.1 (hzero ▸ ha b hb))
        rw [hbl, Literal.holds_flip, hlv] at hv
        exact absurd hv (by simp)
      · exact ih e he hzero

/-- A false literal that a valuation of the rules makes true was made false by a decision. -/
theorem Trail.Valid.levelOf_pos (ht : t.Valid rules n)
    (hrule : ∀ r ∈ rules.toList, r.literals.Nodup) {val : Nat → Bool}
    (hval : rules.MetBy val) {l : Lit} (hl : Assigns t.entries l.flip)
    (hv : l.holds val = true) : 0 < t.levelOf l.atom := by
  obtain ⟨e, he, hel⟩ := hl
  rw [ht.distinct.levelOf_of_flip he hel]
  refine Nat.pos_of_ne_zero fun hzero => ?_
  have hflip := ht.supported.holds_of_level_zero hrule hval ht.sorted e he hzero
  rw [hel, Literal.holds_flip, hv] at hflip
  exact absurd hflip (by simp)

/-! ### The walk -/

namespace Walk

/-- Whether an assignment is of the level of the trail, and its variable among those met. -/
def counts (t : Trail Trail.unbounded) (seen : List Nat) (e : Assignment) : Bool :=
  e.level = t.level ∧ e.variableOf ∈ seen

/-- One more variable that was met changes the count of its own assignment only. -/
theorem counts_cons_of_ne {seen : List Nat} {v : Nat} {e : Assignment} (h : e.variableOf ≠ v) :
    counts t (v :: seen) e = counts t seen e := by
  simp [counts, h]

/-- How many of the variables met belong to the level of the trail and are still ahead. -/
def ahead (t : Trail Trail.unbounded) (seen : List Nat) (rest : List Assignment) : Nat :=
  rest.countP (counts t seen)

/-- **A walk back over the trail**, with what is still ahead of it. -/
structure Along (t : Trail Trail.unbounded) (rest : List Assignment) (w : Walk) : Prop where
  pending : w.pending = ahead t w.seen rest
  lower : ∀ l ∈ w.lower, l.atom ∈ w.seen ∧
    ∃ e ∈ t.entries, e.literal = l.flip ∧ 0 < e.level ∧ e.level < t.level
  distinct : (w.lower.map (·.atom)).Nodup
  met : ∀ e ∈ t.entries, e.variableOf ∈ w.seen → e.level < t.level → e.literal.flip ∈ w.lower

/-- A valuation makes a literal that was kept true, or contradicts the trail at a variable
ahead. -/
def Leads (val : Nat → Bool) (t : Trail Trail.unbounded) (rest : List Assignment) (w : Walk) :
    Prop :=
  (∃ l ∈ w.lower, l.holds val = true) ∨
    ∃ e ∈ rest, e.level = t.level ∧ e.variableOf ∈ w.seen ∧ e.literal.flip.holds val = true

/-- The literal is false, by an assignment that is still ahead if it is of the present level. -/
def Behind (t : Trail Trail.unbounded) (rest : List Assignment) (l : Lit) : Prop :=
  ∃ e ∈ t.entries, e.literal = l.flip ∧ (e.level = t.level → e ∈ rest)

/-- A literal that is behind is false. -/
theorem Behind.assigns {rest : List Assignment} {l : Lit} :
    Behind t rest l → Assigns t.entries l.flip
  | ⟨e, he, hel, _⟩ => ⟨e, he, hel⟩

/-- At the start every false literal is. -/
theorem behind_of_assigns {l : Lit} (hl : Assigns t.entries l.flip) : Behind t t.entries l := by
  obtain ⟨e, he, hel⟩ := hl
  exact ⟨e, he, hel, fun _ => he⟩

/-- The second walk has met all that the first one has. -/
structure Grows (w w' : Walk) : Prop where
  seen : w.seen ⊆ w'.seen
  lower : w.lower ⊆ w'.lower

/-- A walk has met what it has met. -/
theorem Grows.refl (w : Walk) : w.Grows w := ⟨List.Subset.refl _, List.Subset.refl _⟩

/-- Walks grow through one another. -/
theorem Grows.trans {w w' w'' : Walk} (h : w.Grows w') (h' : w'.Grows w'') : w.Grows w'' :=
  ⟨List.Subset.trans h.seen h'.seen, List.Subset.trans h.lower h'.lower⟩

/-- A variable of the present level that is newly met is one more ahead. -/
theorem ahead_cons_of_mem {seen : List Nat} {e : Assignment} :
    ∀ {rest : List Assignment}, (rest.map Assignment.variableOf).Nodup → e ∈ rest →
      e.level = t.level → e.variableOf ∉ seen →
      ahead t (e.variableOf :: seen) rest = ahead t seen rest + 1
  | a :: rest, hnd, he, hl, hs => by
      obtain ⟨ha, hnd⟩ := List.nodup_cons.1 hnd
      rw [ahead, ahead, List.countP_cons, List.countP_cons]
      rcases List.mem_cons.1 he with rfl | he
      · have hrest : rest.countP (counts t (e.variableOf :: seen)) = rest.countP (counts t seen) :=
          List.countP_congr fun x hx => by
            rw [counts_cons_of_ne fun h => ha (List.mem_map.2 ⟨x, hx, h⟩)]
        have hnew : counts t (e.variableOf :: seen) e = true := by simp [counts, hl]
        have hold : counts t seen e = false := by simp [counts, hs]
        simp [hrest, hnew, hold]
      · have hne : a.variableOf ≠ e.variableOf := fun h => ha (List.mem_map.2 ⟨e, he, h.symm⟩)
        have ih := ahead_cons_of_mem hnd he hl hs
        rw [ahead, ahead] at ih
        rw [ih, counts_cons_of_ne hne]
        omega

/-- A variable of a lower level is none more ahead. -/
theorem ahead_cons_of_ne {seen : List Nat} {e : Assignment} {rest : List Assignment}
    (hinj : ∀ a ∈ rest, a.variableOf = e.variableOf → a = e) (hl : e.level ≠ t.level) :
    ahead t (e.variableOf :: seen) rest = ahead t seen rest := by
  refine List.countP_congr fun a ha => ?_
  by_cases h : a.variableOf = e.variableOf
  · simp [counts, hinj a ha h, hl]
  · rw [counts_cons_of_ne h]

/-- **Taking in one false literal** keeps what holds along a walk. -/
theorem Along.meet {rest : List Assignment} {w : Walk} {l : Lit} (ht : t.Valid rules n)
    (hrest : rest <:+ t.entries) (h : w.Along t rest) (hl : Behind t rest l) :
    (w.meet t t.level l).Along t rest ∧ w.Grows (w.meet t t.level l) ∧
      (0 < t.levelOf l.atom → l.atom ∈ (w.meet t t.level l).seen) := by
  obtain ⟨e, he, hel, hahead⟩ := hl
  have hv : e.variableOf = l.atom := Trail.variableOf_of_flip hel
  have hown : t.levelOf e.variableOf = e.level := ht.distinct.levelOf_of_mem he
  have hfl : e.literal.flip = l := by rw [hel, Literal.flip_flip]
  have hnd : (rest.map Assignment.variableOf).Nodup := ht.distinct.sublist (hrest.sublist.map _)
  simp only [Walk.meet, ← hv, hown, List.contains_eq_mem, Bool.or_eq_true, decide_eq_true_eq]
  by_cases hskip : e.variableOf ∈ w.seen ∨ e.level = 0
  · rw [if_pos hskip]
    exact ⟨h, Grows.refl w, fun hpos => hskip.resolve_right (by omega)⟩
  rw [if_neg hskip]
  rw [not_or] at hskip
  by_cases hlev : e.level = t.level
  · rw [if_pos hlev]
    refine ⟨⟨?_, fun x hx => ?_, h.distinct, fun a ha hs hlt => ?_⟩,
      ⟨List.subset_cons_self _ _, List.Subset.refl _⟩, fun _ => List.mem_cons_self ..⟩
    · rw [h.pending, ahead_cons_of_mem hnd (hahead hlev) hlev hskip.1]
    · exact ⟨List.mem_cons_of_mem _ (h.lower x hx).1, (h.lower x hx).2⟩
    · rcases List.mem_cons.1 hs with hs | hs
      · have : a = e := ht.distinct.eq_of_variableOf_eq ha he hs
        exact absurd hlt (by rw [this, hlev]; exact Nat.lt_irrefl _)
      · exact h.met a ha hs hlt
  · rw [if_neg hlev]
    have hlt : e.level < t.level := Nat.lt_of_le_of_ne (ht.level_le e he) hlev
    refine ⟨⟨?_, fun x hx => ?_, ?_, fun a ha hs hlt' => ?_⟩,
      ⟨List.subset_cons_self _ _, List.subset_append_left _ _⟩, fun _ => List.mem_cons_self ..⟩
    · have hinj : ∀ a ∈ rest, a.variableOf = e.variableOf → a = e := fun a ha =>
        ht.distinct.eq_of_variableOf_eq (hrest.subset ha) he
      rw [h.pending, ahead_cons_of_ne hinj hlev]
    · rcases List.mem_append.1 hx with hx | hx
      · exact ⟨List.mem_cons_of_mem _ (h.lower x hx).1, (h.lower x hx).2⟩
      · rw [List.mem_singleton.1 hx]
        exact ⟨hv ▸ List.mem_cons_self .., e, he, hel, Nat.pos_of_ne_zero hskip.2, hlt⟩
    · rw [List.map_append, List.map_singleton]
      have hnot : l.atom ∉ w.lower.map (·.atom) := by
        intro hmem
        obtain ⟨x, hx, hxl⟩ := List.mem_map.1 hmem
        exact hskip.1 (hv ▸ hxl ▸ (h.lower x hx).1)
      simpa using h.distinct.concat hnot
    · rcases List.mem_cons.1 hs with hs | hs
      · have : a = e := ht.distinct.eq_of_variableOf_eq ha he hs
        exact List.mem_append_right _ (by rw [this, hfl]; exact List.mem_singleton_self _)
      · exact List.mem_append_left _ (h.met a ha hs hlt')

/-- **Taking in a clause** whose literals are false or were met already. -/
theorem Along.meetAll {rest : List Assignment} (ht : t.Valid rules n) (hrest : rest <:+ t.entries) :
    ∀ {c : Clause} {w : Walk}, w.Along t rest → (∀ l ∈ c, l.atom ∈ w.seen ∨ Behind t rest l) →
      (w.meetAll t t.level c).Along t rest ∧ w.Grows (w.meetAll t t.level c) ∧
        ∀ l ∈ c, 0 < t.levelOf l.atom → l.atom ∈ (w.meetAll t t.level c).seen
  | [], w, h, _ => ⟨h, Grows.refl w, fun l hl => absurd hl List.not_mem_nil⟩
  | x :: c, w, h, hc => by
      have hx : (w.meet t t.level x).Along t rest ∧ w.Grows (w.meet t t.level x) ∧
          (0 < t.levelOf x.atom → x.atom ∈ (w.meet t t.level x).seen) := by
        rcases hc x (List.mem_cons_self ..) with hs | hb
        · have : w.meet t t.level x = w := by simp [Walk.meet, hs]
          rw [this]
          exact ⟨h, Grows.refl w, fun _ => hs⟩
        · exact h.meet ht hrest hb
      obtain ⟨hal, hg, hs⟩ := hx
      obtain ⟨hal', hg', hs'⟩ := Along.meetAll ht hrest hal (c := c) fun l hl =>
        (hc l (List.mem_cons_of_mem _ hl)).imp_left (@hg.seen _)
      refine ⟨hal', hg.trans hg', fun l hl hpos => ?_⟩
      rcases List.mem_cons.1 hl with rfl | hl
      · exact hg'.seen (hs hpos)
      · exact hs' l hl hpos

/-- A true literal of a clause that was taken in leads on. -/
theorem Along.leads {rest : List Assignment} {w : Walk} {l : Lit} {val : Nat → Bool}
    (ht : t.Valid rules n) (h : w.Along t rest) (hl : Behind t rest l) (hs : l.atom ∈ w.seen)
    (hv : l.holds val = true) : w.Leads val t rest := by
  obtain ⟨e, he, hel, hahead⟩ := hl
  have hvar : e.variableOf = l.atom := Trail.variableOf_of_flip hel
  have hfl : e.literal.flip = l := by rw [hel, Literal.flip_flip]
  by_cases hlev : e.level = t.level
  · exact Or.inr ⟨e, hahead hlev, hlev, hvar ▸ hs, by rw [hfl, hv]⟩
  · have hlt := Nat.lt_of_le_of_ne (ht.level_le e he) hlev
    exact Or.inl ⟨l, hfl ▸ h.met e he (hvar ▸ hs) hlt, hv⟩

/-- What leads on leads on from a longer walk. -/
theorem Leads.grow {rest : List Assignment} {w w' : Walk} {val : Nat → Bool} (hg : w.Grows w')
    (h : w.Leads val t rest) : w'.Leads val t rest := by
  rcases h with ⟨l, hl, hv⟩ | ⟨e, he, hlev, hs, hv⟩
  · exact Or.inl ⟨l, hg.lower hl, hv⟩
  · exact Or.inr ⟨e, he, hlev, hg.seen hs, hv⟩

/-- A walk starts with nothing met and nothing kept. -/
theorem Along.start (t : Trail Trail.unbounded) (rest : List Assignment) : Walk.start.Along t rest where
  pending := by
    have hnone : ∀ a ∈ rest, ¬counts t Walk.start.seen a = true := by simp [counts, Walk.start]
    exact (List.countP_eq_zero.2 hnone).symm
  lower := fun _ h => absurd h List.not_mem_nil
  distinct := List.nodup_nil
  met := fun _ _ h => absurd h List.not_mem_nil

end Walk

/-- **What a walk ends in**: a variable of the present level, and literals of lower levels that
are false. -/
structure Ends (rules : RuleSet Nat) (t : Trail Trail.unbounded) (rest : List Assignment)
    (w : Walk) (literal : Lit) (lower : List Lit) : Prop where
  point : ∃ e ∈ t.entries, e.literal = literal.flip ∧ e.level = t.level
  below : ∀ l ∈ lower, ∃ e ∈ t.entries, e.literal = l.flip ∧ 0 < e.level ∧ e.level < t.level
  distinct : (lower.map (·.atom)).Nodup
  follows : ∀ val, rules.MetBy val → w.Leads val t rest →
    literal.holds val = true ∨ ∃ l ∈ lower, l.holds val = true

/-- Of assignments ahead that count, the first one is of the present level. -/
theorem level_eq_of_ahead (ht : t.Valid rules n) {e : Assignment} {older : List Assignment}
    (hrest : e :: older <:+ t.entries) {seen : List Nat} (h : 1 ≤ Walk.ahead t seen (e :: older)) :
    e.level = t.level := by
  obtain ⟨a, ha, hc⟩ := List.countP_pos_iff.1 h
  simp only [Walk.counts, decide_eq_true_eq] at hc
  have hle := ht.level_le e (hrest.subset (List.mem_cons_self ..))
  rcases List.mem_cons.1 ha with rfl | ha
  · exact hc.1
  · have := (List.pairwise_cons.1 (ht.sorted.sublist hrest.sublist)).1 a ha
    omega

/-- What leads on from a longer walk ends where the shorter one does. -/
theorem Ends.of_leads {rest older : List Assignment} {w w' : Walk} {literal : Lit} {lower : List Lit}
    (h : Ends rules t older w' literal lower)
    (hleads : ∀ val, rules.MetBy val → w.Leads val t rest →
      w'.Leads val t older) : Ends rules t rest w literal lower :=
  ⟨h.point, h.below, h.distinct, fun val hval hlead =>
    h.follows val hval (hleads val hval hlead)⟩

namespace Walk

variable {w : Walk} {e : Assignment} {older : List Assignment}

/-- An assignment of the present level counts once among those ahead, if it was met. -/
theorem ahead_cons (hlev : e.level = t.level) (seen : List Nat) (older : List Assignment) :
    ahead t seen (e :: older) = ahead t seen older + if e.variableOf ∈ seen then 1 else 0 := by
  simp only [ahead, List.countP_cons, counts, hlev, true_and, decide_eq_true_eq]

/-- An assignment that was not met stays behind. -/
theorem Along.skip (h : w.Along t (e :: older)) (hlev : e.level = t.level)
    (hs : e.variableOf ∉ w.seen) :
    w.Along t older ∧ ∀ val, w.Leads val t (e :: older) → w.Leads val t older := by
  have hahead := ahead_cons hlev w.seen older
  rw [if_neg hs, Nat.add_zero] at hahead
  refine ⟨⟨h.pending.trans hahead, h.lower, h.distinct, h.met⟩, fun val hlead => ?_⟩
  rcases hlead with hlow | ⟨a, ha, halev, has, hav⟩
  · exact Or.inl hlow
  · rcases List.mem_cons.1 ha with rfl | ha
    · exact absurd has hs
    · exact Or.inr ⟨a, ha, halev, has, hav⟩

/-- **The last variable ahead** is the one to contradict. -/
theorem Along.last (h : w.Along t (e :: older)) (he : e ∈ t.entries) (hlev : e.level = t.level)
    (hs : e.variableOf ∈ w.seen) (hone : w.pending ≤ 1) :
    Ends rules t (e :: older) w e.literal.flip w.lower := by
  refine ⟨⟨e, he, by simp, hlev⟩, fun l hl => (h.lower l hl).2, h.distinct, fun val _ hlead => ?_⟩
  rcases hlead with hlow | ⟨a, ha, halev, has, hav⟩
  · exact Or.inr hlow
  · have hahead := ahead_cons hlev w.seen older
    rw [if_pos hs, ← h.pending] at hahead
    have hzero : ahead t w.seen older = 0 := by omega
    rcases List.mem_cons.1 ha with rfl | ha
    · exact Or.inl hav
    · exact absurd (show counts t w.seen a = true by simp [counts, halev, has])
        (List.countP_eq_zero.1 hzero a ha)

/-- The walk after an assignment was replaced by its reason. -/
def pass (rules : RuleSet Nat) (t : Trail Trail.unbounded) (w : Walk) (e : Assignment) : Walk :=
  Walk.meetAll t t.level { w with pending := w.pending - 1 } (reasonClause rules e.reason?)

/-- **An assignment with others of its level before it was forced**, and its reason takes its
place. -/
theorem Along.pass (hrule : ∀ r ∈ rules.toList, r.literals.Nodup) (ht : t.Valid rules n)
    (hrest : e :: older <:+ t.entries) (h : w.Along t (e :: older)) (hlev : e.level = t.level)
    (hs : e.variableOf ∈ w.seen) (hmore : 1 < w.pending) :
    (w.pass rules t e).Along t older ∧ 1 ≤ (w.pass rules t e).pending ∧
      (∀ val, rules.MetBy val → w.Leads val t (e :: older) →
        (w.pass rules t e).Leads val t older) := by
  have holder : older <:+ t.entries := (List.suffix_cons e older).trans hrest
  have hahead := ahead_cons hlev w.seen older
  rw [if_pos hs, ← h.pending] at hahead
  obtain ⟨b, hb, hbc⟩ := List.countP_pos_iff.1 (show 0 < ahead t w.seen older by omega)
  simp only [counts, decide_eq_true_eq] at hbc
  have hj : Justified rules older e := (ht.supported.of_suffix hrest).1
  have hforced : e.reason? ≠ none := by
    intro hn
    simp only [Justified, hn] at hj
    have := hj.2 b hb
    omega
  have hbehind : ∀ l ∈ reasonClause rules e.reason?, l ≠ e.literal → Behind t older l := by
    intro l hl hne
    obtain ⟨a, ha, hal⟩ := hj.assigns_flip hl hne
    exact ⟨a, holder.subset ha, hal, fun _ => ha⟩
  have hpass : Along t older { w with pending := w.pending - 1 } :=
    ⟨show w.pending - 1 = ahead t w.seen older by omega, h.lower, h.distinct, h.met⟩
  obtain ⟨hal, hg, hmet⟩ := hpass.meetAll (c := reasonClause rules e.reason?) ht holder
    fun l hl => by
      by_cases hne : l = e.literal
      · exact Or.inl (hne ▸ hs)
      · exact Or.inr (hbehind l hl hne)
  have hgrow : w.Grows (w.pass rules t e) := ⟨hg.seen, hg.lower⟩
  refine ⟨hal, ?_, fun val hval hlead => ?_⟩
  · refine Nat.le_trans (List.countP_pos_iff.2 ⟨b, hb, ?_⟩) (Nat.le_of_eq hal.pending.symm)
    simp only [counts, decide_eq_true_eq]
    exact ⟨hbc.1, hg.seen hbc.2⟩
  · rcases hlead with hlow | ⟨a, ha, halev, has, hav⟩
    · exact Leads.grow hgrow (Or.inl hlow)
    · rcases List.mem_cons.1 ha with rfl | ha
      · obtain ⟨l, hl, hne, hlv⟩ := hj.exists_holds hrule hforced hval
          (Literal.holds_eq_false_of_holds_flip hav)
        have hbl := hbehind l hl hne
        exact hal.leads ht hbl
          (hmet l hl (ht.levelOf_pos hrule hval hbl.assigns hlv)) hlv
      · exact Leads.grow hgrow (Or.inr ⟨a, ha, halev, has, hav⟩)

end Walk

/-- **The walk back over the trail ends** at a single variable of the present level. -/
theorem walkBack_spec (hrule : ∀ r ∈ rules.toList, r.literals.Nodup) (ht : t.Valid rules n) :
    ∀ {rest : List Assignment} {w : Walk}, rest <:+ t.entries → w.Along t rest → 1 ≤ w.pending →
      ∃ literal lower, walkBack rules t t.level rest w = some (literal, lower) ∧
        Ends rules t rest w literal lower
  | [], w, _, h, hp => by
      rw [h.pending] at hp
      exact absurd hp (by simp [Walk.ahead])
  | e :: older, w, hrest, h, hp => by
      have he : e ∈ t.entries := hrest.subset (List.mem_cons_self ..)
      have hlev := level_eq_of_ahead ht hrest (h.pending ▸ hp)
      have holder : older <:+ t.entries := (List.suffix_cons e older).trans hrest
      rw [walkBack]
      by_cases hs : e.variableOf ∈ w.seen
      · rw [if_pos (by simpa using hs)]
        by_cases hone : w.pending ≤ 1
        · rw [if_pos hone]
          exact ⟨_, _, rfl, h.last he hlev hs hone⟩
        · rw [if_neg hone]
          obtain ⟨hal, hp', hleads⟩ := h.pass hrule ht hrest hlev hs (Nat.lt_of_not_le hone)
          obtain ⟨literal, lower, hw, hends⟩ := walkBack_spec hrule ht holder hal hp'
          exact ⟨literal, lower, hw, hends.of_leads hleads⟩
      · rw [if_neg (by simpa using hs)]
        obtain ⟨hal, hleads⟩ := h.skip hlev hs
        obtain ⟨literal, lower, hw, hends⟩ := walkBack_spec hrule ht holder hal hp
        exact ⟨literal, lower, hw, hends.of_leads fun val _ => hleads val⟩

/-! ### What is learned -/

/-- The last of the greatest numbers is none beyond the list, and none is greater. -/
theorem lastMaxPosition_spec : ∀ {l : List Nat}, l ≠ [] →
    ∃ h : lastMaxPosition l < l.length, ∀ x ∈ l, x ≤ l[lastMaxPosition l]
  | [_], _ => by simp [lastMaxPosition]
  | a :: b :: rest, _ => by
      obtain ⟨hlt, hmax⟩ := lastMaxPosition_spec (List.cons_ne_nil b rest)
      have hd : (b :: rest).getD (lastMaxPosition (b :: rest)) 0 =
          (b :: rest)[lastMaxPosition (b :: rest)] := by
        rw [List.getD, List.getElem?_eq_getElem hlt, Option.getD_some]
      simp only [lastMaxPosition, hd]
      split
      · rename_i hle
        exact ⟨Nat.succ_lt_succ hlt, List.forall_mem_cons.2 ⟨hle, hmax⟩⟩
      · rename_i hgt
        exact ⟨Nat.succ_pos _, List.forall_mem_cons.2
          ⟨Nat.le_refl _, fun x hx => Nat.le_trans (hmax x hx) (Nat.le_of_not_le hgt)⟩⟩

/-- Exchanging the first entry keeps all entries and puts the other one first. -/
theorem swapFirst_spec {l : List Lit} {i : Nat} (h : i < l.length) :
    (swapFirst l i).Perm l ∧ (swapFirst l i).head? = some l[i] := by
  cases l with
  | nil => exact absurd h (Nat.not_lt_zero i)
  | cons first rest =>
      have hswap : swapFirst (first :: rest) i =
          ((first :: rest).set i first).set 0 (first :: rest)[i] := by
        simp only [swapFirst, List.getElem?_eq_getElem h]
      rw [hswap]
      refine ⟨List.set_set_perm h (Nat.succ_pos _), ?_⟩
      cases i <;> rfl

/-- **What a learned clause is**: one literal of the present level, and others that are
false at the level to go back to. -/
structure Learns (rules : RuleSet Nat) (t : Trail Trail.unbounded) (c : Clause) (learned : Learned) :
    Prop where
  point : ∃ e ∈ t.entries, e.literal = learned.literal.flip ∧ e.level = t.level
  others : ∀ l ∈ learned.others,
    ∃ e ∈ t.entries, e.literal = l.flip ∧ 0 < e.level ∧ e.level ≤ learned.level
  level_lt : learned.level < t.level
  head : ∀ l, learned.others.head? = some l →
    ∃ e ∈ t.entries, e.literal = l.flip ∧ e.level = learned.level
  distinct : (learned.literal :: learned.others).Nodup
  level_eq_zero : learned.others = [] → learned.level = 0
  follows : ∀ val, rules.MetBy val → (∃ l ∈ c, l.holds val = true) →
    ∃ l ∈ learned.literal :: learned.others, l.holds val = true

/-- The learned clause of a walk that ended, the literal to go back to first among the others. -/
def Learned.ofEnd (t : Trail Trail.unbounded) (literal : Lit) (lower : List Lit) : Learned :=
  let others := swapFirst lower (lastMaxPosition (lower.map fun l => t.levelOf l.atom))
  ⟨literal, others, (others.head?.map fun l => t.levelOf l.atom).getD 0⟩

/-- **The end of a walk teaches a clause** that what leads on implies. -/
theorem Ends.learns (ht : t.Valid rules n) (hpos : 0 < t.level) {rest : List Assignment} {w : Walk}
    {literal : Lit} {lower : List Lit} (h : Ends rules t rest w literal lower) {c : Clause}
    (hleads : ∀ val, rules.MetBy val → (∃ l ∈ c, l.holds val = true) →
      w.Leads val t rest) : Learns rules t c (.ofEnd t literal lower) := by
  have hfollows : ∀ val, rules.MetBy val → (∃ l ∈ c, l.holds val = true) →
      literal.holds val = true ∨ ∃ l ∈ lower, l.holds val = true := fun val hval hex =>
    h.follows val hval (hleads val hval hex)
  obtain ⟨point, hpoint, hpl, hplev⟩ := h.point
  rw [Learned.ofEnd]
  by_cases hlower : lower = []
  · subst hlower
    exact ⟨⟨point, hpoint, hpl, hplev⟩, fun l hl => absurd hl List.not_mem_nil, hpos,
      fun l hl => absurd hl (by simp [swapFirst]), List.nodup_singleton _, fun _ => rfl,
      fun val hval hex => by simpa [swapFirst] using hfollows val hval hex⟩
  have hlevels : lower.map (fun l => t.levelOf l.atom) ≠ [] := by simpa using hlower
  obtain ⟨hi, hmax⟩ := lastMaxPosition_spec hlevels
  generalize lastMaxPosition (lower.map fun l => t.levelOf l.atom) = i at hi hmax
  rw [List.length_map] at hi
  obtain ⟨hperm, hhead⟩ := swapFirst_spec hi
  simp only [hhead, Option.map_some, Option.getD_some]
  have hown : ∀ l ∈ lower, ∃ e ∈ t.entries, e.literal = l.flip ∧ 0 < e.level ∧
      e.level < t.level ∧ e.level = t.levelOf l.atom := by
    intro l hl
    obtain ⟨e, he, hel, hlow, hlt⟩ := h.below l hl
    exact ⟨e, he, hel, hlow, hlt, (ht.distinct.levelOf_of_flip he hel).symm⟩
  obtain ⟨first, hfirst, hfl, -, hflt, hflev⟩ := hown _ (List.getElem_mem hi)
  rw [← hflev]
  refine ⟨⟨point, hpoint, hpl, hplev⟩, fun l hl => ?_, hflt, fun l hl => ?_, ?_,
    fun hnil => ?_, fun val hval hex => ?_⟩
  · obtain ⟨e, he, hel, hlow, -, hlev⟩ := hown l (hperm.mem_iff.1 hl)
    refine ⟨e, he, hel, hlow, ?_⟩
    have := hmax _ (List.mem_map.2 ⟨l, hperm.mem_iff.1 hl, rfl⟩)
    rwa [List.getElem_map, ← hflev, ← hlev] at this
  · obtain rfl := Option.some.inj (hhead.symm.trans hl)
    exact ⟨first, hfirst, hfl, rfl⟩
  · refine List.nodup_cons.2 ⟨fun hmem => ?_, hperm.nodup_iff.2 (h.distinct.of_map _)⟩
    obtain ⟨e, he, hel, -, hlt⟩ := h.below _ (hperm.mem_iff.1 hmem)
    have : e = point := ht.distinct.eq_of_variableOf_eq he hpoint (by
      rw [Trail.variableOf_of_flip hel, Trail.variableOf_of_flip hpl])
    exact absurd hlt (by rw [this, hplev]; exact Nat.lt_irrefl _)
  · exact absurd (hhead.symm.trans (congrArg List.head? hnil)) (by simp)
  · rcases hfollows val hval hex with hv | ⟨l, hl, hv⟩
    · exact ⟨literal, List.mem_cons_self .., hv⟩
    · exact ⟨l, List.mem_cons_of_mem _ (hperm.mem_iff.2 hl), hv⟩

/-- **A walk starts** with the variables of a false clause, one of them at the present level. -/
theorem Walk.Along.conflict (ht : t.Valid rules n) (hpos : 0 < t.level) {c : Clause}
    (hc : ∀ l ∈ c, Assigns t.entries l.flip) (hlevel : ∃ l ∈ c, t.levelOf l.atom = t.level) :
    (Walk.start.meetAll t t.level c).Along t t.entries ∧
      1 ≤ (Walk.start.meetAll t t.level c).pending ∧
      ∀ l ∈ c, 0 < t.levelOf l.atom → l.atom ∈ (Walk.start.meetAll t t.level c).seen := by
  obtain ⟨hal, -, hmet⟩ := (Walk.Along.start t t.entries).meetAll (c := c) ht
    (List.suffix_refl _) fun l hl => Or.inr (Walk.behind_of_assigns (hc l hl))
  refine ⟨hal, ?_, hmet⟩
  obtain ⟨l, hl, hlev⟩ := hlevel
  obtain ⟨e, he, hel⟩ := hc l hl
  have hv : e.variableOf = l.atom := Trail.variableOf_of_flip hel
  have hown : e.level = t.level := by rw [← hlev, ht.distinct.levelOf_of_flip he hel]
  rw [hal.pending]
  refine List.countP_pos_iff.2 ⟨e, he, ?_⟩
  simp only [Walk.counts, decide_eq_true_eq]
  exact ⟨hown, hv ▸ hmet l hl (hlev ▸ hpos)⟩

/-- **A false clause with a literal of the present level teaches something.** -/
theorem analyze_spec (hrule : ∀ r ∈ rules.toList, r.literals.Nodup) (ht : t.Valid rules n)
    (hpos : 0 < t.level) {c : Clause} (hc : ∀ l ∈ c, Assigns t.entries l.flip)
    (hlevel : ∃ l ∈ c, t.levelOf l.atom = t.level) :
    ∃ learned, analyze rules t c = some learned ∧ Learns rules t c learned := by
  obtain ⟨hal, hp, hmet⟩ := Walk.Along.conflict ht hpos hc hlevel
  obtain ⟨literal, lower, hw, hends⟩ := walkBack_spec hrule ht (List.suffix_refl _) hal hp
  refine ⟨.ofEnd t literal lower, by rw [analyze, hw]; rfl, hends.learns ht hpos ?_⟩
  rintro val hval ⟨l, hl, hv⟩
  exact hal.leads ht (Walk.behind_of_assigns (hc l hl))
    (hmet l hl (ht.levelOf_pos hrule hval (hc l hl) hv)) hv

end Search
end Loadout
