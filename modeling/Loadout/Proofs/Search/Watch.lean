/-
# Watch lists

A watch graph *covers* a rule set when every ordinary rule of at least two literals
stands in the lists of two of them, the pair that is put down for it, every
at-most-one rule stands in the lists of all of its literals, and nothing else stands
in any list (`WatchGraph.Covers`).  The graph of a rule set covers it
(`WatchGraph.covers_ofRules`), and this survives the two changes that a search makes:
a rule more (`WatchGraph.Covers.addRule`), and a rule that gives up one literal of its
pair for another one (`WatchGraph.Covers.move`).
-/

import Loadout.Proofs.Search.Trail
import Loadout.Search.Watch
import Mathlib.Data.List.Induction

namespace Loadout

/-- Distinct literals over the variables `1` to `n`. -/
structure Rule.Over (n : Nat) (r : Rule Nat) : Prop where
  nodup : r.literals.Nodup
  range : ∀ l ∈ r.literals, 1 ≤ l.atom ∧ l.atom ≤ n

namespace Search
namespace WatchGraph

variable {g g' : WatchGraph} {n : Nat} {rules : RuleSet Nat}

/-- Each literal has a slot of its own. -/
theorem slot_inj {l l' : Lit} (h : slot l = slot l') : l = l' := by
  obtain ⟨v, p⟩ := l
  obtain ⟨w, q⟩ := l'
  have hv : v = w := by
    simp only [slot] at h
    split at h <;> split at h <;> omega
  subst hv
  cases p <;> cases q <;> simp [slot] at h ⊢

/-- The slots of the variables from `0` to `n` are within the watch lists. -/
theorem slot_lt {l : Lit} (hg : g.watchers.size = 2 * (n + 1)) (hl : l.atom ≤ n) :
    slot l < g.watchers.size := by
  rw [hg, slot]
  split <;> omega

/-! ### What changes of a graph do to its lists -/

/-- The graph with more rules at a literal. -/
def giveBack (g : WatchGraph) (l : Lit) (ids : List Nat) : WatchGraph :=
  { g with watchers := g.watchers.modify (slot l) (· ++ ids) }

/-- The graph without rules at a literal. -/
def clear (g : WatchGraph) (l : Lit) : WatchGraph :=
  { g with watchers := g.watchers.setIfInBounds (slot l) [] }

/-- Giving rules back to a literal appends them to its list and no other. -/
theorem watching_giveBack {l : Lit} (h : slot l < g.watchers.size) (ids : List Nat) (l' : Lit) :
    (g.giveBack l ids).watching l' = if l' = l then g.watching l ++ ids else g.watching l' := by
  simp only [watching, giveBack, Array.getElem?_modify]
  by_cases hl : l' = l
  · subst hl
    simp [Array.getElem?_eq_getElem h]
  · rw [if_neg fun e => hl (slot_inj e).symm, if_neg hl]

/-- A rule that watches one more literal is the last in its list. -/
theorem watching_watch {l : Lit} (h : slot l < g.watchers.size) (id : Nat) (l' : Lit) :
    (g.watch l id).watching l' = if l' = l then g.watching l ++ [id] else g.watching l' :=
  watching_giveBack h [id] l'

/-- Clearing a literal empties its list and no other. -/
theorem watching_clear (g : WatchGraph) (l l' : Lit) :
    (g.clear l).watching l' = if l' = l then [] else g.watching l' := by
  simp only [watching, clear, Array.getElem?_setIfInBounds]
  by_cases hl : l' = l
  · subst hl
    rw [if_pos rfl, if_pos rfl]
    split <;> rfl
  · rw [if_neg fun e => hl (slot_inj e).symm, if_neg hl]

/-- A pair that is set is that of its rule and no other. -/
theorem pair?_setPair (g : WatchGraph) (id : Nat) (pair : Lit × Lit) (id' : Nat) :
    (g.setPair id pair).pair? id' = if id' = id then some pair else g.pair? id' := by
  simp only [pair?, setPair, Array.getElem?_setIfInBounds, Array.getElem?_append,
    Array.size_append, Array.size_replicate, Array.getElem?_replicate]
  by_cases hid : id' = id
  · subst hid
    have : id' < g.pairs.size + (id' + 1 - g.pairs.size) := by omega
    simp [this]
  · rw [if_neg fun e => hid e.symm, if_neg hid]
    by_cases hlt : id' < g.pairs.size
    · simp [hlt]
    · rw [if_neg hlt, Array.getElem?_eq_none (by omega)]
      split <;> rfl

/-- Watching a literal sets no pair. -/
@[simp] theorem pair?_watch (g : WatchGraph) (l : Lit) (id id' : Nat) :
    (g.watch l id).pair? id' = g.pair? id' := rfl

/-- Giving rules back sets no pair. -/
@[simp] theorem pair?_giveBack (g : WatchGraph) (l : Lit) (ids : List Nat) (id : Nat) :
    (g.giveBack l ids).pair? id = g.pair? id := rfl

/-- Setting a pair changes no list. -/
@[simp] theorem watching_setPair (g : WatchGraph) (id : Nat) (pair : Lit × Lit) (l : Lit) :
    (g.setPair id pair).watching l = g.watching l := rfl

/-- Watching a literal makes no new lists. -/
@[simp] theorem size_watchers_watch (g : WatchGraph) (l : Lit) (id : Nat) :
    (g.watch l id).watchers.size = g.watchers.size := by
  simp [watch]

/-- Giving rules back makes no new lists. -/
@[simp] theorem size_watchers_giveBack (g : WatchGraph) (l : Lit) (ids : List Nat) :
    (g.giveBack l ids).watchers.size = g.watchers.size := by
  simp [giveBack]

/-- Setting a pair makes no new lists. -/
@[simp] theorem size_watchers_setPair (g : WatchGraph) (id : Nat) (pair : Lit × Lit) :
    (g.setPair id pair).watchers.size = g.watchers.size := rfl

/-! ### Adding a rule -/

/-- What does not begin with two literals has fewer. -/
theorem length_lt_two {l : List Lit} (h : ∀ a b rest, l = a :: b :: rest → False) :
    l.length < 2 := by
  match l with
  | [] => simp
  | [_] => simp
  | a :: b :: rest => exact absurd rfl (h a b rest)

/-- The literals at which a new rule is put. -/
def firstWatches (r : Rule Nat) : List Lit :=
  if r.literals.length < 2 then [] else if r.isAtMostOne then r.literals else r.literals.take 2

/-- A rule that is put at distinct literals comes last in each of their lists. -/
theorem watching_foldl_watch (id : Nat) (l' : Lit) :
    ∀ {ls : List Lit} {g : WatchGraph}, g.watchers.size = 2 * (n + 1) → ls.Nodup →
      (∀ l ∈ ls, l.atom ≤ n) →
      (ls.foldl (fun g l => g.watch l id) g).watching l' =
        if l' ∈ ls then g.watching l' ++ [id] else g.watching l'
  | [], g, _, _, _ => by simp
  | l :: ls, g, hg, hnd, hls => by
      obtain ⟨hl, hnd⟩ := List.nodup_cons.1 hnd
      have hroom : slot l < g.watchers.size := slot_lt hg (hls l (List.mem_cons_self ..))
      rw [List.foldl_cons, watching_foldl_watch id l' (by simpa using hg) hnd
        (fun x hx => hls x (List.mem_cons_of_mem _ hx)), watching_watch hroom]
      by_cases he : l' = l
      · subst he
        simp [hl]
      · simp [he]

/-- Putting a rule at literals makes no new lists and sets no pairs. -/
theorem foldl_watch_frame (id : Nat) : ∀ (ls : List Lit) (g : WatchGraph),
    (ls.foldl (fun g l => g.watch l id) g).watchers.size = g.watchers.size ∧
      (ls.foldl (fun g l => g.watch l id) g).pairs = g.pairs
  | [], _ => ⟨rfl, rfl⟩
  | l :: ls, g => by
      obtain ⟨hs, hp⟩ := foldl_watch_frame id ls (g.watch l id)
      exact ⟨by simpa using hs, by simpa [watch] using hp⟩

/-- A new rule comes last in the lists of its first watches. -/
theorem watching_addRule {r : Rule Nat} (hg : g.watchers.size = 2 * (n + 1)) (hr : r.Over n)
    (id : Nat) (l : Lit) : (g.addRule id r).watching l =
      if l ∈ firstWatches r then g.watching l ++ [id] else g.watching l := by
  unfold addRule
  split
  · rename_i first second rest hlits
    have hnd := hr.nodup
    have hrange := hr.range
    have hlong : ¬r.literals.length < 2 := by simp [hlits]
    rw [hlits] at hnd hrange
    split
    · rename_i hamo
      rw [watching_foldl_watch id l hg hr.nodup fun l hl => (hr.range l hl).2, firstWatches,
        if_neg hlong, if_pos hamo]
    · rename_i hamo
      have hw : firstWatches r = [first, second] := by
        rw [firstWatches, if_neg hlong, if_neg hamo, hlits]
        rfl
      have hne : first ≠ second := by
        rintro rfl
        simp at hnd
      have hfirst : first.atom ≤ n := (hrange first (by simp)).2
      have hsecond : second.atom ≤ n := (hrange second (by simp)).2
      have hpair : [first, second].Nodup := by simp [hne]
      have hfold : g.watchPair id (first, second) =
        [first, second].foldl (fun g l => g.watch l id) (g.setPair id (first, second)) := rfl
      rw [hw, hfold, watching_foldl_watch id l (by simpa using hg) hpair
        (by simp [hfirst, hsecond]), watching_setPair]
  · rename_i hshort
    have hlt : r.literals.length < 2 := length_lt_two hshort
    simp [firstWatches, hlt]

/-- A new rule makes no new lists. -/
theorem size_watchers_addRule (g : WatchGraph) (id : Nat) (r : Rule Nat) :
    (g.addRule id r).watchers.size = g.watchers.size := by
  unfold addRule
  split
  · split
    · exact (foldl_watch_frame id _ g).1
    · simp [watchPair]
  · rfl

/-- Only an ordinary rule of at least two literals gets a pair, its first two. -/
theorem pair?_addRule (g : WatchGraph) (id : Nat) (r : Rule Nat) (id' : Nat) :
    (∃ first second rest, r.literals = first :: second :: rest ∧ r.isAtMostOne = false ∧
      (g.addRule id r).pair? id' = if id' = id then some (first, second) else g.pair? id') ∨
    ((r.isAtMostOne = true ∨ r.literals.length < 2) ∧ (g.addRule id r).pair? id' = g.pair? id') := by
  unfold addRule
  split
  · rename_i first second rest hlits
    split
    · rename_i hamo
      exact Or.inr ⟨Or.inl hamo, by rw [pair?, (foldl_watch_frame id _ g).2]; rfl⟩
    · rename_i hamo
      exact Or.inl ⟨first, second, rest, hlits, by simpa using hamo, by
        simp [watchPair, pair?_setPair]⟩
  · rename_i hshort
    exact Or.inr ⟨Or.inr (length_lt_two hshort), rfl⟩

/-! ### Graphs that cover a rule set -/

/-- **The watch lists of a rule set**: two literals of every ordinary rule, all of every
at-most-one rule, and nothing else. -/
structure Covers (rules : RuleSet Nat) (n : Nat) (g : WatchGraph) : Prop where
  room : g.watchers.size = 2 * (n + 1)
  nodup : ∀ l, (g.watching l).Nodup
  long : ∀ l id, id ∈ g.watching l → ∃ r, rules.get? id = some r ∧ 2 ≤ r.literals.length
  atMostOne : ∀ id r, rules.get? id = some r → r.isAtMostOne = true → 2 ≤ r.literals.length →
    ∀ l, id ∈ g.watching l ↔ l ∈ r.literals
  pair : ∀ id r, rules.get? id = some r → r.isAtMostOne = false → 2 ≤ r.literals.length →
    ∃ a b, g.pair? id = some (a, b) ∧ a ≠ b ∧ a ∈ r.literals ∧ b ∈ r.literals ∧
      ∀ l, id ∈ g.watching l ↔ l = a ∨ l = b
  paired : ∀ id pair, g.pair? id = some pair →
    ∃ r, rules.get? id = some r ∧ r.isAtMostOne = false ∧ 2 ≤ r.literals.length

/-- Watch lists count only by what they hold. -/
theorem Covers.congr (h : g.Covers rules n) (hroom : g'.watchers.size = g.watchers.size)
    (hwatch : ∀ l, g'.watching l = g.watching l) (hpair : ∀ id, g'.pair? id = g.pair? id) :
    g'.Covers rules n where
  room := hroom.trans h.room
  nodup := fun l => hwatch l ▸ h.nodup l
  long := fun l id hid => h.long l id (hwatch l ▸ hid)
  atMostOne := fun id r hid hk hlong l => by rw [hwatch, h.atMostOne id r hid hk hlong]
  pair := fun id r hid hk hlong => by
    obtain ⟨a, b, hp, hne, ha, hb, hw⟩ := h.pair id r hid hk hlong
    exact ⟨a, b, by rw [hpair, hp], hne, ha, hb, fun l => by rw [hwatch, hw]⟩
  paired := fun id pair hp => h.paired id pair (hpair id ▸ hp)

/-- The number that comes next stands in no list. -/
theorem Covers.size_not_mem (h : g.Covers rules n) (l : Lit) : rules.size ∉ g.watching l := by
  intro hid
  obtain ⟨r, hr, -⟩ := h.long l _ hid
  exact absurd (RuleSet.get?_lt_size hr) (Nat.lt_irrefl _)

/-- Only rules of the set have pairs. -/
theorem Covers.pair?_lt_size (h : g.Covers rules n) {id : Nat} {pair : Lit × Lit}
    (hp : g.pair? id = some pair) : id < rules.size := by
  obtain ⟨r, hr, -⟩ := h.paired id pair hp
  exact RuleSet.get?_lt_size hr

/-- What a watched pair is: two literals of an ordinary rule, the ones that the rule watches. -/
theorem Covers.of_pair (h : g.Covers rules n) {id : Nat} {a b : Lit} (hp : g.pair? id = some (a, b)) :
    ∃ r, rules.get? id = some r ∧ r.isAtMostOne = false ∧ 2 ≤ r.literals.length ∧ a ≠ b ∧
      a ∈ r.literals ∧ b ∈ r.literals ∧ ∀ l, id ∈ g.watching l ↔ l = a ∨ l = b := by
  obtain ⟨r, hr, hk, hlong⟩ := h.paired id _ hp
  obtain ⟨a', b', hp', hab, ha, hb, hw⟩ := h.pair id r hr hk hlong
  rw [hp] at hp'
  obtain ⟨rfl, rfl⟩ := Prod.mk.inj (Option.some.inj hp')
  exact ⟨r, hr, hk, hlong, hab, ha, hb, hw⟩

/-- The empty graph covers the empty rule set. -/
theorem covers_empty (n : Nat) : (empty n).Covers .empty n where
  room := by simp [empty]
  nodup := fun l => by
    simp only [watching, empty, Array.getElem?_replicate]
    split <;> exact List.nodup_nil
  long := fun l id hid => by
    simp only [watching, empty, Array.getElem?_replicate] at hid
    split at hid <;> exact absurd hid List.not_mem_nil
  atMostOne := fun id r hr => by simp [RuleSet.get?, RuleSet.empty] at hr
  pair := fun id r hr => by simp [RuleSet.get?, RuleSet.empty] at hr
  paired := fun id pair hp => by simp [pair?, empty] at hp

/-- The number of a new rule stands in the lists of its first watches alone. -/
theorem Covers.mem_watching_addRule (h : g.Covers rules n) {r : Rule Nat} (hr : r.Over n)
    {id : Nat} {l : Lit} : id ∈ (g.addRule rules.size r).watching l ↔
      if id = rules.size then l ∈ firstWatches r else id ∈ g.watching l := by
  rw [watching_addRule h.room hr]
  by_cases hid : id = rules.size
  · subst hid
    split <;> simp_all [h.size_not_mem l]
  · split <;> simp [hid]

/-- **One rule more** stands in the lists that it should stand in. -/
theorem Covers.addRule (h : g.Covers rules n) {r : Rule Nat} (hr : r.Over n) :
    (g.addRule rules.size r).Covers (rules.push r) n where
  room := (size_watchers_addRule g _ r).trans h.room
  nodup := fun l => by
    rw [watching_addRule h.room hr]
    split
    · simpa using (h.nodup l).concat (h.size_not_mem l)
    · exact h.nodup l
  long := fun l id hid => by
    rw [h.mem_watching_addRule hr] at hid
    rw [RuleSet.get?_push]
    split at hid
    · refine ⟨r, by simp [*], Nat.le_of_not_lt fun hlt => ?_⟩
      simp [firstWatches, hlt] at hid
    · rename_i hne
      simpa [hne] using h.long l id hid
  atMostOne := fun id r' hid hk hlong l => by
    rw [RuleSet.get?_push] at hid
    rw [h.mem_watching_addRule hr]
    split at hid
    · obtain rfl := Option.some.inj hid
      rw [if_pos ‹_›, firstWatches, if_neg (by omega), if_pos hk]
    · rw [if_neg ‹_›]
      exact h.atMostOne id r' hid hk hlong l
  pair := fun id r' hid hk hlong => by
    rw [RuleSet.get?_push] at hid
    split at hid
    · rename_i hnew
      obtain rfl := Option.some.inj hid
      rcases pair?_addRule g rules.size r id with ⟨a, b, rest, hlits, -, hp⟩ | ⟨hbad, -⟩
      · have hnd := hr.nodup
        rw [hlits] at hnd
        have hab : a ≠ b := by
          rintro rfl
          simp at hnd
        refine ⟨a, b, by rw [hp, if_pos hnew], hab, by simp [hlits], by simp [hlits], fun l => ?_⟩
        rw [h.mem_watching_addRule hr, if_pos hnew, firstWatches, if_neg (by omega),
          if_neg (by simp [hk]), hlits]
        simp
      · rcases hbad with hbad | hbad
        · rw [hk] at hbad
          exact absurd hbad Bool.false_ne_true
        · omega
    · rename_i hold
      obtain ⟨a, b, hp, hab, ha, hb, hw⟩ := h.pair id r' hid hk hlong
      refine ⟨a, b, ?_, hab, ha, hb, fun l => by
        rw [h.mem_watching_addRule hr, if_neg hold, hw]⟩
      rcases pair?_addRule g rules.size r id with ⟨_, _, _, -, -, hp'⟩ | ⟨-, hp'⟩
      · rw [hp', if_neg hold, hp]
      · rw [hp', hp]
  paired := fun id pair hp => by
    rw [RuleSet.get?_push]
    rcases pair?_addRule g rules.size r id with ⟨a, b, rest, hlits, hk, hp'⟩ | ⟨-, hp'⟩
    · rw [hp'] at hp
      split at hp
      · exact ⟨r, by simp [*], hk, by simp [hlits]⟩
      · rename_i hold
        simpa [hold] using h.paired id pair hp
    · rw [hp'] at hp
      have hold : id ≠ rules.size := Nat.ne_of_lt (h.pair?_lt_size hp)
      simpa [hold] using h.paired id pair hp

/-- **The graph of a rule set covers it.** -/
theorem covers_ofRules (hr : ∀ r ∈ rules.toList, r.Over n) : (ofRules rules n).Covers rules n := by
  suffices ∀ l : List (Rule Nat), (∀ r ∈ l, r.Over n) →
      ((l.zipIdx).foldl (fun g x => g.addRule x.2 x.1) (empty n)).Covers ⟨l.toArray⟩ n by
    have hset : (⟨rules.toList.toArray⟩ : RuleSet Nat) = rules := by simp [RuleSet.toList]
    have hcov := this rules.toList hr
    rw [hset] at hcov
    exact hcov
  intro l
  induction l using List.reverseRecOn with
  | nil => exact fun _ => covers_empty n
  | append_singleton l r ih =>
      intro hl
      have hcov := (ih fun r hr => hl r (by simp [hr])).addRule (hl r (by simp))
      simpa [RuleSet.push, RuleSet.size, List.zipIdx_append] using hcov

/-- **A rule gives up one literal of its pair for another one.** -/
theorem Covers.move (h : g.Covers rules n) {id : Nat} {r : Rule Nat} {falsified other new : Lit}
    {before after : List Nat} (hid : rules.get? id = some r)
    (hpair : g.pair? id = some (falsified, other) ∨ g.pair? id = some (other, falsified))
    (hnew : new ∈ r.literals) (hf : new ≠ falsified) (ho : new ≠ other)
    (hlist : g.watching falsified = before ++ id :: after)
    (hroom : g'.watchers.size = g.watchers.size)
    (hwatch : ∀ l, g'.watching l = if l = falsified then before ++ after
      else if l = new then g.watching l ++ [id] else g.watching l)
    (hpair' : ∀ id', g'.pair? id' = if id' = id then some (other, new) else g.pair? id') :
    g'.Covers rules n := by
  -- the rule stood in the lists of its pair alone
  obtain ⟨hord, hother, hne, hmem⟩ : (r.isAtMostOne = false ∧ 2 ≤ r.literals.length) ∧
      other ∈ r.literals ∧ falsified ≠ other ∧
        ∀ l, id ∈ g.watching l ↔ l = falsified ∨ l = other := by
    rcases hpair with hp | hp
    · obtain ⟨r', hr', hk, hlong, hab, -, hb, hw⟩ := h.of_pair hp
      obtain rfl := Option.some.inj (hid.symm.trans hr')
      exact ⟨⟨hk, hlong⟩, hb, hab, hw⟩
    · obtain ⟨r', hr', hk, hlong, hab, ha, -, hw⟩ := h.of_pair hp
      obtain rfl := Option.some.inj (hid.symm.trans hr')
      exact ⟨⟨hk, hlong⟩, ha, hab.symm, fun l => (hw l).trans or_comm⟩
  have hnodup := h.nodup falsified
  rw [hlist] at hnodup
  have hgone : id ∉ before ++ after := (List.nodup_middle.1 hnodup).notMem
  have hkeep : ∀ id' l, id' ≠ id → (id' ∈ g'.watching l ↔ id' ∈ g.watching l) := by
    intro id' l hne'
    rw [hwatch]
    split
    · rename_i hl
      simp [hl, hlist, hne']
    · split <;> simp [hne']
  have hmove : ∀ l, id ∈ g'.watching l ↔ l = other ∨ l = new := by
    intro l
    rw [hwatch]
    split
    · rename_i hl
      subst hl
      simp only [hgone, false_iff, not_or]
      exact ⟨hne, hf.symm⟩
    · rename_i hl
      split
      · rename_i hl'
        simp [hl']
      · rename_i hl'
        simp [hmem, hl, hl']
  refine ⟨hroom.trans h.room, fun l => ?_, fun l id' hid' => ?_, fun id' r' hr' hk hlong l => ?_,
    fun id' r' hr' hk hlong => ?_, fun id' pair hp => ?_⟩
  · rw [hwatch]
    split
    · exact (List.nodup_middle.1 hnodup).of_cons
    · split
      · rename_i hl hl'
        have hnot : id ∉ g.watching l := by simp [hmem, hl', hf, ho]
        simpa using (h.nodup l).concat hnot
      · exact h.nodup l
  · by_cases hne' : id' = id
    · exact ⟨r, hne' ▸ hid, hord.2⟩
    · exact h.long l id' ((hkeep id' l hne').1 hid')
  · have hne' : id' ≠ id := by
      rintro rfl
      rw [hid] at hr'
      rw [Option.some.inj hr', hk] at hord
      exact absurd hord.1 Bool.true_eq_false.mp
    rw [hkeep id' l hne']
    exact h.atMostOne id' r' hr' hk hlong l
  · by_cases hne' : id' = id
    · subst hne'
      rw [hid] at hr'
      obtain rfl := Option.some.inj hr'
      exact ⟨other, new, by rw [hpair', if_pos rfl], ho.symm, hother, hnew, hmove⟩
    · obtain ⟨a, b, hp, hab, ha, hb, hw⟩ := h.pair id' r' hr' hk hlong
      exact ⟨a, b, by rw [hpair', if_neg hne', hp], hab, ha, hb, fun l => by
        rw [hkeep id' l hne', hw]⟩
  · rw [hpair'] at hp
    split at hp
    · rename_i he
      exact ⟨r, he ▸ hid, hord⟩
    · exact h.paired id' pair hp

end WatchGraph
end Search
end Loadout
