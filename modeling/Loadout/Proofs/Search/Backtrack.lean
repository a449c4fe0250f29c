/-
# Going back restores a trail

Whatever is done to a trail above a level, going back to that level takes it away and leaves the
rest: moves put assignments of other variables on top, and touch nothing below (`Trail.Tops`,
`Trail.tops_follow`).  All that going back looks at are marks.  Without bounds a mark tells the
level, and the trail is as it was (`Trail.restores_of_above`).  In a word of 32 bits the levels from
the sign bit on are told as lower ones, the greatest aside, and an assignment at such a level stays
where it is told as one of a level that is kept; the trail is restored exactly when no assignment
is (`Trail.restores_iff`).

A search assigns, raises the level and goes back, and nothing else (`Trail.Worked`,
`Problem.Reached.worked`).  So its trails assign every variable once, have values for these
variables alone, and rise in level (`Trail.Worked.orderly`); and their levels stay below the number
of variables, far from the sign bit.
-/

import Loadout.Proofs.Search.Fixpoint

namespace Loadout
namespace Search
namespace Trail

variable {word : Nat}

/-- The assigned literals, the oldest first. -/
def queue (t : Trail word) : List Lit := t.entries.reverse.map (·.literal)

/-! ### Moves above a level -/

/-- What is done to a trail between two times of going back. -/
inductive Move where
  /-- what comes next is assigned at that level -/
  | level (k : Nat)
  /-- the literal is assigned, if its variable is open -/
  | assign (l : Lit) (reason? : Option Reason)
  deriving DecidableEq, Repr

/-- The trail after a move. -/
def move (t : Trail word) : Move → Trail word
  | .level k => t.atLevel k
  | .assign l reason? => (t.assign l reason?).1

/-- The trail after moves, one by one. -/
def follow (t : Trail word) (moves : List Move) : Trail word := moves.foldl move t

/-- Moves that start at a level assign at levels of a sort only, whether the assignments take
effect or not. -/
def AssignsAt (P : Nat → Prop) : Nat → List Move → Prop
  | _, [] => True
  | _, .level k :: moves => AssignsAt P k moves
  | k, .assign _ _ :: moves => P k ∧ AssignsAt P k moves

/-- Moves that assign at levels of one sort do so at those of a wider one. -/
theorem AssignsAt.mono {P Q : Nat → Prop} (hPQ : ∀ k, P k → Q k) {k : Nat} {moves : List Move}
    (h : AssignsAt P k moves) : AssignsAt Q k moves := by
  induction moves generalizing k with
  | nil => trivial
  | cons m moves ih =>
      cases m with
      | level j => exact ih (h : AssignsAt P j moves)
      | assign l reason? => exact ⟨hPQ _ h.1, ih h.2⟩

/-- What moves have assigned, the newest first. -/
def made (t : Trail word) (moves : List Move) : List Assignment :=
  (t.follow moves).entries.take ((t.follow moves).size - t.size)

/-- **The second trail is the first one with more on top**: assignments of other variables, at
levels of a sort. -/
def Tops (P : Nat → Prop) (t t' : Trail word) : Prop :=
  ∃ new, t'.entries = new ++ t.entries ∧ (∀ e ∈ new, P e.level) ∧
    ∀ e ∈ new, ∀ a ∈ t.entries, e.variableOf ≠ a.variableOf

variable {P : Nat → Prop} {t t' : Trail word}

/-- A trail has nothing on top of itself. -/
theorem Tops.refl (P : Nat → Prop) (t : Trail word) : t.Tops P t :=
  ⟨[], rfl, fun _ h => absurd h List.not_mem_nil, fun _ h => absurd h List.not_mem_nil⟩

/-- Reasons are forgotten at the variable that is assigned once more. -/
theorem forgetReason_append {new old : List Assignment} (he : t.entries = new ++ old) {v : Nat}
    (hv : ∀ a ∈ old, a.variableOf ≠ v) :
    ∃ new', t.forgetReason v = new' ++ old ∧ ∀ e' ∈ new', ∃ e ∈ new,
      e'.level = e.level ∧ e'.variableOf = e.variableOf := by
  rw [forgetReason, he]
  split
  · exact ⟨new, rfl, fun e h => ⟨e, h, rfl, rfl⟩⟩
  · refine ⟨new.map fun e => if e.variableOf = v then { e with reason? := none } else e, ?_, ?_⟩
    · rw [List.map_append]
      congr 1
      exact (List.map_congr_left fun a ha => if_neg (hv a ha)).trans (List.map_id _)
    · intro e' he'
      obtain ⟨e, h, rfl⟩ := List.mem_map.1 he'
      refine ⟨e, h, ?_⟩
      split <;> exact ⟨rfl, rfl⟩

/-- **An assignment goes on top**, where what is below has values. -/
theorem Tops.assign (h : t.Tops P t') (hP : P t'.level)
    (hvalue : ∀ a ∈ t.entries, (a.value? word).isSome = true) (l : Lit)
    (reason? : Option Reason) : t.Tops P (t'.assign l reason?).1 := by
  obtain ⟨new, he, hnew, hapart⟩ := h
  rw [Trail.assign]
  split
  · exact ⟨new, he, hnew, hapart⟩
  rename_i hopen
  -- a variable of the trail below has its value from there
  have hbelow : ∀ a ∈ t.entries, a.variableOf ≠ l.atom := by
    intro a ha hal
    have hfind : (t.entries.find? fun e => e.variableOf = l.atom).isSome = true :=
      List.find?_isSome.2 ⟨a, ha, by simpa using hal⟩
    obtain ⟨b, hb⟩ := Option.isSome_iff_exists.1 hfind
    have hbv : b.variableOf = l.atom := by simpa using List.find?_some hb
    have hnone : new.find? (fun e => e.variableOf = l.atom) = none :=
      List.find?_eq_none.2 fun e hmem => by
        simpa using fun hel => hapart e hmem a ha (hel.trans hal.symm)
    have hfound : t'.find? l.atom = some b := by
      rw [find?, he, List.find?_append, hnone, Option.none_or, hb]
    have := hvalue b (List.mem_of_find?_eq_some hb)
    rw [value?, hfound, Option.bind_some, Option.map_eq_none_iff] at hopen
    rw [hopen] at this
    exact absurd this (by decide)
  obtain ⟨new', he', hlike⟩ := forgetReason_append he hbelow
  refine ⟨⟨l, t'.level, reason?⟩ :: new', by rw [he']; rfl, ?_, ?_⟩
  · refine List.forall_mem_cons.2 ⟨hP, fun e hmem => ?_⟩
    obtain ⟨e₀, hmem₀, hlevel, -⟩ := hlike e hmem
    exact hlevel ▸ hnew e₀ hmem₀
  · refine List.forall_mem_cons.2 ⟨fun a ha => (hbelow a ha).symm, fun e hmem a ha => ?_⟩
    obtain ⟨e₀, hmem₀, -, hvar⟩ := hlike e hmem
    exact hvar ▸ hapart e₀ hmem₀ a ha

/-- **So do all assignments of moves.** -/
theorem tops_follow (hvalue : ∀ k, P k → ∀ a ∈ t.entries, (a.value? word).isSome = true)
    {moves : List Move} (h : t.Tops P t') (hmoves : AssignsAt P t'.level moves) :
    t.Tops P (t'.follow moves) := by
  induction moves generalizing t' with
  | nil => exact h
  | cons m moves ih =>
      show t.Tops P ((t'.move m).follow moves)
      cases m with
      | level k => exact ih h hmoves
      | assign l reason? =>
          have hlevel : (t'.assign l reason?).1.level = t'.level := by
            rw [Trail.assign]
            split <;> rfl
          refine ih (h.assign hmoves.1 (hvalue _ hmoves.1) l reason?) ?_
          rw [move, hlevel]
          exact hmoves.2

/-! ### Going back -/

/-- **A trail is restored**: the queue, and value, level and reason of every variable are as they
were, and the level is the one that was asked for. -/
structure Restores (t : Trail word) (k : Nat) (t' : Trail word) : Prop where
  level : t'.level = k
  queue : t'.queue = t.queue
  value : ∀ l, t'.value? l = t.value? l
  levelOf : ∀ v, t'.levelOf v = t.levelOf v
  reason : ∀ v, t'.reasonOf? v = t.reasonOf? v

/-- Raising the level alone leaves a trail as it was. -/
theorem restores_atLevel (t : Trail word) (k : Nat) : t.Restores k (t.atLevel k) :=
  ⟨rfl, rfl, fun _ => rfl, fun _ => rfl, fun _ => rfl⟩

/-- What is dropped in front is all that was put there. -/
theorem length_dropWhile_append {p : Assignment → Bool} {old : List Assignment}
    (hold : ∀ a ∈ old, p a = false) : ∀ new : List Assignment,
      ((new ++ old).dropWhile p).length = old.length → ∀ e ∈ new, p e = true
  | [], _ => fun _ h => absurd h List.not_mem_nil
  | e :: new, h => by
      rw [List.cons_append, List.dropWhile_cons] at h
      split at h
      · rename_i hp
        exact List.forall_mem_cons.2 ⟨hp, length_dropWhile_append hold new h⟩
      · rw [List.length_cons, List.length_append] at h
        omega

/-- All assignments are at levels up to one, as they were made or as their marks tell. -/
def UpTo (t : Trail word) (k : Nat) : Prop :=
  ∀ a ∈ t.entries, a.level ≤ k ∨ a.depthIn word ≤ k

/-- **Going back after moves restores a trail** exactly when the marks of all that they assigned
are above the level. -/
theorem restores_iff_depthIn {k : Nat} {moves : List Move}
    (hold : ∀ a ∈ t.entries, a.depthIn word ≤ k)
    (hvalue : ∀ j, P j → ∀ a ∈ t.entries, (a.value? word).isSome = true)
    (hmoves : AssignsAt P t.level moves) :
    (∀ e ∈ t.made moves, P e.level) ∧ (t.Restores k ((t.follow moves).backTo k) ↔
      ∀ e ∈ t.made moves, k < e.depthIn word) := by
  obtain ⟨new, he, hnew, -⟩ := tops_follow hvalue (Tops.refl P t) hmoves
  have hmade : t.made moves = new := by
    rw [made, size, size, he, List.length_append, Nat.add_sub_cancel, List.take_left']
    rfl
  have hkept : ∀ a ∈ t.entries, decide (k < a.depthIn word) = false := fun a ha =>
    decide_eq_false (Nat.not_lt.2 (hold a ha))
  have hback : ((t.follow moves).backTo k).entries =
      (new ++ t.entries).dropWhile fun e => k < e.depthIn word := by rw [backTo, he]
  rw [hmade]
  refine ⟨hnew, fun h e hmem => ?_, fun h => ?_⟩
  · have hlength := congrArg List.length h.queue
    simp only [queue, List.length_map, List.length_reverse, hback] at hlength
    exact of_decide_eq_true (length_dropWhile_append hkept new hlength e hmem)
  · have hsame : (t.follow moves).backTo k = t.atLevel k := by
      rw [show (t.follow moves).backTo k = ⟨((t.follow moves).backTo k).entries, k⟩ from rfl, hback,
        List.dropWhile_append_of_pos fun e hmem => decide_eq_true (h e hmem),
        List.dropWhile_eq_self_iff.2 fun hlen => by simpa using hold _ (List.getElem_mem hlen)]
      rfl
    exact hsame ▸ t.restores_atLevel k

/-! ### A word of 32 bits -/

/-- In a word of 32 bits a level from the sign bit on is told as a lower one, but for the
greatest. -/
theorem depthIn_word32 {e : Assignment} (he : e.level < 2 ^ 32) :
    e.depthIn word32 = if e.level < 2 ^ 31 ∨ e.level = 2 ^ 32 - 1 then e.level
      else 2 ^ 32 - 2 - e.level := by
  rw [Assignment.depthIn, Assignment.mark, Int.bmod_def, word32]
  split <;> split <;> split <;> omega

/-- No mark in a word of 32 bits tells a level as a higher one. -/
theorem depthIn_word32_le {e : Assignment} : e.depthIn word32 ≤ e.level := by
  rcases Nat.lt_or_ge e.level (2 ^ 32) with h | h
  · rw [depthIn_word32 h]
    split <;> omega
  · have : e.depthIn word32 < 4294967296 := Nat.mod_lt _ (by decide)
    omega

/-- Only a mark of the greatest level is no value. -/
theorem value?_word32_isSome {e : Assignment} (h : e.depthIn word32 < 2 ^ 32 - 1) :
    (e.value? word32).isSome = true := by
  rw [Assignment.value?]
  split
  · rename_i hzero
    rw [Assignment.depthIn, hzero] at h
    exact absurd h (by decide)
  · rfl

/-- **Going back to the lower level takes away** what was assigned at the higher one, in a word of
32 bits. -/
def Undoes (low high : Nat) : Prop :=
  high < 2 ^ 31 ∨ high = 2 ^ 32 - 1 ∨ low + high + 2 < 2 ^ 32

instance (low high : Nat) : Decidable (Undoes low high) :=
  inferInstanceAs (Decidable (_ ∨ _ ∨ _))

/-- An assignment is told as above a level just where going back there undoes it. -/
theorem lt_depthIn_word32_iff {e : Assignment} {k : Nat} (hk : k < e.level)
    (he : e.level < 2 ^ 32) : k < e.depthIn word32 ↔ Undoes k e.level := by
  rw [depthIn_word32 he, Undoes]
  split <;> omega

/-- In a word of 32 bits too, what is assigned up to a level is told as such. -/
theorem UpTo.depthIn_le {t : Trail word32} {k : Nat} (h : t.UpTo k) :
    ∀ a ∈ t.entries, a.depthIn word32 ≤ k := fun a ha =>
  (h a ha).elim (Nat.le_trans depthIn_word32_le) id

/-- What is assigned up to a level has values, if there are levels above. -/
theorem UpTo.value?_isSome {t : Trail word32} {k j : Nat} (h : t.UpTo k) (hkj : k < j)
    (hj : j < 2 ^ 32) : ∀ a ∈ t.entries, (a.value? word32).isSome = true := fun a ha =>
  value?_word32_isSome (by have := h.depthIn_le a ha; omega)

/-- **In a word of 32 bits going back restores a trail** exactly when it takes away all that was
assigned in between. -/
theorem restores_iff {t : Trail word32} {k : Nat} {moves : List Move} (hold : t.UpTo k)
    (hmoves : AssignsAt (fun j => k < j ∧ j < 2 ^ 32) t.level moves) :
    t.Restores k ((t.follow moves).backTo k) ↔ ∀ e ∈ t.made moves, Undoes k e.level := by
  obtain ⟨hmade, hiff⟩ :=
    restores_iff_depthIn hold.depthIn_le (fun _ hj => hold.value?_isSome hj.1 hj.2) hmoves
  rw [hiff]
  exact forall₂_congr fun e he => lt_depthIn_word32_iff (hmade e he).1 (hmade e he).2

/-- Below the sign bit it always does. -/
theorem restores_of_lt {t : Trail word32} {k : Nat} {moves : List Move} (hold : t.UpTo k)
    (hmoves : AssignsAt (fun j => k < j ∧ j < 2 ^ 31) t.level moves) :
    t.Restores k ((t.follow moves).backTo k) := by
  have hword : ∀ j, k < j ∧ j < 2 ^ 31 → k < j ∧ j < 2 ^ 32 := fun j hj => ⟨hj.1, by omega⟩
  obtain ⟨hmade, -⟩ := restores_iff_depthIn hold.depthIn_le
    (fun j hj => hold.value?_isSome hj.1 (hword j hj).2) hmoves
  exact (restores_iff hold (hmoves.mono hword)).2 fun e he => Or.inl (hmade e he).2

/-- **Without bounds going back restores a trail.** -/
theorem restores_of_above {t : Trail unbounded} {k : Nat} {moves : List Move} (hold : t.UpTo k)
    (hmoves : AssignsAt (fun j => k < j) t.level moves) :
    t.Restores k ((t.follow moves).backTo k) := by
  have hdepth : ∀ a ∈ t.entries, a.depthIn unbounded ≤ k := fun a ha => by
    simpa using hold a ha
  obtain ⟨hmade, hiff⟩ := restores_iff_depthIn hdepth (fun _ _ a _ => by simp) hmoves
  exact hiff.2 fun e he => e.depthIn_unbounded ▸ hmade e he

/-! ### What a search does to its trail -/

/-- **The trails that a search comes to**: it assigns, raises the level and goes back. -/
inductive Worked : Trail unbounded → Prop where
  | empty : Worked .empty
  | assign {t : Trail unbounded} (h : Worked t) (l : Lit) (reason? : Option Reason) :
    Worked (t.assign l reason?).1
  | raise {t : Trail unbounded} (h : Worked t) {k : Nat} (hk : t.level ≤ k) : Worked (t.atLevel k)
  | backTo {t : Trail unbounded} (h : Worked t) (k : Nat) : Worked (t.backTo k)

/-- **A trail in order**: no variable is queued twice, the variables in the queue are those that
have values, which make the queued literals true, and their levels rise up to the present one. -/
structure Orderly (t : Trail unbounded) : Prop where
  once : (t.queue.map (·.atom)).Nodup
  assigned : ∀ v, t.isOpen v = false ↔ v ∈ t.queue.map (·.atom)
  isTrue : ∀ l ∈ t.queue, t.isTrue l = true
  rising : (t.queue.map fun l => t.levelOf l.atom).Pairwise (· ≤ ·)
  level_le : ∀ l ∈ t.queue, t.levelOf l.atom ≤ t.level

/-- The same of the assignments themselves. -/
structure Stacked (t : Trail unbounded) : Prop where
  distinct : t.Distinct
  sorted : t.entries.Pairwise fun newer older => older.level ≤ newer.level
  level_le : ∀ e ∈ t.entries, e.level ≤ t.level

/-- An assignment keeps a trail in order: it is refused where the variable has a value. -/
theorem Stacked.assign {t : Trail unbounded} (h : t.Stacked) (l : Lit)
    (reason? : Option Reason) : (t.assign l reason?).1.Stacked := by
  rcases t.isOpen_or_assigns l with ho | ha | ha
  · rw [assign_of_isOpen ho]
    refine ⟨List.nodup_cons.2 ⟨fun hm => ?_, h.distinct⟩,
      List.pairwise_cons.2 ⟨h.level_le, h.sorted⟩,
      List.forall_mem_cons.2 ⟨Nat.le_refl _, h.level_le⟩⟩
    obtain ⟨e, he, hv⟩ := List.mem_map.1 hm
    exact isOpen_iff.1 ho e he hv
  · rwa [h.distinct.assign_of_assigns ha]
  · rwa [h.distinct.assign_of_assigns_flip ha]

/-- Going back keeps a trail in order. -/
theorem Stacked.backTo {t : Trail unbounded} (h : t.Stacked) (k : Nat) : (t.backTo k).Stacked where
  distinct := h.distinct.sublist ((t.backTo_suffix k).sublist.map _)
  sorted := h.sorted.sublist (t.backTo_suffix k).sublist
  level_le := fun e he => by
    rw [backTo_entries] at he
    exact ((mem_dropWhile_level h.sorted).1 he).2

/-- Every trail of a search is in order. -/
theorem Worked.stacked {t : Trail unbounded} (h : t.Worked) : t.Stacked := by
  induction h with
  | empty => exact ⟨List.nodup_nil, List.Pairwise.nil, fun e he => absurd he List.not_mem_nil⟩
  | assign _ l reason? ih => exact ih.assign l reason?
  | raise _ hk ih => exact ⟨ih.distinct, ih.sorted, fun e he => Nat.le_trans (ih.level_le e he) hk⟩
  | backTo _ k ih => exact ih.backTo k

/-- The queue holds the literals that are assigned. -/
theorem mem_queue {t : Trail unbounded} {l : Lit} : l ∈ t.queue ↔ Assigns t.entries l := by
  simp [queue, Assigns]

/-- **The trails of a search are in order.** -/
theorem Worked.orderly {t : Trail unbounded} (h : t.Worked) : t.Orderly := by
  obtain ⟨hdistinct, hsorted, hlevel⟩ := h.stacked
  have hatoms : t.queue.map (·.atom) = (t.entries.map (·.variableOf)).reverse := by
    rw [queue, List.map_map, List.map_reverse]
    rfl
  have hlevels : t.queue.map (fun l => t.levelOf l.atom) = (t.entries.map (·.level)).reverse := by
    rw [queue, List.map_map, List.map_reverse]
    exact congrArg List.reverse (List.map_congr_left fun e he => hdistinct.levelOf_of_mem he)
  refine ⟨?_, fun v => ?_, fun l hl => hdistinct.isTrue_iff.2 (mem_queue.1 hl), ?_, fun l hl => ?_⟩
  · rw [hatoms]
    exact List.nodup_reverse.2 hdistinct
  · rw [hatoms, List.mem_reverse, List.mem_map, ← Bool.not_eq_true, isOpen_iff]
    push Not
    rfl
  · rw [hlevels, List.pairwise_reverse, List.pairwise_map]
    exact hsorted
  · obtain ⟨e, he, rfl⟩ := mem_queue.1 hl
    exact (hdistinct.levelOf_of_mem he).symm ▸ hlevel e he

end Trail

/-! ### The search -/

section Steps

variable {t : Trail Trail.unbounded}

/-- Excluding the others of a rule is a run of assignments. -/
theorem worked_excludeOthers (cause : Lit) (ls : List Lit) (ht : t.Worked) :
    (excludeOthers cause ls t).1.Worked := by
  induction ls generalizing t with
  | nil => exact ht
  | cons l ls ih =>
      rw [excludeOthers]
      split
      · exact ih ht
      · have hassign := ht.assign l (some (.excludedBy cause))
        split <;> rename_i heq <;> rw [heq] at hassign
        · exact ih hassign
        · exact hassign

/-- The trail that a look leaves: where a rule moves its watch, the one that it was given. -/
def Look.trail {word : Nat} (t : Trail word) : Look word → Trail word
  | .keep t' => t'
  | .move _ _ => t
  | .conflict t' _ => t'

/-- A look at one watched pair is a run of one assignment at most. -/
theorem worked_lookAtPair (id : Nat) (r : Rule Nat) (f : Lit) (pair : Lit × Lit) (ht : t.Worked) :
    ((lookAtPair id r f pair t).trail t).Worked := by
  rw [lookAtPair]
  generalize (if pair.1 = f then pair.2 else pair.1) = other
  have hassign := ht.assign other (some (.rule id))
  split
  · exact ht
  · split
    · exact ht
    · split <;> rename_i heq <;> rw [heq] at hassign <;> exact hassign

/-- A look at a rule does no more to the trail than that. -/
theorem worked_lookAt (id : Nat) (r : Rule Nat) (f : Lit) (pair? : Option (Lit × Lit))
    (ht : t.Worked) : ((lookAt id r f pair? t).trail t).Worked := by
  have hothers := worked_excludeOthers f r.literals ht
  unfold lookAt
  split
  · split <;> rename_i heq <;> rw [heq] at hothers <;> exact hothers
  · split
    · exact worked_lookAtPair id r f _ ht
    · exact ht

/-- A round over the rules that watch a literal is a run of looks. -/
theorem worked_sweep (rules : RuleSet Nat) (f : Lit) (ids : List Nat) (g : WatchGraph)
    (ht : t.Worked) : (sweep rules f ids g t).trail.Worked := by
  induction ids generalizing g t with
  | nil => exact ht
  | cons id ids ih =>
      rw [sweep]
      split
      · exact ih g ht
      · rename_i r _
        have hlook := worked_lookAt id r f (g.pair? id) ht
        split <;> rename_i heq <;> rw [heq] at hlook
        · exact ih g hlook
        · exact ih _ ht
        · exact hlook

/-- Propagation is a run of rounds. -/
theorem worked_propagateFrom (rules : RuleSet Nat) (fuel : Nat) (g : WatchGraph) (done : Nat)
    (ht : t.Worked) : (propagateFrom rules fuel g t done).2.1.Worked := by
  induction fuel generalizing g t done with
  | zero => exact ht
  | succ fuel ih =>
      rw [propagateFrom]
      split
      · exact ht
      · rename_i e _
        have hround : (propagateFalse rules g t e.literal.flip).2.1.Worked :=
          worked_sweep rules e.literal.flip (g.watching e.literal.flip) _ ht
        split <;> rename_i heq <;> rw [heq] at hround
        · exact hround
        · exact ih _ _ hround

/-- The rules of one literal are assigned one by one. -/
theorem worked_assignUnits {t' : Trail Trail.unbounded} (rs : List (Rule Nat × Nat))
    (ht : t.Worked) (h : assignUnits rs t = some t') : t'.Worked := by
  induction rs generalizing t with
  | nil => exact Option.some.inj h ▸ ht
  | cons x rs ih =>
      obtain ⟨r, id⟩ := x
      rw [assignUnits] at h
      split at h
      · cases h
      · rename_i l _
        have hassign := ht.assign l (some (.rule id))
        split at h <;> rename_i heq <;> rw [heq] at hassign
        · exact ih hassign h
        · cases h
      · exact ih ht h

variable {p : Problem} {s s' : State} {deadline : Deadline}

/-- Propagating leaves a trail that comes from moves of a search. -/
theorem Problem.worked_propagate (p : Problem) (hs : s.trail.Worked) :
    (p.propagate s).1.trail.Worked :=
  worked_propagateFrom s.rules (p.variableCount + 1) s.graph s.propagated hs

/-- Advancing leaves a trail that comes from moves of a search: a decision, or a model. -/
theorem Problem.worked_advance (p : Problem) (hs : s.trail.Worked) : (p.advance s).trail.Worked := by
  rw [Problem.advance]
  split
  · exact (hs.raise (Nat.le_succ _)).assign _ none
  · exact hs

/-- Resolving a conflict is going back and assigning what was learned. -/
theorem Problem.worked_resolve {c : Clause} (hs : s.trail.Worked)
    (h : Problem.resolve s c = some s') : s'.trail.Worked := by
  have hlowered : (Problem.lowered s c).trail.Worked := by
    rw [Problem.lowered]
    split
    · exact hs.backTo _
    · exact hs
  rcases Nat.eq_zero_or_pos (highestLevel s.trail c) with hzero | hpos
  · rw [Problem.resolve, if_pos hzero] at h
    cases h
  · rw [Problem.resolve_eq hpos] at h
    obtain ⟨learned, -, rfl⟩ := Option.map_eq_some_iff.1 h
    exact (hlowered.backTo learned.level).assign learned.literal _

/-- **Whatever a search reaches**, its trail comes from assigning, raising the level and going
back. -/
theorem Problem.Reached.worked (h : p.Reached deadline s) : s.trail.Worked := by
  induction h with
  | start h =>
      obtain ⟨t, ht, rfl⟩ := Option.map_eq_some_iff.1 h
      exact worked_assignUnits _ .empty ht
  | @step s s' _ h ih =>
      have hprop : (p.propagate { s with steps := s.steps + 1 }).1.trail.Worked :=
        p.worked_propagate ih
      rw [Problem.step] at h
      split at h
      · cases h
      · split at h
        rename_i s₁ c? heq
        rw [heq] at hprop
        split at h
        · exact Except.ok.inj h ▸ p.worked_advance hprop
        · split at h
          · rename_i heq'
            exact Except.ok.inj h ▸ Problem.worked_resolve hprop heq'
          · cases h

/-- **Going back restores the trail exactly.**  Take a trail of assignments up to a level and any
moves that assign above it.  In a word of 32 bits, going back to the level gives the same queue and
the same value, level and reason of every variable exactly when it takes away all levels at which
the moves have assigned, as it does with those below the sign bit; without bounds it always does.
Every trail of a search is in order, between its steps and where propagation ends, and has no more
levels than there are variables. -/
theorem going_back_restores {t : Trail Trail.word32} {k : Nat} {moves : List Trail.Move}
    (hold : t.UpTo k)
    (hmoves : Trail.AssignsAt (fun j => k < j ∧ j < 2 ^ 32) t.level moves) :
    (t.Restores k ((t.follow moves).backTo k) ↔ ∀ e ∈ t.made moves, Trail.Undoes k e.level) ∧
    (Trail.AssignsAt (fun j => k < j ∧ j < 2 ^ 31) t.level moves →
      t.Restores k ((t.follow moves).backTo k)) ∧
    (∀ (t : Trail Trail.unbounded) (k : Nat) (moves : List Trail.Move),
      t.UpTo k → Trail.AssignsAt (fun j => k < j) t.level moves →
        t.Restores k ((t.follow moves).backTo k)) ∧
    ∀ (p : Problem) (deadline : Deadline) (s : State), p.Reached deadline s →
      s.trail.Orderly ∧ (p.propagate s).1.trail.Orderly ∧
        (p.WellFormed → s.trail.level ≤ p.variableCount) :=
  ⟨Trail.restores_iff hold hmoves, Trail.restores_of_lt hold,
    fun _ _ _ => Trail.restores_of_above, fun p _ _ hreached =>
      ⟨hreached.worked.orderly, (p.worked_propagate hreached.worked).orderly,
        fun hp => (hreached.valid hp).sound.trail.level_le_count⟩⟩

/-- One variable has a value, at level zero. -/
def Trail.settledOne {word : Nat} : Trail word := (Trail.empty.assign (.pos 2) none).1

/-- Two variables are assigned above it, and asked for once more in both ways. -/
def Trail.twoLevels : List Trail.Move :=
  [.level 1, .assign (.pos 1) (some (.rule 0)), .assign (.pos 1) none, .level 2,
    .assign (.neg 1) none, .assign (.neg 3) (some (.excludedBy (.neg 1))), .assign (.neg 2) none]

/-- Another one is assigned at the last level that is told as zero. -/
def Trail.farLevel : List Trail.Move := [.level 4294967294, .assign (.pos 1) none]

/-- Going back to zero restores the trail after two levels, but not after the far one, which a word
of 32 bits tells as zero; without bounds it does, and the search of `crossed` reaches a trail to go
back from. -/
theorem going_back_restores_settledOne :
    (Trail.settledOne : Trail Trail.word32).Restores 0
      ((Trail.settledOne.follow Trail.twoLevels).backTo 0) ∧
    ¬(Trail.settledOne : Trail Trail.word32).Restores 0
      ((Trail.settledOne.follow Trail.farLevel).backTo 0) ∧
    (Trail.settledOne : Trail Trail.unbounded).Restores 0
      ((Trail.settledOne.follow Trail.farLevel).backTo 0) ∧
    ∃ s, crossed.Reached .never s ∧ s.trail.size = 2 ∧ s.trail.Orderly ∧ s.trail.level ≤ 3 := by
  have hold : ∀ {word}, (Trail.settledOne : Trail word).UpTo 0 := fun a ha =>
    Or.inl (by rw [List.mem_singleton.1 ha]; exact Nat.le_refl 0)
  have htwo : ∀ n, 2 < n → Trail.AssignsAt (fun j => 0 < j ∧ j < n) 0 Trail.twoLevels := by
    intro n hn
    have hone : 1 < n := Nat.lt_of_succ_lt hn
    simp [Trail.AssignsAt, Trail.twoLevels, hone, hn]
  have hfar : Trail.AssignsAt (fun j => 0 < j ∧ j < 2 ^ 32) 0 Trail.farLevel := by
    simp [Trail.AssignsAt, Trail.farLevel]
  obtain ⟨-, hbelow, hunbounded, hsearch⟩ := going_back_restores hold (htwo _ (by decide))
  obtain ⟨hiff, -⟩ := going_back_restores hold hfar
  obtain ⟨s, hs, hsize⟩ : ∃ s, crossed.Reached .never s ∧ (s.trail.size == 2) = true :=
    Problem.exists_reached 2 (by decide +kernel)
  obtain ⟨horderly, -, hlevel⟩ := hsearch crossed .never s hs
  refine ⟨hbelow (htwo _ (by decide)), fun h => ?_,
    hunbounded _ 0 _ hold (hfar.mono fun _ => And.left),
    s, hs, by simpa using hsize, horderly, hlevel crossed_wellFormed⟩
  exact absurd (hiff.1 h) (by decide)

end Steps

end Search
end Loadout
