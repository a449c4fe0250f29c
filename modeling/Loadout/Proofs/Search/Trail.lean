/-
# Trails of a search

The trail of a search assigns every variable once, newest first, at levels that never
rise towards the older end; every level from one on begins with a decision; and what is
no decision was forced by a rule whose other literals were false before
(`Trail.Valid`).  Assigning an open variable for a reason, deciding one at the next
level and going back to a level keep all of this (`Trail.Valid.push`,
`Trail.Valid.decide`, `Trail.Valid.backTo`).

Marks have no bounds here: words that wrap around are no part of a search.
-/

import Loadout.Proofs.Search.Rule
import Loadout.Search.Trail

namespace Loadout
namespace Search

/-- The assignments make a literal true. -/
def Assigns (entries : List Assignment) (l : Lit) : Prop := ∃ e ∈ entries, e.literal = l

/-- What is true stays so among more assignments. -/
theorem Assigns.mono {old new : List Assignment} (h : old ⊆ new) {l : Lit} :
    Assigns old l → Assigns new l
  | ⟨e, he, hl⟩ => ⟨e, h he, hl⟩

/-- Why an assignment was made, given those before it.  A decision opens its level; a
forced literal is the last one of a rule, or excluded by an at-most-one rule. -/
def Justified (rules : RuleSet Nat) (older : List Assignment) (e : Assignment) : Prop :=
  match e.reason? with
  | none => 0 < e.level ∧ ∀ a ∈ older, a.level < e.level
  | some (.rule id) => ∃ r, rules.get? id = some r ∧
      (r.isAtMostOne = false ∨ r.literals = [e.literal]) ∧ e.literal ∈ r.literals ∧
        ∀ l ∈ r.literals, l ≠ e.literal → Assigns older l.flip
  | some (.excludedBy cause) => Assigns older cause.flip ∧ cause ≠ e.literal ∧
      ∃ r ∈ rules.toList, r.isAtMostOne = true ∧ cause ∈ r.literals ∧ e.literal ∈ r.literals

/-- All assignments are justified by older ones. -/
def Supported (rules : RuleSet Nat) : List Assignment → Prop
  | [] => True
  | e :: older => Justified rules older e ∧ Supported rules older

/-- A justified assignment stays so when rules are added. -/
theorem Justified.grow {rules rules' : RuleSet Nat} (h : rules.Grows rules')
    {older : List Assignment} {e : Assignment} (he : Justified rules older e) :
    Justified rules' older e := by
  unfold Justified at he ⊢
  split
  · rename_i hr
    simpa [hr] using he
  · rename_i id hr
    simp only [hr] at he
    obtain ⟨r, hid, hrest⟩ := he
    exact ⟨r, h id r hid, hrest⟩
  · rename_i cause hr
    simp only [hr] at he
    obtain ⟨hc, hne, r, hmem, hrest⟩ := he
    exact ⟨hc, hne, r, h.mem hmem, hrest⟩

/-- Supported assignments stay so when rules are added. -/
theorem Supported.grow {rules rules' : RuleSet Nat} (h : rules.Grows rules') :
    ∀ {entries : List Assignment}, Supported rules entries → Supported rules' entries
  | [], _ => trivial
  | _ :: _, hs => ⟨hs.1.grow h, Supported.grow h hs.2⟩

/-- The older ones of supported assignments are supported. -/
theorem Supported.of_suffix {rules : RuleSet Nat} :
    ∀ {entries older : List Assignment}, older <:+ entries → Supported rules entries →
      Supported rules older
  | [], _, h, hs => by rwa [List.suffix_nil.1 h]
  | _ :: _, _, h, hs => by
      rcases List.suffix_cons_iff.1 h with rfl | h
      · exact hs
      · exact Supported.of_suffix h hs.2

namespace Trail

variable {t : Trail unbounded}

/-- No variable is assigned twice. -/
def Distinct (t : Trail unbounded) : Prop := (t.entries.map Assignment.variableOf).Nodup

/-- A variable has one assignment. -/
theorem Distinct.eq_of_variableOf_eq (h : t.Distinct) {a b : Assignment} (ha : a ∈ t.entries)
    (hb : b ∈ t.entries) (hab : a.variableOf = b.variableOf) : a = b :=
  List.inj_on_of_nodup_map h ha hb hab

/-! ### What a trail says of a literal -/

/-- Looking up a variable finds its assignment. -/
theorem Distinct.find?_eq_some_iff (h : t.Distinct) {v : Nat} {e : Assignment} :
    t.find? v = some e ↔ e ∈ t.entries ∧ e.variableOf = v := by
  constructor
  · intro hf
    exact ⟨List.mem_of_find?_eq_some hf, by simpa using List.find?_some hf⟩
  · rintro ⟨he, rfl⟩
    cases hf : t.find? e.variableOf with
    | none => simpa using List.find?_eq_none.1 hf e he
    | some a =>
        have ha : a.variableOf = e.variableOf := by simpa using List.find?_some hf
        rw [h.eq_of_variableOf_eq (List.mem_of_find?_eq_some hf) he ha]

/-- Looking up a variable finds nothing where it has no assignment. -/
theorem find?_eq_none_iff {v : Nat} : t.find? v = none ↔ ∀ e ∈ t.entries, e.variableOf ≠ v := by
  simp [find?]

/-- A literal has the value of its variable, or the opposite one. -/
theorem value?_eq (l : Lit) :
    t.value? l = (t.find? l.atom).map fun e => e.literal.positive == l.positive := by
  simp only [value?]
  cases t.find? l.atom <;> simp

/-- A variable is open just where it has no assignment. -/
theorem isOpen_iff {v : Nat} : t.isOpen v = true ↔ ∀ e ∈ t.entries, e.variableOf ≠ v := by
  rw [← find?_eq_none_iff]
  simp only [isOpen]
  cases t.find? v <;> simp

/-- A literal is true when the trail has it. -/
theorem Distinct.isTrue_iff (h : t.Distinct) {l : Lit} :
    t.isTrue l = true ↔ Assigns t.entries l := by
  rw [isTrue, value?_eq]
  constructor
  · intro ht
    cases hf : t.find? l.atom with
    | none => simp [hf] at ht
    | some e =>
        obtain ⟨he, hv⟩ := h.find?_eq_some_iff.1 hf
        refine ⟨e, he, ?_⟩
        rcases Literal.eq_or_eq_flip_of_atom_eq hv with hl | hl
        · exact hl
        · simp [hf, hl, Literal.flip] at ht
  · rintro ⟨e, he, rfl⟩
    have hf : t.find? e.literal.atom = some e := h.find?_eq_some_iff.2 ⟨he, rfl⟩
    simp [hf]

/-- A literal is false when the trail has its opposite. -/
theorem Distinct.isFalse_iff (h : t.Distinct) {l : Lit} :
    t.isFalse l = true ↔ Assigns t.entries l.flip := by
  rw [← h.isTrue_iff, isFalse, isTrue, value?_eq, value?_eq]
  simp only [Literal.flip_atom]
  cases t.find? l.atom with
  | none => simp
  | some e => cases he : e.literal.positive <;> cases hl : l.positive <;> simp [he, hl, Literal.flip]

/-- An assignment that makes a literal false is one of its variable. -/
theorem variableOf_of_flip {e : Assignment} {l : Lit} (h : e.literal = l.flip) :
    e.variableOf = l.atom := by
  rw [Assignment.variableOf, h, Literal.flip_atom]

/-- No literal is true together with its opposite. -/
theorem Distinct.not_both (h : t.Distinct) {l : Lit} (hl : Assigns t.entries l)
    (hf : Assigns t.entries l.flip) : False := by
  obtain ⟨a, ha, hal⟩ := hl
  obtain ⟨b, hb, hbl⟩ := hf
  have hab : a = b := h.eq_of_variableOf_eq ha hb (by
    simp [Assignment.variableOf, hal, hbl])
  exact Literal.flip_ne l (by rw [← hbl, ← hal, hab])

/-- A literal is open, true or false. -/
theorem isOpen_or_assigns (t : Trail unbounded) (l : Lit) :
    t.isOpen l.atom = true ∨ Assigns t.entries l ∨ Assigns t.entries l.flip := by
  by_cases ho : t.isOpen l.atom = true
  · exact Or.inl ho
  · simp only [isOpen_iff, not_forall, not_not] at ho
    obtain ⟨e, he, hv⟩ := ho
    rcases Literal.eq_or_eq_flip_of_atom_eq hv with hl | hl
    · exact Or.inr (Or.inl ⟨e, he, hl⟩)
    · exact Or.inr (Or.inr ⟨e, he, hl⟩)

/-- The level of a variable is that of its assignment. -/
theorem Distinct.levelOf_of_mem (h : t.Distinct) {e : Assignment} (he : e ∈ t.entries) :
    t.levelOf e.variableOf = e.level := by
  rw [levelOf, h.find?_eq_some_iff.2 ⟨he, rfl⟩]
  simp

/-- The level of a false literal is that of its assignment. -/
theorem Distinct.levelOf_of_flip (h : t.Distinct) {e : Assignment} (he : e ∈ t.entries) {l : Lit}
    (hel : e.literal = l.flip) : t.levelOf l.atom = e.level := by
  rw [← variableOf_of_flip hel, h.levelOf_of_mem he]

/-! ### Assigning -/

/-- The trail with an open literal assigned at its level. -/
def push (t : Trail unbounded) (l : Lit) (reason? : Option Reason) : Trail unbounded :=
  { t with entries := ⟨l, t.level, reason?⟩ :: t.entries }

/-- An open literal is assigned at the present level. -/
theorem assign_of_isOpen {l : Lit} (h : t.isOpen l.atom = true) (reason? : Option Reason) :
    t.assign l reason? = (t.push l reason?, true) := by
  have hn : t.find? l.atom = none := find?_eq_none_iff.2 (isOpen_iff.1 h)
  have hv : t.value? l = none := by rw [value?_eq, hn]; rfl
  simp only [assign, hv, push, forgetReason, hn, Option.isNone_none, if_true]

/-- A true literal is not assigned again. -/
theorem Distinct.assign_of_assigns (h : t.Distinct) {l : Lit} (hl : Assigns t.entries l)
    (reason? : Option Reason) : t.assign l reason? = (t, true) := by
  have hv : t.value? l = some true := by simpa [isTrue] using h.isTrue_iff.2 hl
  simp only [assign, hv]

/-- A false literal cannot be assigned. -/
theorem Distinct.assign_of_assigns_flip (h : t.Distinct) {l : Lit}
    (hl : Assigns t.entries l.flip) (reason? : Option Reason) :
    t.assign l reason? = (t, false) := by
  have hv : t.value? l = some false := by simpa [isFalse] using h.isFalse_iff.2 hl
  simp only [assign, hv]

/-! ### Going back -/

/-- Where levels fall from the newest to the oldest, those up to one are all that going back leaves.
-/
theorem mem_dropWhile_level {k : Nat} {e : Assignment} :
    ∀ {entries : List Assignment},
      entries.Pairwise (fun newer older => older.level ≤ newer.level) →
      (e ∈ entries.dropWhile (fun a => k < a.level) ↔ e ∈ entries ∧ e.level ≤ k)
  | [], _ => by simp
  | a :: entries, hs => by
      obtain ⟨ha, hs⟩ := List.pairwise_cons.1 hs
      rw [List.dropWhile_cons]
      split
      · rename_i hk
        simp only [decide_eq_true_eq] at hk
        rw [mem_dropWhile_level hs, List.mem_cons]
        constructor
        · exact fun h => ⟨Or.inr h.1, h.2⟩
        · rintro ⟨rfl | he, hle⟩
          · omega
          · exact ⟨he, hle⟩
      · rename_i hk
        simp only [decide_eq_true_eq, Nat.not_lt] at hk
        refine ⟨fun h => ⟨h, ?_⟩, And.left⟩
        rcases List.mem_cons.1 h with rfl | h
        · exact hk
        · exact Nat.le_trans (ha e h) hk

/-- Going back drops the newest assignments while they are above the level. -/
theorem backTo_entries (t : Trail unbounded) (k : Nat) :
    (t.backTo k).entries = t.entries.dropWhile fun e => k < e.level := by
  simp [backTo]

/-- What going back leaves are the oldest assignments. -/
theorem backTo_suffix (t : Trail unbounded) (k : Nat) : (t.backTo k).entries <:+ t.entries := by
  rw [backTo_entries]
  exact List.dropWhile_suffix _

/-- Dropping down to one level and then to a lower one is dropping down to the lower one. -/
theorem dropWhile_dropWhile_level {j k : Nat} (hjk : j ≤ k) : ∀ entries : List Assignment,
    (entries.dropWhile fun e => k < e.level).dropWhile (fun e => j < e.level) =
      entries.dropWhile fun e => j < e.level
  | [] => rfl
  | a :: entries => by
      rw [List.dropWhile_cons]
      split
      · rename_i hk
        simp only [decide_eq_true_eq] at hk
        rw [dropWhile_dropWhile_level hjk, List.dropWhile_cons_of_pos (by simpa using by omega)]
      · rfl

/-- Going back twice is going back to the lower level. -/
theorem backTo_backTo (t : Trail unbounded) {j k : Nat} (hjk : j ≤ k) :
    (t.backTo k).backTo j = t.backTo j := by
  have h : ((t.backTo k).backTo j).entries = (t.backTo j).entries := by
    rw [backTo_entries, backTo_entries, backTo_entries, dropWhile_dropWhile_level hjk]
  rw [show (t.backTo k).backTo j = ⟨((t.backTo k).backTo j).entries, j⟩ from rfl, h]
  rfl

/-! ### Trails that a search can reach -/

/-- **What holds of every trail of a search** over the variables `1` to `n`. -/
structure Valid (rules : RuleSet Nat) (n : Nat) (t : Trail unbounded) : Prop where
  distinct : t.Distinct
  sorted : t.entries.Pairwise fun newer older => older.level ≤ newer.level
  level_le : ∀ e ∈ t.entries, e.level ≤ t.level
  bounded : ∀ e ∈ t.entries, 1 ≤ e.variableOf ∧ e.variableOf ≤ n
  inhabited : ∀ k, 1 ≤ k → k ≤ t.level → ∃ e ∈ t.entries, e.level = k
  supported : Supported rules t.entries

variable {rules : RuleSet Nat} {n : Nat}

/-- The empty trail is valid. -/
theorem Valid.empty : Valid rules n (.empty : Trail unbounded) where
  distinct := List.nodup_nil
  sorted := List.Pairwise.nil
  level_le := by simp [Trail.empty]
  bounded := by simp [Trail.empty]
  inhabited := fun k hk hk' => by simp [Trail.empty] at hk'; omega
  supported := trivial

/-- A valid trail stays so when rules are added. -/
theorem Valid.grow {rules' : RuleSet Nat} (h : t.Valid rules n) (hr : rules.Grows rules') :
    t.Valid rules' n :=
  { h with supported := h.supported.grow hr }

/-- There is no room for more assignments than variables. -/
theorem Valid.length_le (h : t.Valid rules n) : t.entries.length ≤ n := by
  have hsub : t.entries.map Assignment.variableOf ⊆ List.range' 1 n := by
    intro v hv
    obtain ⟨e, he, rfl⟩ := List.mem_map.1 hv
    have := h.bounded e he
    rw [List.mem_range'_1]
    omega
  simpa using (List.Nodup.subperm h.distinct hsub).length_le

/-- Every level takes an assignment, so there are no more levels than variables. -/
theorem Valid.level_le_count (h : t.Valid rules n) : t.level ≤ n := by
  have hsub : List.range' 1 t.level ⊆ t.entries.map Assignment.level := by
    intro k hk
    rw [List.mem_range'_1] at hk
    obtain ⟨e, he, hek⟩ := h.inhabited k hk.1 (by omega)
    exact List.mem_map.2 ⟨e, he, hek⟩
  have := (List.Nodup.subperm List.nodup_range' hsub).length_le
  simp only [List.length_range', List.length_map] at this
  exact Nat.le_trans this h.length_le

/-- **Assigning an open literal** for a good reason keeps a trail valid. -/
theorem Valid.push (h : t.Valid rules n) {l : Lit} {reason? : Option Reason}
    (ho : t.isOpen l.atom = true) (hb : 1 ≤ l.atom ∧ l.atom ≤ n)
    (hj : Justified rules t.entries ⟨l, t.level, reason?⟩) : (t.push l reason?).Valid rules n where
  distinct := by
    refine List.nodup_cons.2 ⟨fun hm => ?_, h.distinct⟩
    obtain ⟨e, he, hv⟩ := List.mem_map.1 hm
    exact isOpen_iff.1 ho e he hv
  sorted := List.pairwise_cons.2 ⟨h.level_le, h.sorted⟩
  level_le := List.forall_mem_cons.2 ⟨Nat.le_refl _, h.level_le⟩
  bounded := List.forall_mem_cons.2 ⟨hb, h.bounded⟩
  inhabited := fun k hk hk' => by
    obtain ⟨e, he, hek⟩ := h.inhabited k hk hk'
    exact ⟨e, List.mem_cons_of_mem _ he, hek⟩
  supported := ⟨hj, h.supported⟩

/-- **A decision opens the next level.** -/
theorem Valid.decide (h : t.Valid rules n) {l : Lit} (ho : t.isOpen l.atom = true)
    (hb : 1 ≤ l.atom ∧ l.atom ≤ n) : ((t.atLevel (t.level + 1)).push l none).Valid rules n where
  distinct := by
    refine List.nodup_cons.2 ⟨fun hm => ?_, h.distinct⟩
    obtain ⟨e, he, hv⟩ := List.mem_map.1 hm
    exact isOpen_iff.1 ho e he hv
  sorted := List.pairwise_cons.2 ⟨fun e he => Nat.le_succ_of_le (h.level_le e he), h.sorted⟩
  level_le := List.forall_mem_cons.2
    ⟨Nat.le_refl _, fun e he => Nat.le_succ_of_le (h.level_le e he)⟩
  bounded := List.forall_mem_cons.2 ⟨hb, h.bounded⟩
  inhabited := fun k hk hk' => by
    rcases Nat.lt_or_ge t.level k with hlt | hge
    · exact ⟨_, List.mem_cons_self .., Nat.le_antisymm hlt hk'⟩
    · obtain ⟨e, he, hek⟩ := h.inhabited k hk hge
      exact ⟨e, List.mem_cons_of_mem _ he, hek⟩
  supported := ⟨⟨Nat.succ_pos _, fun a ha => Nat.lt_succ_of_le (h.level_le a ha)⟩, h.supported⟩

/-- Going back keeps the assignments up to the level. -/
theorem Valid.mem_backTo (h : t.Valid rules n) {k : Nat} {e : Assignment} :
    e ∈ (t.backTo k).entries ↔ e ∈ t.entries ∧ e.level ≤ k := by
  rw [backTo_entries]
  exact mem_dropWhile_level h.sorted

/-- **Going back to a level** keeps a trail valid. -/
theorem Valid.backTo (h : t.Valid rules n) {k : Nat} (hk : k ≤ t.level) :
    (t.backTo k).Valid rules n where
  distinct := h.distinct.sublist ((t.backTo_suffix k).sublist.map _)
  sorted := h.sorted.sublist (t.backTo_suffix k).sublist
  level_le := fun _ he => (h.mem_backTo.1 he).2
  bounded := fun e he => h.bounded e (h.mem_backTo.1 he).1
  inhabited := fun j hj hjk => by
    obtain ⟨e, he, hej⟩ := h.inhabited j hj (Nat.le_trans hjk hk)
    exact ⟨e, h.mem_backTo.2 ⟨he, hej ▸ hjk⟩, hej⟩
  supported := h.supported.of_suffix (t.backTo_suffix k)

/-! ### Literals that are true from a level on -/

/-- The literal is true, and was assigned at that level or below. -/
def TrueBy (t : Trail unbounded) (k : Nat) (l : Lit) : Prop :=
  ∃ e ∈ t.entries, e.literal = l ∧ e.level ≤ k

/-- What is true by a level is true. -/
theorem TrueBy.assigns {k : Nat} {l : Lit} : t.TrueBy k l → Assigns t.entries l
  | ⟨e, he, hl, _⟩ => ⟨e, he, hl⟩

/-- What is true by a level is so by a later one on a longer trail. -/
theorem TrueBy.mono {t' : Trail unbounded} {k k' : Nat} {l : Lit} (ht : t.entries ⊆ t'.entries)
    (hk : k ≤ k') : t.TrueBy k l → t'.TrueBy k' l
  | ⟨e, he, hl, hle⟩ => ⟨e, ht he, hl, Nat.le_trans hle hk⟩

/-- Going back to a later level leaves it true. -/
theorem Valid.trueBy_backTo (h : t.Valid rules n) {j k : Nat} {l : Lit} (hjk : j ≤ k)
    (hl : t.TrueBy j l) : (t.backTo k).TrueBy j l := by
  obtain ⟨e, he, hel, hj⟩ := hl
  exact ⟨e, h.mem_backTo.2 ⟨he, Nat.le_trans hj hjk⟩, hel, hj⟩

/-- All that is true is so by the present level. -/
theorem Valid.trueBy_level (h : t.Valid rules n) {l : Lit} (hl : Assigns t.entries l) :
    t.TrueBy t.level l := by
  obtain ⟨e, he, hel⟩ := hl
  exact ⟨e, he, hel, h.level_le e he⟩

/-! ### Growing trails -/

/-- The second trail is the first one with more assignments at its level. -/
structure Grows (t t' : Trail unbounded) : Prop where
  level : t'.level = t.level
  entries : ∃ new, t'.entries = new ++ t.entries ∧ ∀ e ∈ new, e.level = t.level

/-- A trail grows into itself. -/
theorem Grows.refl (t : Trail unbounded) : t.Grows t :=
  ⟨rfl, [], rfl, fun _ h => absurd h List.not_mem_nil⟩

/-- Trails grow through one another. -/
theorem Grows.trans {t' t'' : Trail unbounded} (h : t.Grows t') (h' : t'.Grows t'') :
    t.Grows t'' := by
  obtain ⟨new, he, hnew⟩ := h.entries
  obtain ⟨new', he', hnew'⟩ := h'.entries
  refine ⟨h'.level.trans h.level, new' ++ new, by rw [he', he, List.append_assoc], ?_⟩
  intro e hmem
  rcases List.mem_append.1 hmem with hmem | hmem
  · exact (hnew' e hmem).trans h.level
  · exact hnew e hmem

/-- A trail that grows keeps its assignments. -/
theorem Grows.subset {t' : Trail unbounded} (h : t.Grows t') : t.entries ⊆ t'.entries := by
  obtain ⟨new, he, -⟩ := h.entries
  rw [he]
  exact List.subset_append_right _ _

/-- An assignment makes a trail grow. -/
theorem grows_push (t : Trail unbounded) (l : Lit) (reason? : Option Reason) :
    t.Grows (t.push l reason?) :=
  ⟨rfl, [⟨l, t.level, reason?⟩], rfl, fun e he => by rw [List.mem_singleton.1 he]⟩

/-- The assignments before a position, oldest first. -/
def before (t : Trail unbounded) (i : Nat) : List Assignment := t.entries.reverse.take i

/-- The assignments from a position on, oldest first. -/
def after (t : Trail unbounded) (i : Nat) : List Assignment := t.entries.reverse.drop i

/-- Positions count from the oldest assignment. -/
theorem at?_eq (t : Trail unbounded) (i : Nat) : t.at? i = t.entries.reverse[i]? := by
  unfold at? size
  split
  · rename_i h
    rw [List.getElem?_reverse h]
  · rename_i h
    exact (List.getElem?_eq_none (by simpa using h)).symm

/-- What is before a position is on the trail. -/
theorem mem_of_mem_before {i : Nat} {e : Assignment} (h : e ∈ t.before i) : e ∈ t.entries :=
  List.mem_reverse.1 (List.mem_of_mem_take h)

/-- What is after a position is on the trail. -/
theorem mem_of_mem_after {i : Nat} {e : Assignment} (h : e ∈ t.after i) : e ∈ t.entries :=
  List.mem_reverse.1 (List.mem_of_mem_drop h)

/-- All on a trail is before a position or after it. -/
theorem mem_before_or_after {i : Nat} {e : Assignment} (h : e ∈ t.entries) :
    e ∈ t.before i ∨ e ∈ t.after i := by
  rw [← List.mem_append, before, after, List.take_append_drop, List.mem_reverse]
  exact h

/-- All of a trail is before its end. -/
theorem mem_before_size {e : Assignment} : e ∈ t.before t.size ↔ e ∈ t.entries := by
  rw [before, List.take_of_length_le (by simp [size]), List.mem_reverse]

/-- Nothing is after the end. -/
theorem after_size (t : Trail unbounded) : t.after t.size = [] :=
  List.drop_eq_nil_of_le (by simp [size])

/-- The next assignment joins those before it. -/
theorem mem_before_succ {i : Nat} {a e : Assignment} (h : t.at? i = some a) :
    e ∈ t.before (i + 1) ↔ e ∈ t.before i ∨ e = a := by
  rw [at?_eq] at h
  rw [before, before, List.take_add_one, h]
  simp

/-- What is at a position is after it, the position counted in. -/
theorem mem_after_of_at? {i : Nat} {a : Assignment} (h : t.at? i = some a) : a ∈ t.after i := by
  rw [at?_eq] at h
  exact List.mem_of_getElem? (i := 0) (by rw [after, List.getElem?_drop]; simpa using h)

/-- What is after the next position is after this one. -/
theorem mem_after_of_mem_after_succ {i : Nat} {e : Assignment} (h : e ∈ t.after (i + 1)) :
    e ∈ t.after i :=
  (List.drop_subset_drop_left _ (Nat.le_succ i)) h

/-- A trail that grows keeps what is before a position. -/
theorem Grows.before_eq {t' : Trail unbounded} (h : t.Grows t') {i : Nat} (hi : i ≤ t.size) :
    t'.before i = t.before i := by
  obtain ⟨new, he, -⟩ := h.entries
  rw [before, before, he, List.reverse_append, List.take_append_of_le_length (by simpa [size] using hi)]

/-- What a trail that grows has after a position was there before, or is of the present level. -/
theorem Grows.mem_after {t' : Trail unbounded} (h : t.Grows t') {i : Nat} (hi : i ≤ t.size)
    {e : Assignment} (hmem : e ∈ t'.after i) : e ∈ t.after i ∨ e.level = t.level := by
  obtain ⟨new, he, hnew⟩ := h.entries
  rw [after, he, List.reverse_append, List.drop_append_of_le_length (by simpa [size] using hi),
    List.mem_append, List.mem_reverse] at hmem
  exact hmem.imp_right (hnew e)

/-- A trail that grows gets no shorter. -/
theorem Grows.size_le {t' : Trail unbounded} (h : t.Grows t') : t.size ≤ t'.size := by
  obtain ⟨new, he, -⟩ := h.entries
  simp [size, he]

end Trail
end Search
end Loadout
