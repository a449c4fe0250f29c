/-
# What rules say

An ordinary rule holds when one of its literals does.  An at-most-one rule over
distinct literals holds when of any two of them one does (`Rule.holds_atMostOne_iff`).
Two rules that a rule set takes for the same one hold in the same valuations
(`Rule.holds_eq_of_sameAs`), so leaving the second one out changes nothing
(`RuleSet.holds_ofList`), as the set has a rule with the same literals
(`RuleSet.exists_like_of_mem`).

Rule sets only grow during a search: `RuleSet.Grows` says that all rules keep their
numbers.
-/

import Loadout.Search.Rule
import Mathlib.Data.List.Nodup
import Mathlib.Data.List.Perm.Subperm

namespace Loadout

/-- The first occurrences of the members of a list are distinct. -/
theorem nodup_eraseDups {α : Type} [DecidableEq α] : ∀ l : List α, l.eraseDups.Nodup
  | [] => List.nodup_nil
  | a :: l => by
      rw [List.eraseDups_cons, List.nodup_cons]
      have : (l.filter fun b => !b == a).length < l.length + 1 :=
        Nat.lt_succ_of_le (List.length_filter_le ..)
      exact ⟨by simp, nodup_eraseDups _⟩
termination_by l => l.length

/-- A list of distinct members is its own list of first occurrences. -/
theorem eraseDups_of_nodup {α : Type} [DecidableEq α] : ∀ {l : List α}, l.Nodup → l.eraseDups = l
  | [], _ => rfl
  | a :: l, h => by
      obtain ⟨ha, hl⟩ := List.nodup_cons.1 h
      have hf : (l.filter fun b => !b == a) = l :=
        List.filter_eq_self.2 fun b hb => by simpa using fun e : b = a => ha (e ▸ hb)
      rw [List.eraseDups_cons, hf, eraseDups_of_nodup hl]

/-- A list of distinct members has one at most when all of them are equal. -/
theorem length_le_one_iff_of_nodup {α : Type} {l : List α} (h : l.Nodup) :
    l.length ≤ 1 ↔ ∀ a ∈ l, ∀ b ∈ l, a = b := by
  match l, h with
  | [], _ => simp
  | [a], _ => simp
  | a :: b :: l, h =>
      have hab : a ≠ b := fun e => (List.nodup_cons.1 h).1 (e ▸ List.mem_cons_self ..)
      simp only [List.length_cons, show ¬(l.length + 1 + 1 ≤ 1) by omega, false_iff]
      exact fun he => hab (he a (by simp) b (by simp))

/-- A list of distinct members is `[a]` when `a` is its only member. -/
theorem eq_singleton_iff_of_nodup {α : Type} {l : List α} (h : l.Nodup) {a : α} :
    l = [a] ↔ ∀ x, x ∈ l ↔ x = a := by
  constructor
  · rintro rfl x
    exact List.mem_singleton
  · intro hmem
    refine List.perm_singleton.1 ((List.perm_ext_iff_of_nodup h (List.nodup_singleton a)).2 ?_)
    exact fun x => (hmem x).trans List.mem_singleton.symm

namespace Literal

variable {α : Type}

/-- The opposite is a literal of the same variable. -/
@[simp] theorem flip_atom (l : Literal α) : l.flip.atom = l.atom := rfl

/-- No literal is its own opposite. -/
theorem flip_ne (l : Literal α) : l.flip ≠ l := by
  intro h
  have := congrArg Literal.positive h
  simp [flip] at this

/-- Literals with the same opposite are the same. -/
theorem flip_inj {a b : Literal α} (h : a.flip = b.flip) : a = b := by
  rw [← flip_flip a, h, flip_flip]

/-- Over one atom there are two literals. -/
theorem eq_or_eq_flip_of_atom_eq {a b : Literal α} (h : a.atom = b.atom) : a = b ∨ a = b.flip := by
  obtain ⟨x, p⟩ := a
  obtain ⟨y, q⟩ := b
  obtain rfl : x = y := h
  cases p <;> cases q <;> simp [flip]

/-- A literal does not hold where its opposite does. -/
theorem holds_eq_false_of_holds_flip {val : α → Bool} {l : Literal α}
    (h : l.flip.holds val = true) : l.holds val = false := by
  simpa using h

end Literal

namespace Rule

variable {α : Type}

/-- An ordinary rule holds when one of its literals does. -/
theorem holds_iff_exists {r : Rule α} (h : r.isAtMostOne = false) (val : α → Bool) :
    r.holds val = true ↔ ∃ l ∈ r.literals, l.holds val = true := by
  simp [holds, h]

/-- **An at-most-one rule is about pairs.**  Over distinct literals it holds when of any
two of them one does. -/
theorem holds_atMostOne_iff {r : Rule α} (h : r.isAtMostOne = true) (hr : r.literals.Nodup)
    (val : α → Bool) :
    r.holds val = true ↔ ∀ a ∈ r.literals, ∀ b ∈ r.literals, a ≠ b →
      a.holds val = true ∨ b.holds val = true := by
  have hnd : (r.literals.filter fun l => !l.holds val).Nodup := hr.filter _
  simp only [holds, h, if_true, decide_eq_true_eq]
  rw [length_le_one_iff_of_nodup hnd]
  constructor
  · intro he a ha b hb hab
    by_contra hc
    rw [not_or, Bool.not_eq_true, Bool.not_eq_true] at hc
    exact hab (he a (by simp [ha, hc.1]) b (by simp [hb, hc.2]))
  · intro he a ha b hb
    rw [List.mem_filter] at ha hb
    by_contra hab
    rcases he a ha.1 b hb.1 hab with hv | hv
    · simp [hv] at ha
    · simp [hv] at hb

section Equal

variable [DecidableEq α]

/-- A rule has each of its literals once. -/
theorem of_nodup (literals : List (Literal α)) (kind : RuleKind) : (of literals kind).literals.Nodup :=
  nodup_eraseDups literals

/-- A rule has the literals that it is made of. -/
@[simp] theorem mem_of {literals : List (Literal α)} {kind : RuleKind} {l : Literal α} :
    l ∈ (of literals kind).literals ↔ l ∈ literals := by
  simp [of]

/-- Only rules of the same identifier are at-most-one rules. -/
@[simp] theorem isAtMostOne_of (literals : List (Literal α)) (kind : RuleKind) :
    (of literals kind).isAtMostOne = decide (kind = .sameIdentifier) := rfl

/-- A rule has one literal when all that it is made of are the same. -/
theorem literals_of_eq_singleton_iff {literals : List (Literal α)} {kind : RuleKind}
    {l : Literal α} : (of literals kind).literals = [l] ↔ l ∈ literals ∧ ∀ x ∈ literals, x = l := by
  rw [eq_singleton_iff_of_nodup (of_nodup literals kind)]
  simp only [mem_of]
  constructor
  · exact fun h => ⟨(h l).2 rfl, fun x hx => (h x).1 hx⟩
  · rintro ⟨hl, hall⟩ x
    exact ⟨hall x, fun h => h ▸ hl⟩

/-- Two rules that count as one are of one sort and have the same literals. -/
theorem mem_iff_of_sameAs {a b : Rule α} (ha : a.literals.Nodup) (h : a.sameAs b = true) :
    a.isAtMostOne = b.isAtMostOne ∧ ∀ l, l ∈ a.literals ↔ l ∈ b.literals := by
  simp only [sameAs, Bool.and_eq_true, beq_iff_eq, List.all_eq_true] at h
  obtain ⟨⟨hk, hn⟩, hs⟩ := h
  have hsub : a.literals ⊆ b.literals := fun l hl => by simpa using hs l hl
  have hperm : a.literals.Perm b.literals :=
    (ha.subperm hsub).perm_of_length_le (Nat.le_of_eq hn.symm)
  exact ⟨hk, fun l => hperm.mem_iff⟩

/-- **Two rules that count as one hold together.** -/
theorem holds_eq_of_sameAs {a b : Rule α} (ha : a.literals.Nodup) (hb : b.literals.Nodup)
    (h : a.sameAs b = true) (val : α → Bool) : a.holds val = b.holds val := by
  obtain ⟨hk, hm⟩ := mem_iff_of_sameAs ha h
  rw [Bool.eq_iff_iff]
  cases hb' : b.isAtMostOne with
  | false => simp [holds_iff_exists (hk.trans hb'), holds_iff_exists hb', hm]
  | true => simp [holds_atMostOne_iff (hk.trans hb') ha, holds_atMostOne_iff hb' hb, hm]

/-- An ordinary rule of some literals holds when one of them does. -/
theorem holds_of {ls : List (Literal α)} {kind : RuleKind} (hk : kind ≠ .sameIdentifier)
    {val : α → Bool} : (of ls kind).holds val = true ↔ ∃ l ∈ ls, l.holds val = true := by
  rw [holds_iff_exists (by simp [hk])]
  simp only [mem_of]

/-- An assertion is its literal. -/
theorem holds_assertion {l : Literal α} {kind : RuleKind} (hk : kind ≠ .sameIdentifier)
    {val : α → Bool} : (assertion l kind).holds val = true ↔ l.holds val = true := by
  rw [assertion, holds_of hk]
  simp

/-- An implication asks for one of its targets where the source holds. -/
theorem holds_implication {source : Literal α} {targets : List (Literal α)} {kind : RuleKind}
    (hk : kind ≠ .sameIdentifier) {val : α → Bool} :
    (implication source targets kind).holds val = true ↔
      (source.holds val = true → ∃ l ∈ targets, l.holds val = true) := by
  rw [implication, holds_of hk]
  simp only [List.mem_cons, exists_eq_or_imp, Literal.holds_flip, Bool.not_eq_true']
  cases source.holds val <;> simp

/-- At most one of some literals is true. -/
theorem holds_atMostOne {ls : List (Literal α)} {val : α → Bool} :
    (atMostOne ls).holds val = true ↔
      ∀ a ∈ ls, ∀ b ∈ ls, a.holds val = true → b.holds val = true → a = b := by
  rw [atMostOne, holds_atMostOne_iff rfl (of_nodup _ _)]
  simp only [mem_of, List.mem_map, forall_exists_index, and_imp, forall_apply_eq_imp_iff₂]
  refine forall_congr' fun a => imp_congr_right fun _ => forall_congr' fun b =>
    imp_congr_right fun _ => ?_
  have hne : a.flip ≠ b.flip ↔ a ≠ b := not_congr ⟨Literal.flip_inj, fun h => by rw [h]⟩
  rw [hne, Literal.holds_flip, Literal.holds_flip]
  cases a.holds val <;> cases b.holds val <;> simp

end Equal

end Rule

namespace RuleSet

variable {α : Type}

/-- Rules are numbered in the order of the list. -/
theorem get?_eq (s : RuleSet α) (id : Nat) : s.get? id = s.toList[id]? := by
  simp [get?, toList]

/-- What has a number is a rule of the set. -/
theorem mem_of_get? {s : RuleSet α} {id : Nat} {r : Rule α} (h : s.get? id = some r) :
    r ∈ s.toList := by
  rw [get?_eq] at h
  exact List.mem_of_getElem? h

/-- Every rule of the set has a number. -/
theorem exists_get?_of_mem {s : RuleSet α} {r : Rule α} (h : r ∈ s.toList) :
    ∃ id, s.get? id = some r := by
  obtain ⟨id, hid⟩ := List.getElem?_of_mem h
  exact ⟨id, by rw [get?_eq, hid]⟩

/-- Numbers are below the size of the set. -/
theorem get?_lt_size {s : RuleSet α} {id : Nat} {r : Rule α} (h : s.get? id = some r) :
    id < s.size := by
  rw [get?] at h
  exact (Array.getElem?_eq_some_iff.1 h).1

/-- A valuation meets a rule set when it meets every rule. -/
theorem holds_iff (s : RuleSet α) (val : α → Bool) :
    s.holds val = true ↔ ∀ r ∈ s.toList, r.holds val = true := by
  simp [holds]

/-- The rule set with a rule at the end. -/
def push (s : RuleSet α) (r : Rule α) : RuleSet α := ⟨s.rules.push r⟩

/-- A new rule comes last. -/
@[simp] theorem toList_push (s : RuleSet α) (r : Rule α) : (s.push r).toList = s.toList ++ [r] := by
  simp [push, toList]

/-- A new rule has the size of the set as its number. -/
theorem get?_push (s : RuleSet α) (r : Rule α) (id : Nat) :
    (s.push r).get? id = if id = s.size then some r else s.get? id := by
  rw [get?, push, Array.getElem?_push]
  rfl

/-- All rules of the first set have the same numbers in the second. -/
def Grows (s s' : RuleSet α) : Prop := ∀ id r, s.get? id = some r → s'.get? id = some r

/-- A set keeps its own numbers. -/
theorem Grows.refl (s : RuleSet α) : s.Grows s := fun _ _ h => h

/-- Numbers that are kept twice are kept. -/
theorem Grows.trans {s s' s'' : RuleSet α} (h : s.Grows s') (h' : s'.Grows s'') : s.Grows s'' :=
  fun id r hr => h' id r (h id r hr)

/-- Where numbers are kept, so are the rules. -/
theorem Grows.mem {s s' : RuleSet α} (h : s.Grows s') {r : Rule α} (hr : r ∈ s.toList) :
    r ∈ s'.toList := by
  obtain ⟨id, hid⟩ := exists_get?_of_mem hr
  exact mem_of_get? (h id r hid)

/-- A new rule leaves the numbers of the others. -/
theorem grows_push (s : RuleSet α) (r : Rule α) : s.Grows (s.push r) := by
  intro id r' h
  rw [get?_push, if_neg (Nat.ne_of_lt (get?_lt_size h)), h]

variable [DecidableEq α]

/-- **A rule is added at the end, or there is one like it already.** -/
theorem add_cases (s : RuleSet α) (r : Rule α) :
    (∃ id r', s.get? id = some r' ∧ r.sameAs r' = true ∧ s.add r = (s, id)) ∨
      s.add r = (s.push r, s.size) := by
  unfold add
  split
  · rename_i id h
    obtain ⟨hlt, hr, -⟩ := Array.findIdx?_eq_some_iff_getElem.1 h
    exact Or.inl ⟨id, _, by rw [get?, Array.getElem?_eq_getElem hlt], hr, rfl⟩
  · exact Or.inr rfl

/-- Adding a rule asks for that rule beside those that were there. -/
theorem holds_add {s : RuleSet α} {r : Rule α} (hs : ∀ r ∈ s.toList, r.literals.Nodup)
    (hr : r.literals.Nodup) (val : α → Bool) :
    (s.add r).1.holds val = (s.holds val && r.holds val) := by
  rcases s.add_cases r with ⟨id, r', hid, hsame, hadd⟩ | hadd
  · have hmem := mem_of_get? hid
    rw [hadd, Rule.holds_eq_of_sameAs hr (hs r' hmem) hsame val]
    cases hv : s.holds val with
    | false => rfl
    | true => rw [(holds_iff s val).1 hv r' hmem]; rfl
  · rw [hadd]
    simp [holds]

/-- Rules of distinct literals stay so when one more is added. -/
theorem nodup_add {s : RuleSet α} {r : Rule α} (hs : ∀ r ∈ s.toList, r.literals.Nodup)
    (hr : r.literals.Nodup) : ∀ r' ∈ (s.add r).1.toList, r'.literals.Nodup := by
  intro r' h
  rcases s.add_cases r with ⟨_, _, _, _, hadd⟩ | hadd
  · rw [hadd] at h
    exact hs r' h
  · rw [hadd, toList_push, List.mem_append, List.mem_singleton] at h
    exact h.elim (hs r') fun e => e ▸ hr

/-- A rule of the set of a list stands in the list. -/
theorem mem_of_mem_ofList {rules : List (Rule α)} {r : Rule α} (h : r ∈ (ofList rules).toList) :
    r ∈ rules := by
  suffices ∀ (rules : List (Rule α)) (s : RuleSet α),
      r ∈ (rules.foldl (fun s r => (s.add r).1) s).toList → r ∈ s.toList ∨ r ∈ rules by
    simpa [empty, toList] using this rules empty h
  intro rules
  induction rules with
  | nil => exact fun _ h => Or.inl h
  | cons a rules ih =>
      intro s h
      rw [List.foldl_cons] at h
      rcases ih (s.add a).1 h with h | h
      · rcases s.add_cases a with ⟨_, _, _, _, hadd⟩ | hadd
        · exact Or.inl (by rwa [hadd] at h)
        · rw [hadd, toList_push, List.mem_append, List.mem_singleton] at h
          exact h.elim Or.inl fun e => Or.inr (e ▸ List.mem_cons_self ..)
      · exact Or.inr (List.mem_cons_of_mem _ h)

/-- **Of every rule of a list the set has one like it.** -/
theorem exists_like_of_mem {rules : List (Rule α)} (hr : ∀ r ∈ rules, r.literals.Nodup)
    {r : Rule α} (h : r ∈ rules) : ∃ r' ∈ (ofList rules).toList,
      r.isAtMostOne = r'.isAtMostOne ∧ ∀ l, l ∈ r.literals ↔ l ∈ r'.literals := by
  have hadd : ∀ (s : RuleSet α) (a : Rule α), a.literals.Nodup → s.toList ⊆ (s.add a).1.toList ∧
      ∃ r' ∈ (s.add a).1.toList,
        a.isAtMostOne = r'.isAtMostOne ∧ ∀ l, l ∈ a.literals ↔ l ∈ r'.literals := by
    intro s a ha
    rcases s.add_cases a with ⟨id, r', hid, hsame, heq⟩ | heq
    · rw [heq]
      exact ⟨List.Subset.refl _, r', mem_of_get? hid, Rule.mem_iff_of_sameAs ha hsame⟩
    · rw [heq, toList_push]
      exact ⟨List.subset_append_left .., a, by simp, rfl, fun _ => Iff.rfl⟩
  suffices ∀ (rules : List (Rule α)) (s : RuleSet α), (∀ r ∈ rules, r.literals.Nodup) →
      s.toList ⊆ (rules.foldl (fun s r => (s.add r).1) s).toList ∧ ∀ r ∈ rules,
        ∃ r' ∈ (rules.foldl (fun s r => (s.add r).1) s).toList,
          r.isAtMostOne = r'.isAtMostOne ∧ ∀ l, l ∈ r.literals ↔ l ∈ r'.literals from
    (this rules empty hr).2 r h
  intro rules
  induction rules with
  | nil => exact fun s _ => ⟨List.Subset.refl _, fun r h => absurd h List.not_mem_nil⟩
  | cons a rules ih =>
      intro s hr
      obtain ⟨ha, hr⟩ := List.forall_mem_cons.1 hr
      obtain ⟨hold, r', hr', hlike⟩ := hadd s a ha
      obtain ⟨hkept, hrest⟩ := ih (s.add a).1 hr
      exact ⟨List.Subset.trans hold hkept, List.forall_mem_cons.2 ⟨⟨r', hkept hr', hlike⟩, hrest⟩⟩

/-- **The set of a list of rules says what the list says**, although it leaves out
rules that it has already. -/
theorem holds_ofList {rules : List (Rule α)} (hr : ∀ r ∈ rules, r.literals.Nodup) (val : α → Bool) :
    (ofList rules).holds val = true ↔ ∀ r ∈ rules, r.holds val = true := by
  suffices ∀ (rules : List (Rule α)) (s : RuleSet α), (∀ r ∈ rules, r.literals.Nodup) →
      (∀ r ∈ s.toList, r.literals.Nodup) →
      ((rules.foldl (fun s r => (s.add r).1) s).holds val = true ↔
        s.holds val = true ∧ ∀ r ∈ rules, r.holds val = true) by
    rw [ofList, this rules empty hr (by simp [empty, toList])]
    simp [empty, holds, toList]
  intro rules
  induction rules with
  | nil => simp
  | cons a rules ih =>
      intro s hr hs
      have ha := hr a (List.mem_cons_self ..)
      rw [List.foldl_cons, ih _ (fun r h => hr r (List.mem_cons_of_mem _ h)) (nodup_add hs ha),
        holds_add hs ha]
      simp [and_assoc]

end RuleSet
end Loadout
