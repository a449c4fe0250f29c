/-
# Cutting texts

A list is written with marks between its members.  Where no member holds a mark, cutting at the
marks gives the members back, so what reads the members one by one reads the list
(`Text.mapM_splitOn_eq_some_iff`).

Alternatives are written with ` || ` between them and are read without the blanks around them.  The
blanks keep a bar at the end of one and at the start of the next from the bars between them, so
each is cut as it is by itself (`Text.map_trim_splitAlternatives_intercalate`).  No piece that
`splitAlternatives` cuts out holds two bars in a row (`Text.noBars_of_mem_split`), and alternatives
that hold none are given back (`Text.map_trim_splitAlternatives`).

It makes no difference whether the blanks around bars are left out with them or with the blanks at
the ends of the pieces (`Text.map_trim_splitSeparators`).
-/

import Loadout.Text.Blank
import Mathlib.Data.List.DropRight
import Mathlib.Data.List.Forall2
import Mathlib.Data.List.TakeDrop

namespace Loadout
namespace Text

/-! ### Members between marks -/

/-- Members of related lists are related. -/
theorem exists_of_forall₂ {α β : Type} {R : α → β → Prop} {xs : List α} {ys : List β}
    (h : List.Forall₂ R xs ys) {x : α} (hx : x ∈ xs) : ∃ y, R x y := by
  obtain ⟨i, hi, rfl⟩ := List.getElem_of_mem hx
  exact ⟨_, h.get hi (h.length_eq ▸ hi)⟩

/-- Reading every member of a list relates it to what is read. -/
theorem mapM_eq_some_iff {α β : Type} {f : α → Option β} {xs : List α} {ys : List β} :
    xs.mapM f = some ys ↔ List.Forall₂ (fun x y => f x = some y) xs ys := by
  induction xs generalizing ys with
  | nil => cases ys <;> simp
  | cons x xs ih =>
    cases ys with
    | nil => simp [List.mapM_cons, Option.bind_eq_some_iff]
    | cons y ys => simp [List.mapM_cons, Option.bind_eq_some_iff, ih]

/-- The same where reading fails with an error. -/
theorem mapM_eq_ok_iff {α β ε : Type} {f : α → Except ε β} {xs : List α} {ys : List β} :
    xs.mapM f = .ok ys ↔ List.Forall₂ (fun x y => f x = .ok y) xs ys := by
  induction xs generalizing ys with
  | nil => cases ys <;> simp [pure, Except.pure]
  | cons x xs ih =>
    rw [List.mapM_cons]
    cases hx : f x with
    | error e => cases ys <;> simp [bind, Except.bind, hx]
    | ok y =>
      cases hxs : xs.mapM f with
      | error e => cases ys <;> simp [bind, Except.bind, ← ih, hx, hxs]
      | ok zs => cases ys <;> simp [bind, Except.bind, pure, Except.pure, ← ih, hx, hxs]

/-- Lists that are read one after another are read as one list. -/
theorem mapM_flatMap {α β γ ε : Type} (f : β → Except ε γ) (g : α → List β) (xs : List α) :
    (xs.flatMap g).mapM f = (xs.mapM fun x => (g x).mapM f).map List.flatten := by
  induction xs with
  | nil => rfl
  | cons x xs ih =>
    rw [List.flatMap_cons, List.mapM_append, List.mapM_cons, ih]
    cases (g x).mapM f with
    | error e => rfl
    | ok ys => cases xs.mapM fun x => (g x).mapM f <;> rfl

/-- **Members that are read one by one** are those of a list with marks between them, where no
member that can be read holds a mark. -/
theorem mapM_splitOn_eq_some_iff {β : Type} {f : List Char → Option β} {mark : Char}
    (hf : ∀ part y, f part = some y → mark ∉ part) {s : List Char} {ys : List β} :
    (s.splitOn mark).mapM f = some ys ↔
      ∃ parts, List.Forall₂ (fun part y => f part = some y) parts ys ∧ parts ≠ [] ∧
        s = [mark].intercalate parts := by
  rw [mapM_eq_some_iff]
  constructor
  · intro h
    exact ⟨_, h, List.splitOn_ne_nil mark s, (List.intercalate_splitOn mark).symm⟩
  · rintro ⟨parts, h, hne, rfl⟩
    rwa [List.splitOn_intercalate mark _ hne]
    intro part hpart
    obtain ⟨y, hy⟩ := exists_of_forall₂ h hpart
    exact hf part y hy

/-- What is in a list with marks between its members is in a member or in a mark. -/
theorem mem_intercalate {mark : List Char} {c : Char} : ∀ {parts : List (List Char)},
    c ∈ mark.intercalate parts → c ∈ mark ∨ ∃ part ∈ parts, c ∈ part
  | [], h => absurd h (by simp)
  | [part], h => Or.inr ⟨part, List.mem_cons_self .., by rwa [List.intercalate_singleton] at h⟩
  | part :: next :: rest, h => by
      rw [List.intercalate_cons_cons, List.append_assoc, List.mem_append, List.mem_append] at h
      rcases h with hpart | hmark | hrest
      · exact Or.inr ⟨part, List.mem_cons_self .., hpart⟩
      · exact Or.inl hmark
      · exact (mem_intercalate hrest).imp_right fun ⟨other, hother, hc⟩ =>
          ⟨other, List.mem_cons_of_mem _ hother, hc⟩

/-- A text is cut where its first part ends, if what follows is not of the kind of that part. -/
theorem span_append {p : Char → Bool} {s t : List Char} (hs : ∀ c ∈ s, p c = true)
    (ht : ∀ c, t.head? = some c → p c = false) : (s ++ t).span p = (s, t) := by
  rw [List.span_eq_takeWhile_dropWhile, List.takeWhile_append_of_pos hs,
    List.dropWhile_append_of_pos hs]
  cases t with
  | nil => simp
  | cons c t => simp [ht c rfl]

/-! ### Blanks at the ends -/

/-- A blank at the beginning is trimmed. -/
theorem trim_cons {c : Char} (h : isBlank c = true) (s : List Char) : trim (c :: s) = trim s := by
  rw [trim, trim, List.dropWhile_cons_of_pos h]

/-- A blank at the end is trimmed. -/
theorem trim_concat {c : Char} (h : isBlank c = true) (s : List Char) :
    trim (s ++ [c]) = trim s := by
  rw [trim, trim, List.dropWhile_append]
  split
  · rename_i hall
    rw [List.isEmpty_iff.1 hall, List.dropWhile_cons_of_pos h]
    rfl
  · rw [List.reverse_append, List.reverse_singleton, List.singleton_append,
      List.dropWhile_cons_of_pos h]

/-- Trimming twice is trimming. -/
theorem trim_trim (s : List Char) : trim (trim s) = trim s := by
  have hhead : (trim s).dropWhile isBlank = trim s := by
    cases h : trim s with
    | nil => rfl
    | cons c t => exact List.dropWhile_cons_of_neg (by simp [isBlank_head_trim (congrArg List.head? h)])
  conv_lhs => rw [trim, hhead]
  rw [trim, List.reverse_reverse, List.dropWhile_idempotent]

/-- A text without blanks is trimmed already. -/
theorem trim_eq_self {s : List Char} (h : ∀ c ∈ s, isBlank c = false) : trim s = s := by
  have hdrop : ∀ t : List Char, (∀ c ∈ t, isBlank c = false) → t.dropWhile isBlank = t := by
    intro t ht
    cases t with
    | nil => rfl
    | cons c t => exact List.dropWhile_cons_of_neg (by simp [ht c (List.mem_cons_self ..)])
  rw [trim, hdrop s h, hdrop _ fun c hc => h c (List.mem_reverse.1 hc), List.reverse_reverse]

/-- What is left after trimming is a part of the text. -/
theorem isInfix_trim (s : List Char) : trim s <:+: s := by
  have hright : trim s <+: s.dropWhile isBlank := by
    have := List.dropWhile_suffix isBlank (l := (s.dropWhile isBlank).reverse)
    simpa [trim] using List.reverse_prefix.2 this
  exact hright.isInfix.trans (List.dropWhile_suffix _).isInfix

/-! ### Alternatives between bars -/

/-- Whether a text has no two bars in a row. -/
def NoBars (s : List Char) : Prop := ¬ ['|', '|'] <:+: s

/-- A part of a text without double bars has none. -/
theorem NoBars.of_isInfix {s t : List Char} (ht : NoBars t) (h : s <:+: t) : NoBars s :=
  fun hs => ht (hs.trans h)

/-- Without bars there are no double bars. -/
theorem noBars_of_not_mem {s : List Char} (h : '|' ∉ s) : NoBars s :=
  fun hs => h (hs.subset (List.mem_cons_self ..))

/-- Double bars are at the beginning or further on. -/
theorem noBars_cons_iff {c : Char} {s : List Char} :
    NoBars (c :: s) ↔ ¬ (c = '|' ∧ s.head? = some '|') ∧ NoBars s := by
  rw [NoBars, NoBars, List.infix_cons_iff, not_or]
  refine and_congr_left fun _ => not_congr ?_
  cases s <;> simp [eq_comm]

/-- A character in front of a text goes to its first piece, unless it makes two bars with it. -/
theorem splitAlternatives_cons {c : Char} {s : List Char} (h : ¬ (c = '|' ∧ s.head? = some '|')) :
    splitAlternatives (c :: s) = (splitAlternatives s).modifyHead (c :: ·) := by
  rw [splitAlternatives.eq_3]
  · cases hs : splitAlternatives s with
    | nil => exact absurd hs (splitAlternatives_ne_nil s)
    | cons first others => rfl
  · rintro rest rfl rfl
    exact h ⟨rfl, rfl⟩

/-- Without double bars there is one alternative. -/
theorem splitAlternatives_of_noBars {s : List Char} (h : NoBars s) : splitAlternatives s = [s] := by
  induction s with
  | nil => rfl
  | cons c s ih =>
    obtain ⟨hc, hs⟩ := noBars_cons_iff.1 h
    rw [splitAlternatives_cons hc, ih hs]
    rfl

/-- **What follows a text is cut by itself**, unless it starts with a bar; only its first piece goes to
the last piece of the text. -/
theorem exists_splitAlternatives_append (s : List Char) : ∃ pieces last,
    splitAlternatives s = pieces ++ [last] ∧ ∀ t : List Char, t.head? ≠ some '|' →
      splitAlternatives (s ++ t) = pieces ++ (splitAlternatives t).modifyHead (last ++ ·) := by
  fun_induction splitAlternatives s with
  | case1 =>
    refine ⟨[], [], rfl, fun t _ => ?_⟩
    cases ht : splitAlternatives t with
    | nil => exact absurd ht (splitAlternatives_ne_nil t)
    | cons first others => simp [ht]
  | case2 rest ih =>
    obtain ⟨pieces, last, hrest, happend⟩ := ih
    refine ⟨[] :: pieces, last, by rw [hrest, List.cons_append], fun t ht => ?_⟩
    change [] :: splitAlternatives (rest ++ t) = _
    rw [happend t ht]
    rfl
  | case3 c rest _ hrest ih => exact absurd hrest (splitAlternatives_ne_nil rest)
  | case4 c rest hc first others hrest ih =>
    obtain ⟨pieces, last, hpieces, happend⟩ := ih
    have hcons : ∀ t : List Char, t.head? ≠ some '|' →
        splitAlternatives (c :: rest ++ t) = (splitAlternatives (rest ++ t)).modifyHead (c :: ·) := by
      intro t ht
      refine splitAlternatives_cons ?_
      rintro ⟨rfl, hbar⟩
      cases rest with
      | nil => exact ht hbar
      | cons d rest => exact hc rest rfl (congrArg (· :: rest) (Option.some.inj hbar))
    rw [hpieces] at hrest
    cases pieces with
    | nil =>
      obtain ⟨rfl, rfl⟩ := List.cons.inj hrest
      refine ⟨[], c :: last, rfl, fun t ht => ?_⟩
      rw [hcons t ht, happend t ht, List.nil_append, List.nil_append, List.modifyHead_modifyHead]
      rfl
    | cons piece pieces =>
      obtain ⟨rfl, rfl⟩ := List.cons.inj hrest
      refine ⟨(c :: piece) :: pieces, last, rfl, fun t ht => ?_⟩
      rw [hcons t ht, happend t ht]
      rfl

/-- Bars after a blank are cut at, whatever comes before and after. -/
theorem map_trim_splitAlternatives_append (s rest : List Char) :
    (splitAlternatives (s ++ ' ' :: '|' :: '|' :: rest)).map trim =
      (splitAlternatives s).map trim ++ (splitAlternatives rest).map trim := by
  obtain ⟨pieces, last, hs, happend⟩ := exists_splitAlternatives_append s
  rw [happend _ (by simp), splitAlternatives_cons (by simp), hs]
  change (pieces ++ (last ++ [' ']) :: splitAlternatives rest).map trim = _
  rw [List.map_append, List.map_append, List.map_cons, trim_concat (by decide), List.append_assoc]
  rfl

/-- A blank in front of a text changes nothing once its pieces are trimmed. -/
theorem map_trim_splitAlternatives_cons {c : Char} (h : isBlank c = true) (s : List Char) :
    (splitAlternatives (c :: s)).map trim = (splitAlternatives s).map trim := by
  rw [splitAlternatives_cons]
  · cases splitAlternatives s with
    | nil => rfl
    | cons first others => rw [List.modifyHead_cons, List.map_cons, List.map_cons, trim_cons h]
  · rintro ⟨rfl, -⟩
    exact absurd h (by decide)

/-- The first piece starts as the text does, or is empty. -/
theorem head?_of_splitAlternatives {s first : List Char} {others : List (List Char)}
    (h : splitAlternatives s = first :: others) {c : Char} (hc : first.head? = some c) :
    s.head? = some c := by
  revert h
  fun_cases splitAlternatives s with
  | case1 => rintro ⟨⟩; exact hc
  | case2 rest => rintro ⟨⟩; cases hc
  | case3 d rest _ _ => rintro ⟨⟩; exact hc
  | case4 d rest _ first others hrest => rintro ⟨⟩; exact hc

/-- **No piece has two bars in a row.** -/
theorem noBars_of_mem_split {s : List Char} : ∀ part ∈ splitAlternatives s, NoBars part := by
  have hnil : NoBars [] := noBars_of_not_mem List.not_mem_nil
  fun_induction splitAlternatives s with
  | case1 => simpa using hnil
  | case2 rest ih => exact List.forall_mem_cons.2 ⟨hnil, ih⟩
  | case3 c rest _ hrest ih => exact absurd hrest (splitAlternatives_ne_nil rest)
  | case4 c rest hc first others hrest ih =>
    obtain ⟨hfirst, hothers⟩ := List.forall_mem_cons.1 (hrest ▸ ih)
    refine List.forall_mem_cons.2 ⟨noBars_cons_iff.2 ⟨?_, hfirst⟩, hothers⟩
    rintro ⟨rfl, hbar⟩
    -- then the text starts with two bars, and would have been cut there
    obtain ⟨rest, rfl⟩ := List.head?_eq_some_iff.1 (head?_of_splitAlternatives hrest hbar)
    exact hc rest rfl rfl

/-- **Alternatives are cut one by one**, also those with bars of their own. -/
theorem map_trim_splitAlternatives_intercalate : ∀ {parts : List (List Char)}, parts ≠ [] →
    (splitAlternatives ([' ', '|', '|', ' '].intercalate parts)).map trim =
      parts.flatMap fun part => (splitAlternatives part).map trim
  | [part], _ => by rw [List.intercalate_singleton, List.flatMap_singleton]
  | part :: next :: rest, _ => by
      have hmore : [' ', '|', '|', ' '].intercalate (part :: next :: rest) = part ++ ' ' :: '|' :: '|' ::
          (' ' :: [' ', '|', '|', ' '].intercalate (next :: rest)) := by
        rw [List.intercalate_cons_cons, List.append_assoc]
        rfl
      rw [List.flatMap_cons, ← map_trim_splitAlternatives_intercalate (List.cons_ne_nil next rest),
        hmore, map_trim_splitAlternatives_append, map_trim_splitAlternatives_cons (by decide)]

/-- **Alternatives are read back**, if none of them has two bars in a row. -/
theorem map_trim_splitAlternatives {parts : List (List Char)} (hne : parts ≠ [])
    (h : ∀ part ∈ parts, NoBars part) :
    (splitAlternatives ([' ', '|', '|', ' '].intercalate parts)).map trim = parts.map trim := by
  rw [map_trim_splitAlternatives_intercalate hne, ← List.flatMap_pure_eq_map]
  refine List.flatMap_congr fun part hpart => ?_
  rw [splitAlternatives_of_noBars (h part hpart)]
  rfl

/-! ### Separators with the blanks around them -/

/-- Blanks at the end are trimmed, however many. -/
theorem trim_append_blanks {blanks : List Char} (h : ∀ c ∈ blanks, isBlank c = true) (s : List Char) :
    trim (s ++ blanks) = trim s := by
  induction blanks generalizing s with
  | nil => rw [List.append_nil]
  | cons c blanks ih =>
    obtain ⟨hc, hblanks⟩ := List.forall_mem_cons.1 h
    rw [List.append_cons, ih hblanks, trim_concat hc]

/-- Blanks in front of a text change nothing once its pieces are trimmed. -/
theorem map_trim_splitAlternatives_dropWhile (s : List Char) :
    (splitAlternatives (s.dropWhile isBlank)).map trim = (splitAlternatives s).map trim := by
  induction s with
  | nil => rfl
  | cons c s ih =>
    by_cases h : isBlank c = true
    · rw [List.dropWhile_cons_of_pos h, ih, map_trim_splitAlternatives_cons h]
    · rw [List.dropWhile_cons_of_neg h]

/-- Nor do blanks at either end. -/
theorem map_trim_splitAlternatives_trim (s : List Char) :
    (splitAlternatives (trim s)).map trim = (splitAlternatives s).map trim := by
  have hend : ∀ blanks : List Char, (∀ c ∈ blanks, isBlank c = true) → ∀ s : List Char,
      (splitAlternatives (s ++ blanks)).map trim = (splitAlternatives s).map trim := by
    intro blanks hblanks s
    obtain ⟨pieces, last, hs, happend⟩ := exists_splitAlternatives_append s
    have hbar : ∀ t : List Char, (∀ c ∈ t, isBlank c = true) → '|' ∉ t := fun t ht hin =>
      absurd (ht _ hin) (by decide)
    rw [happend blanks fun hhead => hbar blanks hblanks (List.mem_of_head? hhead), hs,
      splitAlternatives_of_noBars (noBars_of_not_mem (hbar blanks hblanks))]
    simp [trim_append_blanks hblanks]
  have hdrop : trim s ++ (s.dropWhile isBlank).rtakeWhile isBlank = s.dropWhile isBlank :=
    List.rdropWhile_append_rtakeWhile
  rw [← map_trim_splitAlternatives_dropWhile s, ← hdrop]
  exact (hend _ (fun c hc => List.mem_rtakeWhile_imp hc) _).symm

/-- Blanks before the bars make a piece of their own. -/
theorem splitAlternatives_blanks_append {blanks : List Char} (h : ∀ c ∈ blanks, isBlank c = true)
    (rest : List Char) :
    splitAlternatives (blanks ++ '|' :: '|' :: rest) = blanks :: splitAlternatives rest := by
  induction blanks with
  | nil => rfl
  | cons c blanks ih =>
    obtain ⟨hc, hblanks⟩ := List.forall_mem_cons.1 h
    rw [List.cons_append, splitAlternatives_cons, ih hblanks, List.modifyHead_cons]
    rintro ⟨rfl, -⟩
    exact absurd hc (by decide)

/-- `s` cut at its separators, from the left: two bars, with all blanks before and after them. -/
def splitSeparators (s : List Char) : List (List Char) :=
  match _hbars : s.dropWhile isBlank with
  | '|' :: '|' :: rest => [] :: splitSeparators (rest.dropWhile isBlank)
  | _ =>
    match s with
    | [] => [[]]
    | c :: rest => (splitSeparators rest).modifyHead (c :: ·)
termination_by s.length
decreasing_by
  · have hrest := (List.dropWhile_suffix isBlank (l := rest)).length_le
    have hs := (List.dropWhile_suffix isBlank (l := s)).length_le
    rw [_hbars] at hs
    simp only [List.length_cons] at hs
    omega
  · simp

/-- **Separators with their blanks cut where bars do**, but for blanks at the end of the first
piece. -/
theorem splitSeparators_spec (s : List Char) : ∃ piece blanks pieces pieces',
    splitSeparators s = piece :: pieces ∧ splitAlternatives s = (piece ++ blanks) :: pieces' ∧
      (∀ c ∈ blanks, isBlank c = true) ∧ pieces.map trim = pieces'.map trim := by
  fun_induction splitSeparators s with
  | case1 s rest h ih =>
    obtain ⟨piece, blanks, pieces, pieces', hcut, hbars, hblanks, hpieces⟩ := ih
    have hs : s = s.takeWhile isBlank ++ '|' :: '|' :: rest := by
      rw [← h, List.takeWhile_append_dropWhile]
    refine ⟨[], s.takeWhile isBlank, _, splitAlternatives rest, rfl, ?_,
      fun c hc => List.mem_takeWhile_imp hc, ?_⟩
    · conv_lhs => rw [hs]
      exact splitAlternatives_blanks_append (fun c hc => List.mem_takeWhile_imp hc) rest
    · rw [← map_trim_splitAlternatives_dropWhile rest, hcut, hbars, List.map_cons, List.map_cons,
        trim_append_blanks hblanks, hpieces]
  | case2 => exact ⟨[], [], [], [], rfl, rfl, List.forall_mem_nil _, rfl⟩
  | case3 c rest h ih =>
    obtain ⟨piece, blanks, pieces, pieces', hcut, hbars, hblanks, hpieces⟩ := ih
    refine ⟨c :: piece, blanks, pieces, pieces', by rw [hcut]; rfl, ?_, hblanks, hpieces⟩
    rw [splitAlternatives_cons, hbars]
    · rfl
    · -- two bars at the start would have been cut at
      rintro ⟨rfl, hbar⟩
      obtain ⟨tail, rfl⟩ := List.head?_eq_some_iff.1 hbar
      exact h tail rfl

/-- **So both give the same pieces**, without the blanks at their ends. -/
theorem map_trim_splitSeparators (s : List Char) :
    (splitSeparators (trim s)).map trim = (splitAlternatives s).map trim := by
  obtain ⟨piece, blanks, pieces, pieces', hcut, hbars, hblanks, hpieces⟩ := splitSeparators_spec (trim s)
  rw [← map_trim_splitAlternatives_trim s, hcut, hbars, List.map_cons, List.map_cons,
    trim_append_blanks hblanks, hpieces]

end Text
end Loadout
