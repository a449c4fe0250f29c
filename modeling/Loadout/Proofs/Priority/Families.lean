/-
# Families of names

Names are joined pair by pair.  Each may be put under another one, and the way up from a name ends
at the one that stands for its family (`Priority.LeadsTo`).  Since nothing is ever put under a
larger name, the way up has an end, and as much fuel as there are entries suffices to get there
(`Priority.Descending.climb_eq_representative`).  Putting a name directly under the end of its way
changes no end (`Priority.LeadsTo.cons_direct`), and putting one end under another one takes along
just the names whose way ended there (`Priority.LeadsTo.cons_link`).

So in the end two names are kin just where a chain of pairs leads from one to the other
(`Priority.areKin_families_iff`).
-/

import Loadout.Priority.Rank
import Mathlib.Data.String.Basic
import Mathlib.Logic.Relation

namespace Loadout
namespace Priority

variable {fs : Families} {a b top : String}

/-! ### The way up -/

/-- A name that is not put under another one. -/
def Topmost (fs : Families) (name : String) : Prop :=
  ∀ above, fs.lookup name = some above → above = name

/-- **Where the way up from a name ends.** -/
inductive LeadsTo (fs : Families) : String → String → Prop
  | here {name : String} (h : Topmost fs name) : LeadsTo fs name name
  | up {name above top : String} (h : fs.lookup name = some above) (hne : above ≠ name)
      (hon : LeadsTo fs above top) : LeadsTo fs name top

namespace LeadsTo

/-- Links end at a name without a link. -/
theorem topmost (h : LeadsTo fs a top) : Topmost fs top := by
  induction h with
  | here h => exact h
  | up _ _ _ ih => exact ih

/-- Links end at one name only. -/
theorem unique {top' : String} (h : LeadsTo fs a top) (h' : LeadsTo fs a top') : top = top' := by
  induction h with
  | here htop =>
      cases h' with
      | here _ => rfl
      | up hlookup hne _ => exact absurd (htop _ hlookup) hne
  | up hlookup hne _ ih =>
      cases h' with
      | here htop => exact absurd (htop _ hlookup) hne
      | up hlookup' _ hon' =>
          obtain rfl := Option.some.inj (hlookup.symm.trans hlookup')
          exact ih hon'

end LeadsTo

/-- **Nothing is put under a larger name.** -/
def Descending (fs : Families) : Prop := ∀ p ∈ fs, p.2 ≤ p.1

/-- A link to a lesser name keeps all links descending. -/
theorem Descending.cons (h : Descending fs) (hle : b ≤ a) : Descending ((a, b) :: fs) :=
  List.forall_mem_cons.2 ⟨hle, h⟩

/-- A link that is found is one of the list. -/
theorem mem_of_lookup_eq_some (h : fs.lookup a = some b) : (a, b) ∈ fs := by
  obtain ⟨before, after, rfl, -⟩ := List.lookup_eq_some_iff.1 h
  simp

/-- Links that are followed lead down. -/
theorem Descending.lookup_le (h : Descending fs) (hlookup : fs.lookup a = some b) : b ≤ a :=
  h _ (mem_of_lookup_eq_some hlookup)

/-- A way along links ends at or below its start. -/
theorem LeadsTo.le (hfs : Descending fs) (h : LeadsTo fs a top) : top ≤ a := by
  induction h with
  | here _ => exact le_rfl
  | up hlookup _ _ ih => exact ih.trans (hfs.lookup_le hlookup)

/-- How many entries stand at names that are not larger. -/
def entriesUpTo (fs : Families) (name : String) : Nat := fs.countP fun p => p.1 ≤ name

/-- A way has fewer names ahead of it after each link. -/
theorem entriesUpTo_lt (h : (a, b) ∈ fs) (hlt : b < a) : entriesUpTo fs b < entriesUpTo fs a := by
  have hsub : fs.filter (fun p => p.1 ≤ b) = (fs.filter fun p => p.1 ≤ a).filter fun p => p.1 ≤ b := by
    rw [List.filter_filter]
    refine List.filter_congr fun p _ => ?_
    rw [Bool.eq_iff_iff, Bool.and_eq_true, decide_eq_true_iff, decide_eq_true_iff]
    exact (and_iff_left_of_imp fun hp => hp.trans hlt.le).symm
  rw [entriesUpTo, entriesUpTo, List.countP_eq_length_filter, List.countP_eq_length_filter, hsub]
  refine List.length_filter_lt_length_iff_exists.2 ⟨(a, b), List.mem_filter.2 ⟨h, ?_⟩, ?_⟩
  · exact decide_eq_true le_rfl
  · exact fun hle => not_le.2 hlt (of_decide_eq_true hle)

/-- **The way up ends** after as many steps as there are entries at names that are not larger. -/
theorem Descending.leadsTo_climb (hfs : Descending fs) (fuel : Nat) (name : String)
    (h : entriesUpTo fs name ≤ fuel) : LeadsTo fs name (climb fs fuel name) := by
  induction fuel generalizing name with
  | zero =>
      refine .here fun above hlookup => ?_
      have hnone := List.countP_eq_zero.1 (Nat.le_zero.1 h) _ (mem_of_lookup_eq_some hlookup)
      exact absurd (decide_eq_true le_rfl) hnone
  | succ fuel ih =>
      rw [climb]
      cases hlookup : fs.lookup name with
      | none => exact .here fun above hsome => absurd (hlookup.symm.trans hsome) (by simp)
      | some above =>
          dsimp only
          by_cases hsame : above = name
          · rw [if_pos hsame]
            refine .here fun above' hsome => ?_
            rw [← Option.some.inj (hlookup.symm.trans hsome), hsame]
          · have hlt := entriesUpTo_lt (mem_of_lookup_eq_some hlookup)
              (lt_of_le_of_ne (hfs.lookup_le hlookup) hsame)
            rw [if_neg hsame]
            exact .up hlookup hsame (ih above (Nat.le_of_lt_succ (hlt.trans_le h)))

/-- **The representative is where the links lead.** -/
theorem Descending.leadsTo_representative (hfs : Descending fs) (name : String) :
    LeadsTo fs name (representative fs name) :=
  hfs.leadsTo_climb _ name List.countP_le_length

/-- **More fuel leads no further.** -/
theorem Descending.climb_eq_representative (hfs : Descending fs) {fuel : Nat}
    (h : fs.length ≤ fuel) (name : String) : climb fs fuel name = representative fs name :=
  (hfs.leadsTo_climb fuel name (List.countP_le_length.trans h)).unique
    (hfs.leadsTo_representative name)

/-- Where links lead is the representative. -/
theorem LeadsTo.representative_eq (hfs : Descending fs) (h : LeadsTo fs a top) :
    representative fs a = top :=
  (hfs.leadsTo_representative a).unique h

/-- The representative is no greater than the name. -/
theorem Descending.representative_le (hfs : Descending fs) (name : String) :
    representative fs name ≤ name :=
  (hfs.leadsTo_representative name).le hfs

/-- A representative represents itself. -/
theorem Descending.representative_representative (hfs : Descending fs) (name : String) :
    representative fs (representative fs name) = representative fs name :=
  LeadsTo.representative_eq hfs (.here (hfs.leadsTo_representative name).topmost)

/-! ### One entry more -/

/-- A new link is not found under other names. -/
theorem lookup_cons_of_ne {name : String} (h : name ≠ a) :
    List.lookup name ((a, b) :: fs) = fs.lookup name := by
  rw [List.lookup_cons, beq_false_of_ne h]

/-- A name without a link keeps none when another one gets a link. -/
theorem Topmost.cons (h : Topmost fs top) (hne : top ≠ a) : Topmost ((a, b) :: fs) top :=
  fun above hlookup => h above (lookup_cons_of_ne hne ▸ hlookup)

/-- **A name that is put directly under the end of its way** changes no end. -/
theorem LeadsTo.cons_direct {name final : String} (hname : LeadsTo fs name final) (h : LeadsTo fs a top) :
    LeadsTo ((name, final) :: fs) a top := by
  have hend : Topmost ((name, final) :: fs) final := by
    intro above hlookup
    by_cases hsame : final = name
    · subst hsame
      exact (Option.some.inj (List.lookup_cons_self.symm.trans hlookup)).symm
    · exact hname.topmost.cons hsame above hlookup
  induction h with
  | @here top htop =>
      by_cases hsame : top = name
      · obtain rfl := (LeadsTo.here htop).unique (hsame ▸ hname)
        exact .here hend
      · exact .here (htop.cons hsame)
  | @up a above top hlookup hne hon ih =>
      by_cases hsame : a = name
      · subst hsame
        obtain rfl := (LeadsTo.up hlookup hne hon).unique hname
        refine .up List.lookup_cons_self (fun heq => ?_) (.here hend)
        exact hne (hname.topmost above (heq ▸ hlookup) |>.trans heq)
      · exact .up ((lookup_cons_of_ne hsame).trans hlookup) hne ih

/-- **An end that is put under another one** takes along just the names whose way ended there. -/
theorem LeadsTo.cons_link {upper lower : String} (hlower : Topmost fs lower) (hupper : Topmost fs upper)
    (hne : upper ≠ lower) (h : LeadsTo fs a top) :
    LeadsTo ((lower, upper) :: fs) a (if top = lower then upper else top) := by
  induction h with
  | @here top htop =>
      by_cases hsame : top = lower
      · rw [if_pos hsame, hsame]
        exact .up List.lookup_cons_self hne (.here (hupper.cons hne))
      · rw [if_neg hsame]
        exact .here (htop.cons hsame)
  | @up a above top hlookup hne' hon ih =>
      have hsame : a ≠ lower := fun heq => hne' (heq ▸ hlower above (heq ▸ hlookup))
      exact .up ((lookup_cons_of_ne hsame).trans hlookup) hne' ih

/-! ### One pair -/

/-- A link from a name straight to its representative changes no representative. -/
theorem Descending.representative_direct (hfs : Descending fs) (name x : String) :
    representative ((name, representative fs name) :: fs) x = representative fs x :=
  ((hfs.leadsTo_representative name).cons_direct (hfs.leadsTo_representative x)).representative_eq
    (hfs.cons (hfs.representative_le name))

/-- A link between two representatives joins their families under the lesser one. -/
theorem Descending.representative_link (hfs : Descending fs) {upper lower : String}
    (hupper : representative fs upper = upper) (hlower : representative fs lower = lower)
    (hlt : upper < lower) (x : String) :
    representative ((lower, upper) :: fs) x =
      if representative fs x = lower then upper else representative fs x := by
  have htop : ∀ {name}, representative fs name = name → Topmost fs name := fun {name} h =>
    h ▸ (hfs.leadsTo_representative name).topmost
  exact ((hfs.leadsTo_representative x).cons_link (htop hlower) (htop hupper) hlt.ne).representative_eq
    (hfs.cons hlt.le)

/-- **Joining two families** puts both under the lesser of their representatives and leaves the
others alone. -/
theorem Descending.joinFamilies (hfs : Descending fs) (pair : String × String) :
    Descending (Priority.joinFamilies fs pair) ∧
    ∀ x, representative (Priority.joinFamilies fs pair) x =
      if representative fs x = representative fs pair.1 ∨ representative fs x = representative fs pair.2
      then min (representative fs pair.1) (representative fs pair.2) else representative fs x := by
  have hfirst : Descending ((pair.1, representative fs pair.1) :: fs) :=
    hfs.cons (hfs.representative_le pair.1)
  have hsame : ∀ x, representative ((pair.1, representative fs pair.1) :: fs) x =
      representative fs x := hfs.representative_direct pair.1
  have hsecond := hfirst.cons (hfirst.representative_le pair.2)
  have hsame' := hfirst.representative_direct pair.2
  simp only [hsame] at hsecond hsame'
  have htop : ∀ name, representative ((pair.2, representative fs pair.2) ::
      (pair.1, representative fs pair.1) :: fs) (representative fs name) = representative fs name :=
    fun name => (hsame' _).trans (hfs.representative_representative name)
  simp only [Priority.joinFamilies, hsame]
  rcases lt_trichotomy (representative fs pair.1) (representative fs pair.2) with hlt | heq | hgt
  · rw [if_neg hlt.ne, if_pos hlt]
    refine ⟨hsecond.cons hlt.le, fun x => ?_⟩
    rw [hsecond.representative_link (htop _) (htop _) hlt, hsame', min_eq_left hlt.le]
    grind
  · rw [if_pos heq]
    refine ⟨hsecond, fun x => ?_⟩
    rw [hsame', heq, min_self]
    split <;> simp_all
  · rw [if_neg hgt.ne', if_neg hgt.not_gt]
    refine ⟨hsecond.cons hgt.le, fun x => ?_⟩
    rw [hsecond.representative_link (htop _) (htop _) hgt, hsame', min_eq_right hgt.le]
    grind

/-! ### Kin -/

/-- Kin are the names with one representative. -/
theorem areKin_iff : areKin fs a b = true ↔ representative fs a = representative fs b := beq_iff_eq

/-- **One pair** makes all kin of one name kin of those of the other one. -/
theorem Descending.areKin_joinFamilies_iff (hfs : Descending fs) {pair : String × String} :
    areKin (Priority.joinFamilies fs pair) a b = true ↔ areKin fs a b = true ∨
      ((areKin fs a pair.1 = true ∨ areKin fs a pair.2 = true) ∧
        (areKin fs b pair.1 = true ∨ areKin fs b pair.2 = true)) := by
  obtain ⟨-, hjoined⟩ := hfs.joinFamilies pair
  have hmin := min_choice (representative fs pair.1) (representative fs pair.2)
  simp only [areKin_iff, hjoined]
  grind

/-- Kin by some pairs and one more. -/
theorem eqvGen_or_iff {R : String → String → Prop} {pair : String × String} :
    Relation.EqvGen (fun x y => R x y ∨ (x, y) = pair) a b ↔ Relation.EqvGen R a b ∨
      ((Relation.EqvGen R a pair.1 ∨ Relation.EqvGen R a pair.2) ∧
        (Relation.EqvGen R b pair.1 ∨ Relation.EqvGen R b pair.2)) := by
  have htrans : ∀ {x y z}, Relation.EqvGen R x y → Relation.EqvGen R y z → Relation.EqvGen R x z :=
    fun h h' => .trans _ _ _ h h'
  constructor
  · intro h
    induction h with
    | rel x y hxy =>
        rcases hxy with hxy | rfl
        · exact Or.inl (.rel x y hxy)
        · exact Or.inr ⟨Or.inl (.refl x), Or.inr (.refl y)⟩
    | refl x => exact Or.inl (.refl x)
    | symm x y _ ih => exact ih.imp (.symm x y) And.symm
    | trans x y z _ _ ihxy ihyz =>
        rcases ihxy with hxy | ⟨hx, hy⟩ <;> rcases ihyz with hyz | ⟨hy', hz⟩
        · exact Or.inl (htrans hxy hyz)
        · exact Or.inr ⟨hy'.imp (htrans hxy) (htrans hxy), hz⟩
        · exact Or.inr ⟨hx, hy.imp (htrans (.symm _ _ hyz)) (htrans (.symm _ _ hyz))⟩
        · exact Or.inr ⟨hx, hz⟩
  · have hmono : ∀ {x y}, Relation.EqvGen R x y →
        Relation.EqvGen (fun x y => R x y ∨ (x, y) = pair) x y := fun h =>
      h.mono fun _ _ => Or.inl
    have hpair : Relation.EqvGen (fun x y => R x y ∨ (x, y) = pair) pair.1 pair.2 :=
      .rel _ _ (Or.inr rfl)
    have hjoined : ∀ {x}, Relation.EqvGen R x pair.1 ∨ Relation.EqvGen R x pair.2 →
        Relation.EqvGen (fun x y => R x y ∨ (x, y) = pair) x pair.1 := by
      rintro x (hx | hx)
      · exact hmono hx
      · exact .trans _ _ _ (hmono hx) (.symm _ _ hpair)
    rintro (h | ⟨ha, hb⟩)
    · exact hmono h
    · exact .trans _ _ _ (hjoined ha) (.symm _ _ (hjoined hb))

/-- Families that are joined pair by pair. -/
theorem Descending.areKin_foldl_iff : ∀ (pairs : List (String × String)) {fs : Families}
    {R : String → String → Prop}, Descending fs →
    (∀ a b, areKin fs a b = true ↔ Relation.EqvGen R a b) →
    Descending (pairs.foldl Priority.joinFamilies fs) ∧
    ∀ a b, areKin (pairs.foldl Priority.joinFamilies fs) a b = true ↔
      Relation.EqvGen (fun x y => R x y ∨ (x, y) ∈ pairs) a b
  | [], fs, R, hfs, h => ⟨hfs, fun a b => by simpa using h a b⟩
  | pair :: pairs, fs, R, hfs, h => by
      have hstep : ∀ a b, areKin (Priority.joinFamilies fs pair) a b = true ↔
          Relation.EqvGen (fun x y => R x y ∨ (x, y) = pair) a b := by
        intro a b
        rw [hfs.areKin_joinFamilies_iff, eqvGen_or_iff]
        simp only [h]
      obtain ⟨hdescending, hkin⟩ := areKin_foldl_iff pairs (hfs.joinFamilies pair).1 hstep
      refine ⟨hdescending, fun a b => (hkin a b).trans ?_⟩
      simp only [List.mem_cons, or_assoc]

section Store

variable {s : Store}

/-- Without links every name is its own family. -/
theorem areKin_nil_iff : areKin [] a b = true ↔ Relation.EqvGen (fun _ _ => False) a b := by
  rw [areKin_iff]
  constructor
  · rintro (rfl : a = b)
    exact .refl a
  · intro h
    induction h with
    | rel _ _ h => exact h.elim
    | refl _ => rfl
    | symm _ _ _ ih => exact ih.symm
    | trans _ _ _ _ _ ih ih' => exact ih.trans ih'

/-- Joining all pairs of names gives descending links, and kin are those that the pairs connect. -/
theorem families_spec (s : Store) : Descending (families s) ∧
    ∀ a b, areKin (families s) a b = true ↔ Relation.EqvGen (fun x y => (x, y) ∈ s.kinPairs) a b := by
  have hall := Descending.areKin_foldl_iff s.kinPairs (fun _ hp => absurd hp List.not_mem_nil)
    fun _ _ => areKin_nil_iff
  simp only [false_or] at hall
  exact hall

/-- The links of a store descend. -/
theorem descending_families (s : Store) : Descending (families s) := (families_spec s).1

/-- **Names are kin where a chain of pairs leads from one to the other.** -/
theorem areKin_families_iff : areKin (families s) a b = true ↔
    Relation.EqvGen (fun x y => (x, y) ∈ s.kinPairs) a b :=
  (families_spec s).2 a b

end Store

end Priority
end Loadout
