/-
# Discovery under way

Discovery may do its tasks in any order (`Discovery.follow`).  What holds of the mods found so far
and the tasks that are pending is kept by every task, as long as nothing goes wrong
(`Discovery.Underway`): only what lies somewhere in the sources (`Discovery.Reached`) was taken in,
what a source yields was taken in or is to be visited, and of every mod that was taken in there is
one copy of which everything was visited or will be (`Discovery.Covered`).

That copy is the one that came first.  What is in other copies is not looked at, also if one of
them wins over the first one later.
-/

import Loadout.Proofs.Discovery.Task
import Loadout.Proofs.Store.AnyOrder
import Mathlib.Data.List.Perm.Basic

namespace Loadout
namespace Discovery

/-- Does pending tasks one after the other; the numbers tell which of those that are pending at the
time comes next. -/
def follow (w : Setting) : List Nat → Findings → List Task → Findings × List Task
  | [], f, tasks => (f, tasks)
  | n :: picks, f, tasks =>
    match tasks[n]? with
    | none => follow w picks f tasks
    | some t => follow w picks (t.run w f).1 (tasks.eraseIdx n ++ (t.run w f).2)

/-- **What lies somewhere in the sources.** -/
inductive Reached (w : Setting) (sources : List Target) : Target → Prop
  | source {t : Target} (h : t ∈ sources) : Reached w sources t
  | inside {t u : Target} {m : FoundMod} (reached : Reached w sources t) (isMod : mod? w t = some m)
      (h : u ∈ inner w m) : Reached w sources u

/-- Targets with one key are one target. -/
def OnePlace (sources : List Target) : Prop :=
  ∀ t ∈ sources, ∀ t' ∈ sources, t.key = t'.key → t = t'

/-- A mod was taken in, if the target is one. -/
def Handled (w : Setting) (news : List NewCandidate) (t : Target) : Prop :=
  ∀ m, mod? w t = some m → ∃ new ∈ news, new.descriptor = m.descriptor

/-- What a source yields is to be visited. -/
def AwaitsOutside (tasks : List Task) (t : Target) : Prop :=
  ∃ v, .visit v ∈ tasks ∧ v.parent? = none ∧ v.target = t

/-- What is in a mod is to be visited. -/
def AwaitsInside (tasks : List Task) (t : Target) : Prop :=
  ∃ v, .visit v ∈ tasks ∧ v.parent?.isSome = true ∧ v.target = t

/-- A mod is to be unpacked. -/
def Opens (o : Opened) (m : FoundMod) : Prop :=
  m.container? = some o.container ∧ o.nested = m.descriptor.nested

/-- Everything in a mod was visited or will be. -/
def Explored (w : Setting) (news : List NewCandidate) (tasks : List Task) (m : FoundMod) : Prop :=
  (∃ o, .unpack o ∈ tasks ∧ Opens o m) ∨
    ∀ u ∈ inner w m, AwaitsInside tasks u ∨ Handled w news u

/-- There is a copy of a mod of which everything was visited or will be. -/
def Covered (w : Setting) (sources : List Target) (news : List NewCandidate) (tasks : List Task)
    (e : Edition) : Prop :=
  ∃ t m, Reached w sources t ∧ mod? w t = some m ∧ m.descriptor.edition.same e = true ∧
    Explored w news tasks m

/-- **Discovery under way**: what was taken in so far, and what that and the pending tasks have to
do with the sources. -/
structure Underway (w : Setting) (sources : List Target) (news : List NewCandidate) (f : Findings)
    (tasks : List Task) : Prop where
  store : f.store = Store.gathered news
  admits : Store.empty.admits news = true
  origin : ∀ new ∈ news, ∃ t m, Reached w sources t ∧ mod? w t = some m ∧
    new.descriptor = m.descriptor
  outside : ∀ v, .visit v ∈ tasks → v.parent? = none → v.target ∈ sources
  inside : ∀ v p, .visit v ∈ tasks → v.parent? = some p →
    p ∈ f.store.ids ∧ Reached w sources v.target
  opened : ∀ o, .unpack o ∈ tasks → o.id ∈ f.store.ids ∧
    ∃ t m, Reached w sources t ∧ mod? w t = some m ∧ Opens o m
  source : ∀ t ∈ sources, AwaitsOutside tasks t ∨ Handled w news t
  seen : ∀ t ∈ sources, t.key ∈ f.seen → Handled w news t
  covered : ∀ new ∈ news, Covered w sources news tasks new.descriptor.edition

section Steps

variable {w : Setting} {sources : List Target} {news : List NewCandidate} {f g : Findings}
  {tasks rest : List Task}

/-- What was dealt with stays so when more is taken in. -/
theorem Handled.append {t : Target} (h : Handled w news t) (more : List NewCandidate) :
    Handled w (news ++ more) t := fun m hm =>
  (h m hm).imp fun _ => And.imp_left (List.mem_append_left _)

/-- All that is to be visited lies somewhere in the sources. -/
theorem Reached.of_underway (h : Underway w sources news f tasks) {v : Visit}
    (hv : .visit v ∈ tasks) : Reached w sources v.target := by
  cases hp : v.parent? with
  | none => exact .source (h.outside v hv hp)
  | some p => exact (h.inside v p hv hp).2

/-- **Nothing is taken in**, and tasks change: what is to be visited now was so before or lies in
something in the store, nothing else is to be unpacked, and what is not to be done any more has been
dealt with. -/
theorem Underway.change (h : Underway w sources news f tasks) (hstore : g.store = f.store)
    (hseen : ∀ t ∈ sources, t.key ∈ g.seen → t.key ∈ f.seen ∨ Handled w news t)
    (hnew : ∀ v, .visit v ∈ rest → .visit v ∈ tasks ∨
      ∃ p ∈ f.store.ids, v.parent? = some p ∧ Reached w sources v.target)
    (hopened : ∀ o, .unpack o ∈ rest → .unpack o ∈ tasks)
    (hvisit : ∀ v, .visit v ∈ tasks → .visit v ∈ rest ∨ Handled w news v.target)
    (hunpack : ∀ o, .unpack o ∈ tasks → .unpack o ∈ rest ∨
      ∀ m, Opens o m → ∀ u ∈ inner w m, AwaitsInside rest u) :
    Underway w sources news g rest where
  store := hstore.trans h.store
  admits := h.admits
  origin := h.origin
  outside := fun v hv hp => by
    rcases hnew v hv with hv | ⟨p, -, hp', -⟩
    · exact h.outside v hv hp
    · exact absurd (hp.symm.trans hp') (by simp)
  inside := fun v p hv hp => by
    rw [hstore]
    rcases hnew v hv with hv | ⟨p', hin, hp', hreached⟩
    · exact h.inside v p hv hp
    · exact ⟨Option.some.inj (hp'.symm.trans hp) ▸ hin, hreached⟩
  opened := fun o ho => hstore ▸ h.opened o (hopened o ho)
  source := fun t ht => by
    rcases h.source t ht with ⟨v, hv, hp, rfl⟩ | hdone
    · exact (hvisit v hv).imp_left fun hv => ⟨v, hv, hp, rfl⟩
    · exact Or.inr hdone
  seen := fun t ht hkey => (hseen t ht hkey).elim (h.seen t ht) id
  covered := fun new hnew => by
    obtain ⟨t, m, ht, hm, hsame, hexplored⟩ := h.covered new hnew
    refine ⟨t, m, ht, hm, hsame, ?_⟩
    rcases hexplored with ⟨o, ho, hopens⟩ | hall
    · exact (hunpack o ho).imp (fun ho => ⟨o, ho, hopens⟩) fun hawaits u hu =>
        Or.inl (hawaits m hopens u hu)
    · refine Or.inr fun u hu => ?_
      rcases hall u hu with ⟨v, hv, hp, rfl⟩ | hdone
      · exact (hvisit v hv).imp_left fun hv => ⟨v, hv, hp, rfl⟩
      · exact Or.inr hdone

/-- Only which tasks are pending counts, not their order. -/
theorem Underway.congr (h : Underway w sources news f tasks)
    (hmem : ∀ t, t ∈ tasks ↔ t ∈ rest) : Underway w sources news f rest :=
  h.change rfl (fun _ _ => Or.inl) (fun _ hv => Or.inl ((hmem _).2 hv)) (fun _ => (hmem _).2)
    (fun _ hv => Or.inl ((hmem _).1 hv)) fun _ ho => Or.inl ((hmem _).1 ho)

/-- A visit is over. -/
theorem Underway.pass {v : Visit} (h : Underway w sources news f (.visit v :: rest))
    (hstore : g.store = f.store) (hhandled : Handled w news v.target)
    (hseen : ∀ t ∈ sources, t.key ∈ g.seen → t.key ∈ f.seen ∨ t = v.target) :
    Underway w sources news g rest := by
  refine h.change hstore (fun t ht hkey => ?_) (fun _ hv => Or.inl (List.mem_cons_of_mem _ hv))
    (fun _ => List.mem_cons_of_mem _) (fun v' hv' => ?_) fun o ho => ?_
  · rcases hseen t ht hkey with hkey | rfl
    · exact Or.inl hkey
    · exact Or.inr hhandled
  · rcases List.mem_cons.1 hv' with heq | hv'
    · exact Or.inr (Task.visit.inj heq ▸ hhandled)
    · exact Or.inl hv'
  · rcases List.mem_cons.1 ho with heq | ho
    · exact absurd heq (by simp)
    · exact Or.inl ho

/-- A mod stays explored when another one is taken in and more tasks come up. -/
theorem Explored.append {m : FoundMod} (h : Explored w news tasks m) (new : NewCandidate)
    (more : List Task) : Explored w (news ++ [new]) (tasks ++ more) m := by
  refine h.imp ?_ fun hall u hu => ?_
  · rintro ⟨o, ho, hopens⟩
    exact ⟨o, List.mem_append_left _ ho, hopens⟩
  · rcases hall u hu with ⟨v, hv, hp, rfl⟩ | hdone
    · exact Or.inl ⟨v, List.mem_append_left _ hv, hp, rfl⟩
    · exact Or.inr (hdone.append _)

/-- A copy stays covered when another mod is taken in and more tasks come up. -/
theorem Covered.append {e : Edition} (h : Covered w sources news tasks e) (new : NewCandidate)
    (more : List Task) : Covered w sources (news ++ [new]) (tasks ++ more) e := by
  obtain ⟨t, m, ht, hm, hsame, hexplored⟩ := h
  exact ⟨t, m, ht, hm, hsame, hexplored.append new more⟩

/-- The tasks that a mod taken in brings along are no visits. -/
theorem visit_mem_append {v v' : Visit} {m : FoundMod} {outcome : Outcome}
    (h : .visit v' ∈ tasks ++ (opened? v m outcome).toList.map .unpack) : .visit v' ∈ tasks := by
  rcases List.mem_append.1 h with h | h
  · exact h
  · obtain ⟨_, -, heq⟩ := List.mem_map.1 h
    exact absurd heq (by simp)

/-- Of a mod that got a number of its own, everything will be visited. -/
theorem explored_of_isInserted {v : Visit} {m : FoundMod} {outcome : Outcome}
    (hnew : outcome.isInserted = true) :
    Explored w news (tasks ++ (opened? v m outcome).toList.map .unpack) m := by
  cases hopened : opened? v m outcome with
  | none =>
      refine Or.inr fun u hu => ?_
      rw [inner_of_opened?_eq_none hopened hnew] at hu
      exact absurd hu List.not_mem_nil
  | some o => exact Or.inl ⟨o, by simp, (of_opened? hopened).2⟩

/-- What comes after a copy of it is covered as that is. -/
theorem Underway.covered_of_copy (h : Underway w sources news f tasks) {new : NewCandidate}
    {s' : Store} {outcome : Outcome} (hinsert : f.store.insert new = .ok (s', outcome))
    (hold : outcome.isInserted = false) : Covered w sources news tasks new.descriptor.edition := by
  have hindexed : f.store.Indexed := h.store ▸ (Store.catalogued_gathered news).indexed
  obtain ⟨c, hc, hsame⟩ := hindexed.exists_copy hinsert hold
  obtain ⟨first, hfirst, hsame'⟩ := Store.exists_new_of_mem h.admits (h.store ▸ hc)
  obtain ⟨t, m, ht, hm, hsame'', hexplored⟩ := h.covered first hfirst
  refine ⟨t, m, ht, hm, ?_, hexplored⟩
  rw [Edition.same_congr hsame'', Edition.same_congr hsame', Edition.same_comm]
  exact hsame

/-- **A mod is taken in**, and what is to be unpacked of it comes on top. -/
theorem Underway.take (h : Underway w sources news f tasks) {t : Target} {m : FoundMod}
    (ht : Reached w sources t) (hm : mod? w t = some m) {v : Visit} {outcome : Outcome}
    (hin : ∀ p, v.parent? = some p → p ∈ f.store.ids) (hseen : g.seen = f.seen)
    (hinsert : f.store.insert ⟨m.descriptor, m.location, v.parent?, v.remap⟩ =
      .ok (g.store, outcome)) :
    Underway w sources (news ++ [⟨m.descriptor, m.location, v.parent?, v.remap⟩]) g
      (tasks ++ (opened? v m outcome).toList.map .unpack) := by
  have hcat : f.store.Catalogued := h.store ▸ Store.catalogued_gathered news
  have hretains := hcat.retains hinsert
  obtain ⟨hadmits, hstore⟩ := Store.admits_concat h.admits
    (h.store ▸ hin) (h.store ▸ hinsert)
  refine ⟨hstore.symm, hadmits, fun new hnew => ?origin,
    fun v' hv' => h.outside v' (visit_mem_append hv'), fun v' p hv' hp => ?inside,
    fun o ho => ?opened, fun t' ht' => ?source,
    fun t' ht' hkey => (h.seen t' ht' (hseen ▸ hkey)).append _, fun new hnew => ?covered⟩
  case origin =>
    rcases List.mem_append.1 hnew with hnew | hnew
    · exact h.origin new hnew
    · rw [List.mem_singleton.1 hnew]
      exact ⟨t, m, ht, hm, rfl⟩
  case inside => exact (h.inside v' p (visit_mem_append hv') hp).imp_left hretains.ids
  case opened =>
    rcases List.mem_append.1 ho with ho | ho
    · exact (h.opened o ho).imp_left hretains.ids
    · obtain ⟨o', ho', heq⟩ := List.mem_map.1 ho
      obtain rfl := Task.unpack.inj heq
      obtain ⟨rfl, hopens⟩ := of_opened? (Option.mem_toList.1 ho')
      exact ⟨hcat.indexed.mem_ids_of_insert hinsert, t, m, ht, hm, hopens⟩
  case source =>
    refine (h.source t' ht').imp ?_ fun hdone => hdone.append _
    rintro ⟨v', hv', hp⟩
    exact ⟨v', List.mem_append_left _ hv', hp⟩
  case covered =>
    rcases List.mem_append.1 hnew with hnew | hnew
    · exact (h.covered new hnew).append _ _
    rw [List.mem_singleton.1 hnew]
    cases hisNew : outcome.isInserted with
    | false => exact (h.covered_of_copy hinsert hisNew).append _ _
    | true => exact ⟨t, m, ht, hm, Edition.same_self _, explored_of_isInserted hisNew⟩

/-- A visit to what a source yields marks nothing but that. -/
theorem Underway.mark {v : Visit} (h : Underway w sources news f (.visit v :: rest))
    (hplace : OnePlace sources) {t : Target} (ht : t ∈ sources) (hkey : t.key ∈ v.mark f.seen) :
    t.key ∈ f.seen ∨ t = v.target := by
  rw [Visit.mark] at hkey
  split at hkey
  · rename_i hnone
    have hv := h.outside v (List.mem_cons_self ..) (Option.isNone_iff_eq_none.1 hnone)
    exact (List.mem_cons.1 hkey).symm.imp_right (hplace t ht v.target hv)
  · exact Or.inl hkey

/-- **A visit** keeps discovery under way. -/
theorem Underway.visit {v : Visit} {opened? : Option Opened}
    (h : Underway w sources news f (.visit v :: rest)) (hplace : OnePlace sources)
    (hvisited : Visited w f v g opened?) :
    ∃ news', Underway w sources news' g (rest ++ opened?.toList.map .unpack) := by
  have hpending : Task.visit v ∈ Task.visit v :: rest := List.mem_cons_self ..
  cases hvisited with
  | again hsource hseen =>
      rw [Option.toList_none, List.map_nil, List.append_nil]
      exact ⟨news, h.pass rfl (h.seen _ (h.outside v hpending hsource) hseen) fun _ _ => Or.inl⟩
  | noMod hno hstore hseen =>
      rw [Option.toList_none, List.map_nil, List.append_nil]
      refine ⟨news, h.pass hstore (fun m hm => ?_) fun t ht hkey => h.mark hplace ht (hseen ▸ hkey)⟩
      exact absurd (hno.symm.trans hm) (by simp)
  | @took _ m outcome hmod hinsert hseen =>
      have htaken := h.take (g := { g with seen := f.seen }) (Reached.of_underway h hpending) hmod
        (fun p hp => (h.inside v p hpending hp).1) rfl hinsert
      refine ⟨_, Underway.pass htaken rfl (fun m' hm' => ?_) fun t ht hkey =>
        h.mark hplace ht (hseen ▸ hkey)⟩
      obtain rfl := Option.some.inj (hmod.symm.trans hm')
      exact ⟨_, List.mem_append_right _ (List.mem_singleton_self _), rfl⟩

/-- What is in a mod that is to be unpacked is what its container has under the names it lists. -/
theorem inner_of_opens {o : Opened} {m : FoundMod} (h : Opens o m) :
    inner w m = o.nested.filterMap (w.target? o.container) := by
  rw [inner, h.1, h.2]

/-- **Unpacking a mod** keeps discovery under way. -/
theorem Underway.unpack {o : Opened} (h : Underway w sources news f (.unpack o :: rest)) :
    Underway w sources news (unpack w f o).1 (rest ++ (unpack w f o).2.map .visit) := by
  have hkeeps := keeps_unpack w f o
  obtain ⟨hid, t, m, ht, hm, hopens⟩ := h.opened o (List.mem_cons_self ..)
  have hvisits : ∀ v, Task.visit v ∈ (Discovery.unpack w f o).2.map Task.visit ↔
      ∃ u ∈ inner w m, visitTo o u = v := by
    intro v
    rw [unpack_snd, inner_of_opens hopens, List.mem_map]
    simp only [Task.visit.injEq, exists_eq_right, List.mem_map]
  refine h.change hkeeps.store (fun _ _ hkey => Or.inl (hkeeps.seen ▸ hkey)) (fun v hv => ?_)
    (fun o' ho' => ?_) (fun v hv => ?_) fun o' ho' => ?_
  · rcases List.mem_append.1 hv with hv | hv
    · exact Or.inl (List.mem_cons_of_mem _ hv)
    · obtain ⟨u, hu, rfl⟩ := (hvisits v).1 hv
      exact Or.inr ⟨o.id, hid, rfl, .inside ht hm hu⟩
  · rcases List.mem_append.1 ho' with ho' | ho'
    · exact List.mem_cons_of_mem _ ho'
    · obtain ⟨_, -, heq⟩ := List.mem_map.1 ho'
      exact absurd heq (by simp)
  · rcases List.mem_cons.1 hv with heq | hv
    · exact absurd heq (by simp)
    · exact Or.inl (List.mem_append_left _ hv)
  · rcases List.mem_cons.1 ho' with heq | ho'
    · obtain rfl := Task.unpack.inj heq
      refine Or.inr fun m' hopens' u hu => ?_
      rw [inner_of_opens hopens', ← inner_of_opens hopens] at hu
      exact ⟨visitTo o' u, List.mem_append_right _ ((hvisits _).2 ⟨u, hu, rfl⟩), rfl, rfl⟩
    · exact Or.inl (List.mem_append_left _ ho')

/-- If all is well after a task, it was before. -/
theorem clean_of_run (t : Task) (h : (t.run w f).1.Clean) : f.Clean := by
  cases t with
  | visit v => exact (visited_of_clean h).1
  | unpack o => exact (keeps_unpack w f o).clean h

/-- **One task**, whichever it is. -/
theorem Underway.run {t : Task} (h : Underway w sources news f (t :: rest))
    (hplace : OnePlace sources) (hclean : (t.run w f).1.Clean) :
    ∃ news', Underway w sources news' (t.run w f).1 (rest ++ (t.run w f).2) := by
  cases t with
  | visit v => exact h.visit hplace (visited_of_clean hclean).2
  | unpack o => exact ⟨news, h.unpack⟩

/-- If all is well after many tasks, it was before. -/
theorem clean_of_follow : ∀ (picks : List Nat) {f : Findings} {tasks : List Task},
    (follow w picks f tasks).1.Clean → f.Clean
  | [], _, _, h => h
  | n :: picks, f, tasks, h => by
      rw [follow] at h
      split at h
      · exact clean_of_follow picks h
      · exact clean_of_run _ (clean_of_follow picks h)

/-- **Tasks in any order** keep discovery under way. -/
theorem Underway.follow (hplace : OnePlace sources) : ∀ (picks : List Nat) {news : List NewCandidate}
    {f : Findings} {tasks : List Task}, Underway w sources news f tasks →
    (follow w picks f tasks).1.Clean →
    ∃ news', Underway w sources news' (follow w picks f tasks).1 (follow w picks f tasks).2
  | [], news, _, _, h, _ => ⟨news, h⟩
  | n :: picks, _, f, tasks, h, hclean => by
      rw [Discovery.follow] at hclean ⊢
      split at hclean
      · exact h.follow hplace picks hclean
      · rename_i t hpick
        obtain ⟨hn, rfl⟩ := List.getElem?_eq_some_iff.1 hpick
        have hfirst := h.congr fun t => (List.getElem_cons_eraseIdx_perm hn).mem_iff.symm
        obtain ⟨news', hrun⟩ := hfirst.run hplace (clean_of_follow picks hclean)
        exact hrun.follow hplace picks hclean

end Steps

end Discovery
end Loadout
