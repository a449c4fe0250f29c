/-
# The walk by levels

The walk makes all visits of a level, then it unpacks all mods of the level, and then it goes on
with what was in them.  That is to do pending tasks in the order in which they came up
(`Discovery.level_eq_follow`).  So a walk that comes to an end is one of the orders in which tasks
can be done, and it leaves none undone (`Discovery.walk_eq_follow`).

There is a last level wherever a nested archive is smaller than the archive around it
(`ArchiveReader.Shrinks`), and there are no more levels than the largest file has bytes, so the walk
ends if there is time for that (`Discovery.exists_findAll_eq`).  Where entries are stored as they
are the archives shrink (`Zip.shrinks_reader`).
-/

import Loadout.Proofs.Discovery.AnyOrder

namespace Loadout

/-! ### Sizes -/

/-- What is read from an archive is smaller than the archive. -/
def ArchiveReader.Shrinks (reader : ArchiveReader) : Prop :=
  ∀ archive entry b, reader.read archive entry = .ok b → b.size < archive.size

/-- A slice has no more bytes than there are from its start on. -/
theorem size_slice_le (b : ByteArray) (start stop : Nat) : (slice b start stop).size ≤ b.size - start := by
  rw [slice, ByteArray.size_extract]
  omega

/-- Where a record starts there are bytes. -/
theorem RecordKind.size_pos_of_startsAt {k : RecordKind} {b : ByteArray} {place : Nat}
    (h : k.startsAt b place = true) : 0 < b.size := by
  simp only [startsAt, Bool.and_eq_true, beq_iff_eq] at h
  obtain ⟨hplace, -⟩ := getElem?_eq_some_iff.1 h.1.1.1
  omega

/-- The bytes of an entry stand behind its local record. -/
theorem Zip.size_content_lt {z : Zip} {e : ZipEntry} {c : ZipContent} (h : z.content? e = some c) :
    c.bytes.size < z.bytes.size := by
  simp only [content?, contentStart?, Option.bind_eq_bind, Option.bind_eq_some_iff,
    Option.guard_eq_some', Option.pure_def, Option.some.injEq] at h
  obtain ⟨-, -, start, ⟨-, hheader, names, -, extra, -, rfl⟩, rfl⟩ := h
  have hpos := RecordKind.size_pos_of_startsAt hheader
  have hle := size_slice_le z.bytes (e.header + 30 + names + extra)
    (e.header + 30 + names + extra + e.size)
  change (slice _ _ _).size < _
  omega

/-- What is found in an archive is a part of its bytes. -/
theorem Zip.size_findIn_lt {archive : ByteArray} {name : String} {c : ZipContent}
    (h : findIn archive name = .ok c) : c.bytes.size < archive.size := by
  rw [findIn] at h
  cases hopen : open? archive with
  | none => simp [hopen] at h
  | some z =>
      obtain ⟨entries, -, rfl⟩ := Option.map_eq_some_iff.1 hopen
      rw [hopen] at h
      simp only [find] at h
      split at h
      · simp at h
      · split at h
        · simp at h
        · rename_i hcontent
          obtain rfl := Except.ok.inj h
          exact size_content_lt hcontent

/-- **What is stored in an archive is smaller than the archive.** -/
theorem Zip.shrinks_reader : Zip.reader.Shrinks := by
  intro archive name b h
  simp only [reader, read] at h
  cases hfind : findIn archive name with
  | error fault => simp [hfind, bind, Except.bind] at h
  | ok c =>
      by_cases hintact : c.isIntact = true
      · simp only [hfind, bind, Except.bind, hintact, if_true, pure, Except.pure] at h
        exact Except.ok.inj h ▸ size_findIn_lt hfind
      · simp [hfind, bind, Except.bind, hintact, throw, throwThe, MonadExceptOf.throw] at h

namespace FileTree

/-- The larger of a number and the size of a file. -/
def atLeast (n : Nat) (entry : List String × Node) : Nat :=
  match entry.2 with
  | .file bytes => max n bytes.size
  | _ => n

/-- The size of the largest file. -/
def largest (t : FileTree) : Nat := t.nodes.foldl atLeast 0

/-- The larger of two numbers is no less than the first. -/
theorem le_atLeast (n : Nat) (entry : List String × Node) : n ≤ atLeast n entry := by
  rw [atLeast]
  split
  · exact Nat.le_max_left ..
  · exact Nat.le_refl n

/-- Looking at more files makes the largest size no smaller. -/
theorem le_foldl_atLeast : ∀ (nodes : List (List String × Node)) (n : Nat),
    n ≤ nodes.foldl atLeast n
  | [], n => Nat.le_refl n
  | entry :: rest, n => (le_atLeast n entry).trans (le_foldl_atLeast rest _)

/-- The largest size is no less than that of any file looked at. -/
theorem size_le_foldl {place : List String} {b : ByteArray} :
    ∀ {nodes : List (List String × Node)} (n : Nat), (place, .file b) ∈ nodes →
      b.size ≤ nodes.foldl atLeast n
  | entry :: rest, n, h => by
      rw [List.foldl_cons]
      rcases List.mem_cons.1 h with rfl | h
      · exact (Nat.le_max_right n b.size).trans (le_foldl_atLeast rest _)
      · exact size_le_foldl _ h

/-- **No file is larger than the largest.** -/
theorem size_read_le {t : FileTree} {path : String} {b : ByteArray} (h : t.read path = .ok b) :
    b.size ≤ t.largest := by
  have hfind : t.find path = .ok (.file b) := by
    rw [read] at h
    cases hfind : t.find path with
    | error e => simp [hfind, bind, Except.bind] at h
    | ok node =>
        cases node with
        | file bytes => simpa [hfind, bind, Except.bind, pure, Except.pure] using h
        | directory => simp [hfind, bind, Except.bind] at h
        | link target => simp [hfind, bind, Except.bind] at h
  rw [find] at hfind
  cases hplace : t.resolve path with
  | error e => simp [hplace, bind, Except.bind] at hfind
  | ok place =>
      simp only [hplace, bind, Except.bind, node?] at hfind
      split at hfind
      · simp at hfind
      · cases hlookup : t.nodes.lookup place with
        | none => simp [hlookup] at hfind
        | some node =>
            rw [hlookup] at hfind
            obtain rfl : node = .file b := Except.ok.inj hfind
            obtain ⟨before, after, hnodes, -⟩ := List.lookup_eq_some_iff.1 hlookup
            exact size_le_foldl 0 (hnodes ▸ List.mem_append_right _ (List.mem_cons_self ..))

end FileTree

namespace Container

variable {files : FileTree} {reader : ArchiveReader} {name : String}

variable {d : Descriptor} {c : Container}

/-- With a descriptor comes the container whose text it is read from. -/
theorem of_readDescriptor {text : String} {c' : Container}
    (h : (do return .found (← readDescriptor text) c' : Except LoadError Loaded) =
      .ok (.found d c)) : c = c' := by
  cases hread : readDescriptor text with
  | error e => simp [hread, bind, Except.bind] at h
  | ok d' =>
      simp only [hread, bind, Except.bind, pure, Except.pure, Except.ok.injEq,
        Loaded.found.injEq] at h
      exact h.2.symm

/-- What a descriptor is read from is the archive that was loaded. -/
theorem of_loadArchive {bytes : ByteArray}
    (h : loadArchive reader name bytes = .ok (.found d c)) : c = .archive bytes := by
  rw [loadArchive] at h
  split at h
  · simp at h
  · simp at h
  · simp at h
  · exact of_readDescriptor h

/-- What a descriptor in a directory is read from is that directory. -/
theorem of_loadDirectory {path : String}
    (h : loadDirectory files name path = .ok (.found d c)) : c = .directory path := by
  simp only [loadDirectory] at h
  split at h
  · simp at h
  · split at h
    · simp at h
    · split at h
      · simp at h
      · exact of_readDescriptor h

/-- What is at a path is a directory, or an archive in a file. -/
theorem of_loadPath {path : String} (h : loadPath files reader name path = .ok (.found d c)) :
    c = .directory path ∨ ∃ bytes, c = .archive bytes ∧ bytes.size ≤ files.largest := by
  rw [loadPath] at h
  split at h
  · exact Or.inl (of_loadDirectory h)
  · split at h
    · simp at h
    · rename_i bytes hread
      exact Or.inr ⟨bytes, of_loadArchive h, FileTree.size_read_le hread⟩

/-- What is nested in an archive is smaller than the archive, where archives shrink. -/
theorem size_nestedBytes_lt (hreader : reader.Shrinks) {bytes b : ByteArray} {entry : String}
    (h : nestedBytes files reader (.archive bytes) entry = .ok b) : b.size < bytes.size := by
  simp only [nestedBytes] at h
  split at h
  · rename_i hread
    exact Except.ok.inj h ▸ hreader _ _ _ hread
  all_goals simp at h

/-- What is nested in a directory is no larger than the largest file. -/
theorem size_nestedBytes_le {path entry : String} {b : ByteArray}
    (h : nestedBytes files reader (.directory path) entry = .ok b) : b.size ≤ files.largest := by
  rw [nestedBytes] at h
  cases hread : files.read (Path.join path entry) with
  | error fault => simp [hread, Except.mapError] at h
  | ok bytes =>
      rw [hread] at h
      exact Except.ok.inj h ▸ FileTree.size_read_le hread

end Container

/-- A number that the size of every archive in a target is smaller than. -/
def Target.room (files : FileTree) : Target → Nat
  | .path _ => files.largest + 1
  | .nested _ _ _ bytes => bytes.size
  | .builtin _ => 0

namespace Discovery

variable {w : Setting} {f : Findings} {files : FileTree} {reader : ArchiveReader} {name : String}

/-- A mod that loading has yielded was found in its container. -/
theorem of_record {place : String} {locate : Container → Location} {loaded : Except LoadError Loaded}
    {m : FoundMod} (h : (record f place locate loaded).2 = some m) :
    ∃ c, loaded = .ok (.found m.descriptor c) ∧ m.container? = some c := by
  rcases loaded with (_ | _) | (_ | _ | _)
  · exact absurd h (by simp [record])
  · exact absurd h (by simp [record])
  · rename_i d c
    obtain rfl := Option.some.inj h
    exact ⟨c, rfl, rfl⟩
  · exact absurd h (by simp [record])
  · exact absurd h (by simp [record])

/-- **What is in a target is smaller.** -/
theorem room_lt_of_mem_inner (hreader : reader.Shrinks) {t u : Target} {m : FoundMod}
    (hm : mod? (.of files reader name) t = some m) (hu : u ∈ inner (.of files reader name) m) :
    u.room files < t.room files := by
  rw [inner] at hu
  cases hcontainer : m.container? with
  | none => simp [hcontainer] at hu
  | some c =>
      simp only [hcontainer, List.mem_filterMap] at hu
      obtain ⟨entry, -, htarget⟩ := hu
      rw [Setting.target?] at htarget
      split at htarget
      · exact absurd htarget (by simp)
      rename_i bytes hbytes
      change Container.nestedBytes files reader c entry = .ok bytes at hbytes
      obtain rfl := Option.some.inj htarget
      change bytes.size < _
      cases t with
      | builtin d =>
          obtain rfl := Option.some.inj hm
          exact absurd hcontainer (by simp)
      | nested name entry' hash outer =>
          obtain ⟨c', hload, hc'⟩ := of_record hm
          obtain rfl := Option.some.inj (hcontainer.symm.trans hc')
          obtain rfl := Container.of_loadArchive hload
          exact Container.size_nestedBytes_lt hreader hbytes
      | path p =>
          obtain ⟨c', hload, hc'⟩ := of_record hm
          obtain rfl := Option.some.inj (hcontainer.symm.trans hc')
          refine Nat.lt_succ_of_le ?_
          obtain rfl | ⟨archive, rfl, harchive⟩ := Container.of_loadPath hload
          · exact Container.size_nestedBytes_le hbytes
          · exact (Container.size_nestedBytes_lt hreader hbytes).le.trans harchive

/-! ### Levels -/

/-- To follow two lists of picks one after the other is to follow both as one. -/
theorem follow_append : ∀ (picks more : List Nat) (f : Findings) (tasks : List Task),
    follow w (picks ++ more) f tasks =
      follow w more (follow w picks f tasks).1 (follow w picks f tasks).2
  | [], _, _, _ => rfl
  | n :: picks, more, f, tasks => by
      rw [List.cons_append, follow, follow]
      split <;> exact follow_append picks more _ _

/-- **To take what came up first** is to do all tasks that are pending, and then those that they
lead to. -/
theorem follow_zeros : ∀ (tasks later : List Task) (f : Findings),
    follow w (List.replicate tasks.length 0) f (tasks ++ later) =
      ((through (Task.run w) f tasks).1, later ++ (through (Task.run w) f tasks).2)
  | [], later, f => by simp [follow, through]
  | t :: rest, later, f => by
      rw [List.length_cons, List.replicate_succ, follow]
      change follow w _ (t.run w f).1 ((rest ++ later) ++ (t.run w f).2) = _
      rw [List.append_assoc, follow_zeros rest, through_cons, List.append_assoc]

/-- Steps that are tasks of one kind and lead to tasks of one kind. -/
theorem through_map {α β : Type} (step : Findings → α → Findings × List β) (task : α → Task)
    (next : β → Task) (h : ∀ f a, (task a).run w f = ((step f a).1, (step f a).2.map next)) :
    ∀ (l : List α) (f : Findings), through (Task.run w) f (l.map task) =
      ((through step f l).1, (through step f l).2.map next)
  | [], _ => rfl
  | a :: l, f => by
      rw [List.map_cons, through_cons, through_cons, h, through_map step task next h l, List.map_append]

/-- One visit, as a step that leads to what is to be unpacked. -/
def visitStep (w : Setting) (f : Findings) (v : Visit) : Findings × List Opened :=
  (visit w f v).map id Option.toList

/-- A level is visited as a whole and then unpacked as a whole. -/
theorem level_eq (w : Setting) (f : Findings) (visits : List Visit) : level w f visits =
    through (unpack w) (through (visitStep w) f visits).1 (through (visitStep w) f visits).2 := rfl

/-- **A level** is all visits that are pending, and then all that is to be unpacked. -/
theorem level_eq_follow (w : Setting) (f : Findings) (visits : List Visit) : ∃ n,
    follow w (List.replicate n 0) f (visits.map .visit) =
      ((level w f visits).1, (level w f visits).2.map .visit) := by
  have hvisits := through_map (visitStep w) .visit .unpack (fun _ _ => rfl : ∀ f v,
    (Task.visit v).run w f = ((visitStep w f v).1, (visitStep w f v).2.map .unpack)) visits f
  have hunpack := through_map (unpack w) .unpack .visit (fun _ _ => rfl : ∀ f o,
    (Task.unpack o).run w f = ((unpack w f o).1, (unpack w f o).2.map .visit))
    (through (visitStep w) f visits).2 (through (visitStep w) f visits).1
  have hfirst := follow_zeros (w := w) (visits.map .visit) [] f
  have hthen := follow_zeros (w := w) ((through (visitStep w) f visits).2.map .unpack) []
    (through (visitStep w) f visits).1
  rw [List.append_nil, List.nil_append] at hfirst hthen
  rw [hvisits] at hfirst
  rw [hunpack] at hthen
  refine ⟨(visits.map Task.visit).length +
    ((through (visitStep w) f visits).2.map Task.unpack).length, ?_⟩
  rw [List.replicate_add, follow_append, hfirst, hthen, level_eq]

/-- What comes of steps over a list comes of one of them. -/
theorem mem_through {σ α β : Type} {step : σ → α → σ × List β} {b : β} : ∀ (l : List α) (s : σ),
    b ∈ (through step s l).2 → ∃ a ∈ l, ∃ s', b ∈ (step s' a).2
  | a :: l, s, h => by
      rw [through_cons] at h
      rcases List.mem_append.1 h with h | h
      · exact ⟨a, List.mem_cons_self .., s, h⟩
      · obtain ⟨a', ha', hstep⟩ := mem_through l _ h
        exact ⟨a', List.mem_cons_of_mem _ ha', hstep⟩

/-- What is to be unpacked after a visit is the mod that was visited. -/
theorem opens_of_visit {v : Visit} {o : Opened} (h : (visit w f v).2 = some o) :
    ∃ m, mod? w v.target = some m ∧ Opens o m := by
  rw [visit_eq] at h
  split at h
  · exact absurd h (by simp)
  split at h
  · exact absurd h (by simp)
  rw [enter] at h
  cases hmod : mod? w v.target with
  | none => simp [hmod] at h
  | some m =>
      simp only [hmod] at h
      exact ⟨m, rfl, of_take h⟩

/-- **What comes in the next level is smaller** than something in this one. -/
theorem room_lt_of_mem_level (hreader : reader.Shrinks) {visits : List Visit} {v : Visit}
    (hv : v ∈ (level (.of files reader name) f visits).2) :
    ∃ v' ∈ visits, v.target.room files < v'.target.room files := by
  rw [level_eq] at hv
  obtain ⟨o, ho, _, hunpack⟩ := mem_through _ _ hv
  obtain ⟨v', hv', _, hvisit⟩ := mem_through _ _ ho
  obtain ⟨m, hm, hopens⟩ := opens_of_visit (Option.mem_toList.1 hvisit)
  rw [unpack_snd, ← inner_of_opens hopens] at hunpack
  obtain ⟨u, hu, rfl⟩ := List.mem_map.1 hunpack
  exact ⟨v', hv', room_lt_of_mem_inner hreader hm hu⟩

/-- With nothing left to visit a walk is over, however many levels it has. -/
theorem walk_nil (w : Setting) (levels : Nat) (f : Findings) : walk w levels f [] = some f := by
  cases levels <;> rfl

/-- A walk with a level to go visits what there is, then what was found inside. -/
theorem walk_cons (w : Setting) (levels : Nat) (f : Findings) (v : Visit) (visits : List Visit) :
    walk w (levels + 1) f (v :: visits) =
      walk w levels (level w f (v :: visits)).1 (level w f (v :: visits)).2 := rfl

/-- **A walk that ends leaves nothing undone.** -/
theorem walk_eq_follow : ∀ {levels : Nat} {f : Findings} {visits : List Visit} {g : Findings},
    walk w levels f visits = some g →
      ∃ n, follow w (List.replicate n 0) f (visits.map .visit) = (g, [])
  | levels, f, [], g, h => by
      rw [walk_nil] at h
      exact ⟨0, congrArg (·, []) (Option.some.inj h)⟩
  | 0, _, _ :: _, _, h => nomatch h
  | levels + 1, f, v :: visits, g, h => by
      rw [walk_cons] at h
      obtain ⟨n, hlevel⟩ := level_eq_follow w f (v :: visits)
      obtain ⟨k, hrest⟩ := walk_eq_follow h
      refine ⟨n + k, ?_⟩
      rw [List.replicate_add, follow_append, hlevel, hrest]

/-- **A walk ends** with as many levels as bound the room of what is to be visited. -/
theorem exists_walk_eq (hreader : reader.Shrinks) : ∀ (levels : Nat) (f : Findings)
    (visits : List Visit), (∀ v ∈ visits, v.target.room files < levels) →
      ∃ g, walk (.of files reader name) levels f visits = some g
  | levels, f, [], _ => ⟨f, walk_nil _ levels f⟩
  | 0, _, v :: _, h => absurd (h v (List.mem_cons_self ..)) (Nat.not_lt_zero _)
  | levels + 1, f, v :: visits, h => by
      rw [walk_cons]
      refine exists_walk_eq hreader levels _ _ fun u hu => ?_
      obtain ⟨v', hv', hlt⟩ := room_lt_of_mem_level hreader hu
      exact Nat.lt_of_lt_of_le hlt (Nat.le_of_lt_succ (h v' hv'))

/-- What the sources yield has no more room than the largest file, and one. -/
theorem room_le_of_mem_firstLevel {items : List SourceItem} {v : Visit}
    (hv : v ∈ firstLevel w items) : v.target.room files ≤ files.largest + 1 := by
  have hroom : ∀ i : SourceItem, (Target.ofOrigin w.canonical? i.origin).room files ≤
      files.largest + 1 := by
    intro i
    cases i.origin with
    | path p => exact Nat.le_refl _
    | builtin d => exact Nat.zero_le _
  simp only [firstLevel, List.mem_append, List.mem_filter, List.mem_map] at hv
  obtain ⟨⟨i, -, rfl⟩, -⟩ | ⟨⟨i, -, rfl⟩, -⟩ := hv <;> exact hroom i

/-- **The walk comes to an end** where nested archives are smaller than what is around them, if there
is a nanosecond for each byte of the largest file, and two more. -/
theorem exists_findAll_eq (hreader : reader.Shrinks) {seconds : Nat}
    (htime : files.largest + 2 ≤ levelsWithin seconds) (name : String) (items : List SourceItem) :
    ∃ g, findAll (.of files reader name) seconds items = some g := by
  rw [findAll]
  exact exists_walk_eq hreader _ _ _ fun _ hv =>
    Nat.lt_of_lt_of_le (Nat.lt_succ_of_le (room_le_of_mem_firstLevel hv)) htime

/-- **Discovery is where the tasks lead** in the order in which they come up. -/
theorem exists_endsIn_of_discover {s : Settings} {sources : List Source} {d : Discovery}
    (h : discover files reader s sources = .ok d) (hskipped : d.skipped = []) :
    ∃ n, EndsIn (.of files reader s.descriptorName) (listSources files s sources).1
      (List.replicate n 0) d := by
  simp only [discover] at h
  cases hfind : findAll (.of files reader s.descriptorName) s.discoveryTimeout
    (listSources files s sources).1 with
  | none => simp [hfind] at h
  | some f =>
      simp only [hfind] at h
      rw [findAll] at hfind
      obtain ⟨n, hn⟩ := walk_eq_follow hfind
      refine ⟨n, f, hn, ?_⟩
      have hnone : (listSources files s sources).2 = [] := by
        rw [ofFindings] at h
        split at h
        · exact absurd h (by simp)
        · obtain rfl := Except.ok.inj h
          have hlength := congrArg List.length hskipped
          rw [List.length_mergeSort, List.length_append, List.length_nil] at hlength
          exact List.eq_nil_of_length_eq_zero (by omega)
      rwa [hnone] at h

/-- **What discovery finds**, where nothing is skipped and no two targets that sources yield share a
key. -/
theorem finds_of_discover {s : Settings} {sources : List Source} {d : Discovery}
    (h : discover files reader s sources = .ok d) (hskipped : d.skipped = [])
    (hplace : OnePlace (targets (.of files reader s.descriptorName) (listSources files s sources).1)) :
    Finds (.of files reader s.descriptorName)
      (targets (.of files reader s.descriptorName) (listSources files s sources).1) d.store := by
  obtain ⟨n, hend⟩ := exists_endsIn_of_discover h hskipped
  exact hend.finds hplace hskipped

end Discovery
end Loadout
