import DropletFs.Model.Parents
import DropletFs.Model.Sample
import DropletFs.Rename.ByValue
import DropletFs.Table.Calls

/-! The parent of a path, as the three functions that look for it find it. -/

namespace DropletFs

open CText

/-- The text of a path before its last slash, or the root when that is empty. -/
def parentOf (path : Path) : Path :=
  if (beforeLastSlash path).getD [] = [] then rootPath else (beforeLastSlash path).getD []

/-- A call that returns 0 has taken the path from the list of `dir` once. -/
def RemovesFrom (dir path : Path) (s : World) : Except Fault (Int × World) → Prop
  | .error _ => False
  | .ok (ret, t) => ret = 0 →
    (t.entry dir).map (·.dirent) = (s.entry dir).map fun pe => pe.dirent.erase path

/-- The three functions look up the parent of a path, act on its entry, and give back the strings
they were given. -/
structure ParentsAgree (cx : Ctx) (env : Env) (s : World) (path newpath : Path) : Prop where
  fillKey : (hashFillDirentBytes s path).1 = [some (parentOf path)]
  fillEntry : (hashFillDirentBytes s path).2.1 =
    s.onEntry (parentOf path) fun dir => pentryAddDirent dir path
  fillBytes : (hashFillDirentBytes s path).2.2 = path
  parentKey : (pentryGetParentBytes s path).1 = [some (parentOf path)]
  parentEntry : (pentryGetParentBytes s path).2 = .ok (s.hash (parentOf path))
  renameEntry : RemovesFrom (parentOf path) path s (renameFileBytes cx env s path newpath).2.1
  renameBytes : (renameFileBytes cx env s path newpath).2.2 = newpath

section Bytes

variable {cx : Ctx} {env : Env} {s : World} {path newpath : Path}

theorem parentOf_root {x : CStr} (hx : '/' ∉ x) : parentOf ('/' :: x) = rootPath := by
  rw [parentOf, show beforeLastSlash ('/' :: x) = some [] from beforeLastSlash_append (d := []) hx]
  rfl

theorem strrchr_split {d x : CStr} (hx : '/' ∉ x) : strrchr (d ++ '/' :: x) = some d.length := by
  rw [strrchr, beforeLastSlash_append hx]
  rfl

/-- What is in the table decides what `hash_fill_dirent` gives back. -/
theorem hashFillDirentBytes_spec {d x : CStr} (hx : '/' ∉ x) (hn : nul ∉ d ++ '/' :: x) :
    hashFillDirentBytes s (d ++ '/' :: x) =
      ([some (parentOf (d ++ '/' :: x))],
        s.onEntry (parentOf (d ++ '/' :: x)) fun dir => pentryAddDirent dir (d ++ '/' :: x),
        if d = [] ∨ (s.hash d).isSome then d ++ '/' :: x else d ++ nul :: x) := by
  have hd : nul ∉ d := fun h => hn (List.mem_append_left _ h)
  have hnone : ∀ {key : Path} {f : Entry → Entry}, s.hash key = none → s.onEntry key f = s := by
    intro key f h
    simp [World.onEntry, h]
  unfold hashFillDirentBytes parentOf
  rw [strrchr_split hx, beforeLastSlash_append hx]
  dsimp only
  by_cases he : d = []
  · subst he
    simp only [List.length_nil, if_true, Option.getD_some, List.nil_append, true_or]
    cases hr : s.hash rootPath with
    | none => simp [hnone hr]
    | some a =>
      have hne : ('/' :: x)[0]? ≠ some nul := by
        rw [List.getElem?_cons_zero]
        decide
      simp only [if_neg hne, cstr_of_notMem (p := '/' :: x) hn]
  · have hlen : d.length ≠ 0 := by simpa using he
    simp only [if_neg hlen, set_at_length, cstr_cut hd, Option.getD_some, he, if_false, false_or]
    cases hr : s.hash d with
    | none => simp [hnone hr]
    | some a =>
      have hcut : (d ++ nul :: x)[d.length]? = some nul := by simp
      rw [if_pos hcut]
      simp [cstr_of_notMem hn]

/-- `pentry_get_parent` looks up a name for the entries of the root only. -/
theorem pentryGetParentBytes_root {x : CStr} (hx : '/' ∉ x) :
    pentryGetParentBytes s ('/' :: x) = ([some rootPath], .ok (s.hash rootPath)) := by
  have hcut : tmpstr ('/' :: x) = [] ++ '/' :: x.take (tmpstrMax - 2) := rfl
  unfold pentryGetParentBytes
  rw [hcut, strrchr_split fun h => hx (List.mem_of_mem_take h)]
  rfl

theorem pentryGetParentBytes_root_iff {d x : CStr} (hx : '/' ∉ x) :
    (pentryGetParentBytes s (d ++ '/' :: x)).1 = [some (parentOf (d ++ '/' :: x))] ↔ d = [] := by
  constructor
  · intro h
    by_contra hd
    unfold pentryGetParentBytes at h
    cases hj : strrchr (tmpstr (d ++ '/' :: x)) with
    | none =>
      rw [hj] at h
      cases h
    | some j =>
      rw [hj] at h
      dsimp only at h
      split_ifs at h with h0
      · -- the copy has another slash behind its first byte
        have hroot : d = rootPath := by
          simpa [parentOf, beforeLastSlash_append hx, hd, eq_comm] using h
        have hcut : tmpstr (d ++ '/' :: x) = ['/'] ++ '/' :: x.take (tmpstrMax - 3) := by
          rw [hroot]
          rfl
        rw [hcut, strrchr_split fun hm => hx (List.mem_of_mem_take hm), h0] at hj
        cases hj
      · cases h
  · intro h
    subst h
    rw [List.nil_append, pentryGetParentBytes_root hx, parentOf_root hx]

/-- `rename_file` gives its second path back, whatever it finds. -/
theorem renameFileBytes_eq (cx : Ctx) (env : Env) (s : World) (path : Path) (hn : nul ∉ newpath) :
    (renameFileBytes cx env s path newpath).2 =
      (renameFile cx env s (.ext path) (.ext newpath), newpath) := by
  unfold renameFileBytes renameFile
  simp only [World.text, Str.read]
  generalize dplFcopy env s.store path newpath = copied
  obtain ⟨rc, store⟩ := copied
  cases rc with
  | success =>
    dsimp only
    cases hb : beforeLastSlash newpath with
    | none => simp [strrchr, renameDirname, hb]
    | some d =>
      obtain ⟨x, rfl, hx⟩ := beforeLastSlash_some hb
      have hd : nul ∉ d := fun h => hn (List.mem_append_left _ h)
      cases d with
      | nil =>
        rw [strrchr_split hx]
        simp only [List.length_nil, if_true, renameDirname, hb]
      | cons c cs =>
        have hlen : (c :: cs).length ≠ 0 := by simp
        rw [strrchr_split hx]
        simp only [if_neg hlen, set_at_length, cstr_cut hd, renameDirname, hb]
  | _ => rfl

end Bytes

section Rename

variable {cx : Ctx} {env : Env} {s : World} {path newpath : Path}

/-- How often `dfs_unlink` takes a path from the list of the root once the store has let it, unless
it faults: the parent is read from the freed entry. -/
def unlinkRemovals (env : Env) (s : World) (path : Path) : Option Nat :=
  match s.hash path with
  | none => some 0
  | some _ => do
    let freed ← env.stale path
    match pentryGetParent (tmpstr freed) with
    | .error _ => none
    | .ok none => some 0
    | .ok (some _) => some 1

/-- `rename_file` looks up the directory of its second path first. -/
def removals (env : Env) (s : World) (path newpath : Path) : Option Nat :=
  (unlinkRemovals env s path).map (· + if renameDirname newpath = some rootPath then 1 else 0)

/-- The call faults, or returns 0 with the path taken so often from the list of the root. -/
def TakesTimes (s : World) (path : Path) (r : Except Fault (Int × World)) : Option Nat → Prop
  | none => ∃ e, r = .error e
  | some k => ∃ t, r = .ok (0, t) ∧
    t.entry rootPath = (s.entry rootPath).map (pentryRemoveDirent · path)^[k]

theorem World.onEntry_entry_self (s : World) (p : Path) (f : Entry → Entry) :
    (s.onEntry p f).entry p = (s.entry p).map f := by
  unfold World.onEntry World.entry
  cases hh : s.hash p with
  | none => simp [hh]
  | some a =>
    cases ha : s.heap a with
    | none => simp [hh, ha]
    | some pe => simp [hh, ha, World.setEntry]

theorem World.Inv.addr_ne (hi : s.Inv) {p q : Path} {a b : Addr} (hne : q ≠ p)
    (hp : s.hash p = some a) (hq : s.hash q = some b) : b ≠ a := by
  intro he
  subst he
  obtain ⟨pe, ha, hpath⟩ := hi.entry p b hp
  obtain ⟨qe, hb, hqpath⟩ := hi.entry q b hq
  obtain rfl : pe = qe := Option.some.inj (ha.symm.trans hb)
  exact hne (hqpath.symm.trans hpath)

theorem World.Inv.onEntry_entry_of_ne (hi : s.Inv) {p q : Path} (hne : q ≠ p)
    (f : Entry → Entry) : (s.onEntry p f).entry q = s.entry q := by
  unfold World.onEntry World.entry
  cases hh : s.hash p with
  | none => rfl
  | some a =>
    cases ha : s.heap a with
    | none => simp [ha]
    | some pe =>
      cases hq : s.hash q with
      | none => simp [ha, hq]
      | some b => simp [ha, hq, World.setEntry, hi.addr_ne hne hh hq]

theorem World.Inv.hashRemove_entry_of_ne (hi : s.Inv) {p q : Path} (hne : q ≠ p) :
    (s.hashRemove p).entry q = s.entry q := by
  unfold World.entry
  rw [World.hashRemove_hash, if_neg hne]
  cases hq : s.hash q with
  | none => rfl
  | some b =>
    rw [Option.bind_some, Option.bind_some, World.hashRemove_heap, if_neg]
    intro hp
    exact hi.addr_ne hne hp hq rfl

theorem unlinkEntry_ext (env : Env) (s : World) (path : Path) :
    unlinkEntry env s (.ext path) = match env.stale path with
      | none => .error .useAfterFree
      | some freed =>
        let t := { s.hashRemove path with ring := s.ring.push (tmpstr freed) }
        (pentryGetParent (tmpstr freed)).map fun parent => (0, match parent with
          | none => t
          | some parent => t.onEntry parent fun dir => pentryRemoveDirent dir path) := by
  unfold unlinkEntry
  have htext : ∀ t : World, t.text (.ext path) = path := fun _ => rfl
  simp only [htext]
  cases env.stale path with
  | none => rfl
  | some freed =>
    have hno : .tmp (s.hashRemove path).ring.next ∉ [Str.ext freed] := by simp
    dsimp only
    rw [World.tmpstrPrintf_of_notMem hno]
    simp only [bind, Except.bind, World.text, Str.read, List.flatMap_cons, List.flatMap_nil,
      List.append_nil, World.hashRemove_ring]
    rw [RingBuffer.push_slots_next]
    cases pentryGetParent (tmpstr freed) with
    | error e => rfl
    | ok parent =>
      cases parent with
      | none => rfl
      | some parent => rfl

/-- The parent read from a freed entry is the root, if there is one. -/
theorem pentryGetParent_some {text : CStr} {parent : Path}
    (h : pentryGetParent text = .ok (some parent)) : parent = rootPath := by
  unfold pentryGetParent at h
  split at h
  · cases h
  · cases h
    rfl
  · cases h

/-- The list of the root after an unlink that the store takes. -/
theorem dfsUnlink_root (cx : Ctx) (hi : s.Inv) (hne : rootPath ≠ path)
    (hunlink : (dplUnlink env s.store path).1 = .success) :
    TakesTimes s path (dfsUnlink cx env s (.ext path)) (unlinkRemovals env s path) := by
  generalize hu :
    { s with store := (dplUnlink env s.store path).2 }.withoutCacheFile cx env path = u
  have hentry : u.entry = s.entry := by rw [← hu]; rfl
  have hhash : u.hash = s.hash := by rw [← hu]; rfl
  have hui : u.Inv := by
    rw [← hu]
    exact (hi.tryUnlink env _ (slashName cx path)).congr rfl rfl rfl rfl
  have heq : dfsUnlink cx env s (.ext path) = match s.hash path with
      | none => .ok (0, u)
      | some _ => unlinkEntry env u (.ext path) := by
    unfold dfsUnlink
    have htext : ∀ t : World, t.text (.ext path) = path := fun _ => rfl
    simp only [htext]
    generalize dplUnlink env s.store path = removed at hunlink hu
    obtain ⟨rc, store⟩ := removed
    dsimp only at hunlink
    subst hunlink
    have hlasts : ({ s with store := store } : World).Lasts (.ext path) (0 + 1) := trivial
    dsimp only
    rw [World.unlinkCacheFile_eq hlasts, ← hhash, ← hu]
    rfl
  unfold unlinkRemovals
  rw [heq]
  cases hh : s.hash path with
  | none => exact ⟨u, rfl, by rw [hentry]; simp⟩
  | some a =>
    dsimp only
    rw [unlinkEntry_ext]
    cases env.stale path with
    | none => exact ⟨_, rfl⟩
    | some freed =>
      have hroot : ∀ ring : Ring, ({ u.hashRemove path with ring := ring } : World).entry rootPath =
          s.entry rootPath := fun _ =>
        (hui.hashRemove_entry_of_ne hne).trans (congrFun hentry rootPath)
      simp only [bind, Option.bind_some]
      cases hp : pentryGetParent (tmpstr freed) with
      | error e => exact ⟨e, rfl⟩
      | ok parent =>
        cases parent with
        | none => exact ⟨_, rfl, (hroot _).trans (by simp)⟩
        | some parent =>
          obtain rfl := pentryGetParent_some hp
          refine ⟨_, rfl, ?_⟩
          rw [World.onEntry_entry_self, hroot]
          rfl

/-- The list of the root after a `rename_file` that the store takes. -/
theorem renameFile_root (cx : Ctx) (hi : s.Inv) (hne : rootPath ≠ path)
    (hcopy : (dplFcopy env s.store path newpath).1 = .success)
    (hunlink : (dplUnlink env (dplFcopy env s.store path newpath).2 path).1 = .success) :
    TakesTimes s path (renameFile cx env s (.ext path) (.ext newpath))
      (removals env s path newpath) := by
  unfold renameFile
  have htext : ∀ (t : World) p, t.text (.ext p) = p := fun _ _ => rfl
  simp only [htext]
  generalize dplFcopy env s.store path newpath = copied at hcopy hunlink
  obtain ⟨rc, store⟩ := copied
  dsimp only at hcopy hunlink
  subst hcopy
  dsimp only
  have hsi : ({ s with store := store } : World).Inv := hi.congr rfl rfl rfl rfl
  have hstep : ∀ u : World, u.Inv → u.store = store → u.hash = s.hash → ∀ j,
      u.entry rootPath = (s.entry rootPath).map (pentryRemoveDirent · path)^[j] →
      TakesTimes s path (dfsUnlink cx env u (.ext path))
        ((unlinkRemovals env s path).map (· + j)) := by
    intro u hui hst hhash j hj
    have htakes := dfsUnlink_root cx hui hne (by rw [hst]; exact hunlink)
    have hsame : unlinkRemovals env u path = unlinkRemovals env s path := by
      unfold unlinkRemovals
      rw [hhash]
    rw [hsame] at htakes
    cases hk : unlinkRemovals env s path with
    | none =>
      rw [hk] at htakes
      exact htakes
    | some k =>
      rw [hk] at htakes
      obtain ⟨t, ht, hroot⟩ := htakes
      refine ⟨t, ht, ?_⟩
      rw [hroot, hj, Option.map_map, Function.iterate_add]
  unfold removals
  cases hd : renameDirname newpath with
  | none => exact hstep _ hsi rfl rfl 0 (by simp; rfl)
  | some dirname =>
    dsimp only
    obtain ⟨heap, hheap⟩ := World.onEntry_eq { s with store := store } dirname
      fun dir => pentryRemoveDirent dir path
    have hui := onEntry_removeDirent_inv hsi dirname path
    have hst : (World.onEntry { s with store := store } dirname
      fun dir => pentryRemoveDirent dir path).store = store := by rw [hheap]
    have hh : (World.onEntry { s with store := store } dirname
      fun dir => pentryRemoveDirent dir path).hash = s.hash := by rw [hheap]
    by_cases hr : dirname = rootPath
    · subst hr
      rw [if_pos rfl]
      exact hstep _ hui hst hh 1 (World.onEntry_entry_self _ _ _)
    · rw [if_neg fun he => hr (Option.some.inj he)]
      refine hstep _ hui hst hh 0 ?_
      rw [hsi.onEntry_entry_of_ne (Ne.symm hr)]
      simp
      rfl

theorem count_iterate_erase (k : Nat) (l : List Path) :
    ((·.erase path)^[k] l).count path = l.count path - k := by
  induction k generalizing l with
  | zero => rfl
  | succ k ih =>
    rw [Function.iterate_succ_apply, ih, List.count_erase_self]
    omega

/-- Taking a path from a list so often is the same as taking it once. -/
theorem iterate_erase_iff {k : Nat} {l : List Path} : (·.erase path)^[k] l = l.erase path ↔
    (path ∈ l → 0 < k ∧ (k = 1 ∨ l.count path = 1)) := by
  have hfixed : ∀ {j : Nat} {m : List Path}, path ∉ m → (·.erase path)^[j] m = m := by
    intro j m hm
    exact Function.iterate_fixed (List.erase_of_not_mem hm) j
  constructor
  · intro h hmem
    have hpos := List.count_pos_iff.mpr hmem
    have hcount := congrArg (List.count path) h
    rw [count_iterate_erase, List.count_erase_self] at hcount
    omega
  · intro h
    by_cases hmem : path ∈ l
    · obtain ⟨hk, h1⟩ := h hmem
      obtain ⟨j, rfl⟩ := Nat.exists_eq_succ_of_ne_zero hk.ne'
      rw [Function.iterate_succ_apply]
      rcases h1 with h1 | h1
      · obtain rfl : j = 0 := by omega
        rfl
      · apply hfixed
        rw [← List.count_eq_zero, List.count_erase_self, h1]
    · rw [hfixed hmem, List.erase_of_not_mem hmem]

theorem iterate_removeDirent (k : Nat) (pe : Entry) :
    ((pentryRemoveDirent · path)^[k] pe).dirent =
      if pe.filetype = .dir then (·.erase path)^[k] pe.dirent else pe.dirent := by
  induction k generalizing pe with
  | zero => simp
  | succ k ih =>
    rw [Function.iterate_succ_apply, ih, pentryRemoveDirent]
    by_cases hd : pe.filetype = .dir
    · simp [hd]
    · simp [hd]

/-- The store refuses a step of `rename_file`, or the path goes once from the list of the root if
it is there. -/
def RenameReaches (env : Env) (s : World) (path newpath : Path) : Prop :=
  (dplFcopy env s.store path newpath).1 ≠ .success ∨
  (dplUnlink env (dplFcopy env s.store path newpath).2 path).1 ≠ .success ∨
  ∃ k, removals env s path newpath = some k ∧
    ∀ pe, s.entry rootPath = some pe → path ∈ pe.dirent →
      pe.filetype = .dir ∧ 0 < k ∧ (k = 1 ∨ pe.dirent.count path = 1)

theorem takesTimes_removes_iff {r : Except Fault (Int × World)} {k : Nat}
    (h : TakesTimes s path r (some k)) : RemovesFrom rootPath path s r ↔
      ∀ pe, s.entry rootPath = some pe → path ∈ pe.dirent →
        pe.filetype = .dir ∧ 0 < k ∧ (k = 1 ∨ pe.dirent.count path = 1) := by
  obtain ⟨t, rfl, hroot⟩ := h
  unfold RemovesFrom
  dsimp only
  rw [forall_prop_of_true rfl, hroot]
  cases he : s.entry rootPath with
  | none => simp
  | some pe =>
    simp only [Option.map_some, Option.some.injEq, iterate_removeDirent]
    by_cases hd : pe.filetype = .dir
    · rw [if_pos hd, iterate_erase_iff]
      simp [hd]
    · rw [if_neg hd, eq_comm, List.erase_eq_self_iff]
      simp [hd]

/-- A removal the store refuses is reported. -/
theorem dfsUnlink_refused (cx : Ctx) (h : (dplUnlink env s.store path).1 ≠ .success) :
    ∃ t, dfsUnlink cx env s (.ext path) = .ok (1, t) := by
  unfold dfsUnlink
  have htext : s.text (.ext path) = path := rfl
  rw [htext]
  generalize dplUnlink env s.store path = removed at h
  obtain ⟨rc, store⟩ := removed
  cases rc with
  | success => exact (h rfl).elim
  | _ => exact ⟨_, rfl⟩

/-- So is a copy. -/
theorem renameFile_refused (h : (dplFcopy env s.store path newpath).1 ≠ .success ∨
    (dplUnlink env (dplFcopy env s.store path newpath).2 path).1 ≠ .success) :
    ∃ ret t, ret ≠ 0 ∧ renameFile cx env s (.ext path) (.ext newpath) = .ok (ret, t) := by
  unfold renameFile
  have htext : ∀ (t : World) p, t.text (.ext p) = p := fun _ _ => rfl
  simp only [htext]
  generalize dplFcopy env s.store path newpath = copied at h
  obtain ⟨rc, store⟩ := copied
  cases rc with
  | success =>
    have hunlink := h.resolve_left fun hs => hs rfl
    dsimp only
    cases renameDirname newpath with
    | none =>
      obtain ⟨t, ht⟩ := dfsUnlink_refused cx (s := { s with store := store }) hunlink
      exact ⟨1, t, by decide, ht⟩
    | some dirname =>
      dsimp only
      obtain ⟨heap, hheap⟩ := World.onEntry_eq { s with store := store } dirname
        fun dir => pentryRemoveDirent dir path
      rw [hheap]
      obtain ⟨t, ht⟩ := dfsUnlink_refused cx
        (s := { s with store := store, heap := heap }) hunlink
      exact ⟨1, t, by decide, ht⟩
  | _ => exact ⟨-1, _, by decide, rfl⟩

theorem RemovesFrom.of_refused {dir : Path} {r : Except Fault (Int × World)}
    (h : ∃ ret t, ret ≠ 0 ∧ r = .ok (ret, t)) : RemovesFrom dir path s r := by
  obtain ⟨ret, t, hne, rfl⟩ := h
  exact fun h0 => (hne h0).elim

theorem renameFile_removes_iff (hi : s.Inv) (hne : rootPath ≠ path) :
    RemovesFrom rootPath path s (renameFile cx env s (.ext path) (.ext newpath)) ↔
      RenameReaches env s path newpath := by
  by_cases hcopy : (dplFcopy env s.store path newpath).1 = .success
  swap
  · exact iff_of_true (.of_refused (renameFile_refused (.inl hcopy))) (.inl hcopy)
  by_cases hunlink : (dplUnlink env (dplFcopy env s.store path newpath).2 path).1 = .success
  swap
  · exact iff_of_true (.of_refused (renameFile_refused (.inr hunlink))) (.inr (.inl hunlink))
  have htakes := renameFile_root cx hi hne hcopy hunlink
  unfold RenameReaches
  simp only [hcopy, hunlink, ne_eq, not_true_eq_false, false_or]
  cases hk : removals env s path newpath with
  | none =>
    rw [hk] at htakes
    obtain ⟨e, he⟩ := htakes
    rw [he]
    simp [RemovesFrom]
  | some k =>
    rw [hk] at htakes
    rw [takesTimes_removes_iff htakes]
    simp

end Rename

/-- The three functions agree on the parent of a path exactly for the files of the root that a
rename takes from the root's list. -/
theorem parents_agree_iff (cx : Ctx) (env : Env) {s : World} (hi : s.Inv) {path newpath : Path}
    (habs : path.head? = some '/') (hr : path ≠ rootPath) (hp : nul ∉ path) (hn : nul ∉ newpath) :
    ParentsAgree cx env s path newpath ↔
      beforeLastSlash path = some [] ∧ RenameReaches env s path newpath := by
  obtain ⟨d, hd⟩ : ∃ d, beforeLastSlash path = some d := by
    cases hb : beforeLastSlash path with
    | some d => exact ⟨d, rfl⟩
    | none =>
      have hslash := beforeLastSlash_none.mp hb
      exact absurd (List.mem_of_head? habs) hslash
  obtain ⟨x, rfl, hx⟩ := beforeLastSlash_some hd
  have hfill := hashFillDirentBytes_spec (s := s) hx hp
  have hren := renameFileBytes_eq cx env s (d ++ '/' :: x) hn
  have hpar : d = [] → parentOf (d ++ '/' :: x) = rootPath := by
    rintro rfl
    exact parentOf_root hx
  constructor
  · intro h
    have hroot := (pentryGetParentBytes_root_iff hx).mp h.parentKey
    have hentry := h.renameEntry
    rw [hren, hpar hroot, renameFile_removes_iff hi (Ne.symm hr)] at hentry
    exact ⟨by rw [hd, hroot], hentry⟩
  · intro h
    obtain ⟨hroot, hreach⟩ := h
    obtain rfl : d = [] := Option.some.inj (hd.symm.trans hroot)
    have hget : pentryGetParentBytes s ([] ++ '/' :: x) =
        ([some rootPath], .ok (s.hash rootPath)) := pentryGetParentBytes_root hx
    constructor
    · rw [hfill]
    · rw [hfill]
    · rw [hfill]
      simp
    · rw [hget, hpar rfl]
    · rw [hget, hpar rfl]
    · rw [hren, hpar rfl, renameFile_removes_iff hi (Ne.symm hr)]
      exact hreach
    · rw [hren]

/-- The root lists `/f`, and both are in the table. -/
def Sample.listed : World :=
  ((Sample.daemon [(['/', 'f'], Sample.file [1])]).world.insertEntry rootPath
    { pentryNew Env.quiet rootPath .dir with dirent := [['/', 'f']] }).insertEntry ['/', 'f']
      (pentryNew Env.quiet ['/', 'f'] .reg)

theorem Sample.listed_inv : Sample.listed.Inv := by
  have hi : (Sample.daemon [(['/', 'f'], Sample.file [1])]).world.Inv :=
    Daemon.init_inv Sample.fs_wf
  have hroot : ({ pentryNew Env.quiet rootPath .dir with dirent := [['/', 'f']] } : Entry).ondisk ≠
      .loc := by decide
  have hfile : (pentryNew Env.quiet ['/', 'f'] .reg).ondisk ≠ .loc := by decide
  exact (hi.insertEntry (p := rootPath) rfl rfl rfl hroot).insertEntry (p := ['/', 'f'])
    (by decide) rfl rfl hfile

/-- The path of a freed entry can still be read. -/
def readable : Env := { Env.quiet with stale := some }

/-- A file of the root is renamed in it, and goes from the root's list. -/
theorem parents_agree_sample :
    ParentsAgree Sample.plain readable Sample.listed ['/', 'f'] ['/', 'g'] := by
  refine (parents_agree_iff Sample.plain readable Sample.listed_inv rfl (by decide) (by decide)
    (by decide)).mpr ⟨by decide, .inr (.inr ⟨1, rfl, ?_⟩)⟩
  intro pe he _
  obtain rfl := Option.some.inj he
  exact ⟨rfl, by decide, .inl rfl⟩

/-- Below a directory the key is `NULL`, and without an entry for the directory the path comes back
cut. -/
theorem parent_key_null :
    (pentryGetParentBytes (Sample.daemon []).world ['/', 'd', '/', 'f']).1 = [none] ∧
      (hashFillDirentBytes (Sample.daemon []).world ['/', 'd', '/', 'f']).2.2 =
        ['/', 'd', nul, 'f'] ∧
      ¬ParentsAgree Sample.plain Env.quiet (Sample.daemon []).world ['/', 'd', '/', 'f']
        ['/', 'g'] := by
  refine ⟨rfl, rfl, fun h => ?_⟩
  exact absurd h.fillBytes (by decide)

end DropletFs
