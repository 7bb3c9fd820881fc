import DropletFs.Model.Daemon
import DropletFs.Table.Callbacks

/-! Callbacks that remove entries, and the invariant of the table in every reachable
state. -/

namespace DropletFs

open CText LocalFs

theorem onEntry_removeDirent_inv {s : World} (hi : s.Inv) (p q : Path) :
    (s.onEntry p fun dir => pentryRemoveDirent dir q).Inv :=
  hi.onEntry (fun pe => (pentryRemoveDirent_fields pe q).1)
    (fun pe => (pentryRemoveDirent_fields pe q).2.1)
    (fun pe => (pentryRemoveDirent_fields pe q).2.2.1)

theorem onEntry_removeDirent_keeps (s : World) (p q : Path) :
    s.Keeps (s.onEntry p fun dir => pentryRemoveDirent dir q) :=
  .onEntry (fun pe => (pentryRemoveDirent_fields pe q).1)
    (fun pe => (pentryRemoveDirent_fields pe q).2.1)
    (fun pe => (pentryRemoveDirent_fields pe q).2.2.2)

/-- The end of `dfs_unlink`: the entry is gone, and its parent's list may be shorter. -/
theorem unlinkEntry_cases {env : Env} {s t : World} {path : Str} {ret : Int}
    (h : unlinkEntry env s path = .ok (ret, t)) :
    ret = 0 ∧ ∃ freed u, env.stale (s.text path) = some freed ∧
      u = { s.hashRemove (s.text path) with ring := s.ring.push (tmpstr freed) } ∧
      (pentryGetParent (tmpstr freed) = .ok none ∧ t = u ∨
        ∃ parent, pentryGetParent (tmpstr freed) = .ok (some parent) ∧
          t = u.onEntry parent fun dir => pentryRemoveDirent dir (u.text path)) := by
  have htext : (s.hashRemove (s.text path)).text path = s.text path := by
    simp only [World.text, World.hashRemove_ring]
  unfold unlinkEntry at h
  dsimp only at h
  rw [htext] at h
  cases hs : env.stale (s.text path) with
  | none => simp [hs] at h
  | some freed =>
    rw [hs] at h
    obtain ⟨⟨buf, u⟩, hp, h⟩ := Except.bind_ok.mp h
    obtain ⟨_, hbuf, rfl⟩ := World.tmpstrPrintf_ok hp
    obtain ⟨parent, hparent, h⟩ := Except.bind_ok.mp h
    subst hbuf
    replace hparent : pentryGetParent (tmpstr freed) = .ok parent := by
      rw [← hparent]
      simp [World.text, Str.read, tmpstr]
    cases parent with
    | none =>
      simp only [Except.ok.injEq, Prod.mk.injEq] at h
      obtain ⟨rfl, rfl⟩ := h
      refine ⟨rfl, freed, _, rfl, ?_, .inl ⟨hparent, rfl⟩⟩
      simp [World.text, Str.read, tmpstr]
    | some parent =>
      simp only [Except.ok.injEq, Prod.mk.injEq] at h
      obtain ⟨rfl, rfl⟩ := h
      refine ⟨rfl, freed, _, rfl, ?_, .inr ⟨parent, hparent, rfl⟩⟩
      simp [World.text, Str.read, tmpstr]

theorem unlinkEntry_inv {env : Env} {s t : World} {path : Str} {ret : Int} (hi : s.Inv)
    (h : unlinkEntry env s path = .ok (ret, t)) : t.Inv := by
  obtain ⟨_, freed, u, _, rfl, ht⟩ := unlinkEntry_cases h
  have hu : { s.hashRemove (s.text path) with ring := s.ring.push (tmpstr freed) }.Inv :=
    (hi.hashRemove _).congr rfl rfl rfl rfl
  rcases ht with ⟨_, rfl⟩ | ⟨parent, _, rfl⟩
  · exact hu
  · exact onEntry_removeDirent_inv hu _ _

/-- The cache file of `path` is gone unless its removal failed, and its name is in the ring. -/
def World.withoutCacheFile (cx : Ctx) (env : Env) (s : World) (path : Path) : World :=
  { s with
    ring := s.ring.push (slashName cx path)
    fs := s.fs.tryUnlink env (.unlinkCache path) (slashName cx path) }

@[simp] theorem World.withoutCacheFile_fds (cx : Ctx) (env : Env) (s : World) (path : Path) :
    (s.withoutCacheFile cx env path).fs.fds = s.fs.fds := tryUnlink_fds _ _ _ _

@[simp] theorem World.withoutCacheFile_inodes (cx : Ctx) (env : Env) (s : World) (path : Path) :
    (s.withoutCacheFile cx env path).fs.inodes = s.fs.inodes := tryUnlink_inodes _ _ _ _

/-- A removal in the cache leaves the table as it is, whether it goes through or not. -/
theorem World.Inv.tryUnlink {s : World} (hi : s.Inv) (env : Env) (call : SysCall) (name : Path) :
    World.Inv { s with fs := s.fs.tryUnlink env call name } :=
  hi.withFs (hi.wf.tryUnlink env call name) (by simp)

theorem World.unlinkCacheFile_ok {cx : Ctx} {env : Env} {s t : World} {path : Str}
    (h : s.unlinkCacheFile cx env path = .ok t) :
    .tmp s.ring.next ≠ path ∧ t = s.withoutCacheFile cx env (s.text path) := by
  unfold World.unlinkCacheFile at h
  obtain ⟨⟨buf, u⟩, hp, h⟩ := Except.bind_ok.mp h
  obtain ⟨hno, rfl, rfl⟩ := World.tmpstrPrintf_ok hp
  simp only [Except.ok.injEq] at h
  refine ⟨by simpa using hno, ?_⟩
  rw [← h]
  simp [World.withoutCacheFile, slashName, tmpstr, World.text, Str.read]

/-- What `dfs_unlink` leaves: nothing but the store may have changed, or the cache file is
gone and so is the entry, if there was one. -/
theorem dfsUnlink_cases {cx : Ctx} {env : Env} {s t : World} {path : Str} {ret : Int}
    (h : dfsUnlink cx env s path = .ok (ret, t)) :
    ret = 1 ∧ (dplUnlink env s.store (s.text path)).1 ≠ .success ∧
      t = { s with store := (dplUnlink env s.store (s.text path)).2 } ∨
    ∃ store u, dplUnlink env s.store (s.text path) = (.success, store) ∧
      .tmp s.ring.next ≠ path ∧
      u = { s with store := store }.withoutCacheFile cx env (s.text path) ∧
      (ret = 0 ∧ s.hash (u.text path) = none ∧ t = u ∨
        (s.hash (u.text path)).isSome ∧ unlinkEntry env u path = .ok (ret, t)) := by
  unfold dfsUnlink at h
  split at h
  · rename_i store hst
    obtain ⟨u, hu, h⟩ := Except.bind_ok.mp h
    obtain ⟨hno, rfl⟩ := World.unlinkCacheFile_ok hu
    refine .inr ⟨store, _, hst, hno, rfl, ?_⟩
    split at h
    · rename_i hn
      simp only [Except.ok.injEq, Prod.mk.injEq] at h
      exact .inl ⟨h.1.symm, hn, h.2.symm⟩
    · rename_i a hs
      refine .inr ⟨?_, h⟩
      change s.hash _ = _ at hs
      exact hs ▸ rfl
  · rename_i rc store hne hst
    simp only [Except.ok.injEq, Prod.mk.injEq] at h
    rw [hst]
    exact .inl ⟨h.1.symm, hne, h.2.symm⟩

theorem dfsUnlink_inv {cx : Ctx} {env : Env} {s t : World} {path : Str} {ret : Int}
    (hi : s.Inv) (h : dfsUnlink cx env s path = .ok (ret, t)) : t.Inv := by
  rcases dfsUnlink_cases h with ⟨_, _, rfl⟩ | ⟨store, u, _, _, rfl, hcase⟩
  · exact hi.congr rfl rfl rfl rfl
  · have hu : ({ s with store := store }.withoutCacheFile cx env (s.text path)).Inv :=
      (hi.tryUnlink env _ (slashName cx (s.text path))).congr rfl rfl rfl rfl
    rcases hcase with ⟨_, _, rfl⟩ | ⟨_, he⟩
    · exact hu
    · exact unlinkEntry_inv hu he

theorem renameFile_cases {cx : Ctx} {env : Env} {s t : World} {oldpath newpath : Str} {ret : Int}
    (h : renameFile cx env s oldpath newpath = .ok (ret, t)) :
    ret = -1 ∧ (dplFcopy env s.store (s.text oldpath) (s.text newpath)).1 ≠ .success ∧
      t = { s with store := (dplFcopy env s.store (s.text oldpath) (s.text newpath)).2 } ∨
    ∃ store u, dplFcopy env s.store (s.text oldpath) (s.text newpath) = (.success, store) ∧
      (u = { s with store := store } ∨ ∃ dirname,
        renameDirname (s.text newpath) = some dirname ∧
        u = { s with store := store }.onEntry dirname
          fun dir => pentryRemoveDirent dir (s.text oldpath)) ∧
      dfsUnlink cx env u oldpath = .ok (ret, t) := by
  unfold renameFile at h
  split at h
  · rename_i store hst
    dsimp only at h
    refine .inr ⟨store, _, hst, ?_, h⟩
    split
    · rename_i dirname hd
      exact .inr ⟨dirname, hd, rfl⟩
    · exact .inl rfl
  · rename_i rc store hne hst
    simp only [Except.ok.injEq, Prod.mk.injEq] at h
    rw [hst]
    exact .inl ⟨h.1.symm, hne, h.2.symm⟩

theorem renameFile_inv {cx : Ctx} {env : Env} {s t : World} {oldpath newpath : Str} {ret : Int}
    (hi : s.Inv) (h : renameFile cx env s oldpath newpath = .ok (ret, t)) : t.Inv := by
  rcases renameFile_cases h with ⟨_, _, rfl⟩ | ⟨store, u, _, hu, ht⟩
  · exact hi.congr rfl rfl rfl rfl
  · refine dfsUnlink_inv ?_ ht
    have hst : { s with store := store }.Inv := hi.congr rfl rfl rfl rfl
    rcases hu with rfl | ⟨dirname, _, rfl⟩
    · exact hst
    · exact onEntry_removeDirent_inv hst _ _

/-- The ring once the paths of an entry are in it. -/
def entryRing (r : Ring) (oldpath newpath : Str) (name : CStr) : Ring :=
  let src := snprintf tmpstrMax (oldpath.read r ++ '/' :: name)
  let dst := snprintf tmpstrMax (newpath.read (r.push src) ++ '/' :: name)
  (r.push (chopSlash src)).push (chopSlash dst)

theorem World.entryPaths_ok {s t : World} {oldpath newpath src dst : Str} {name : CStr}
    (h : s.entryPaths oldpath newpath name = .ok (src, dst, t)) :
    .tmp s.ring.next ≠ oldpath ∧ .tmp (s.ring.next + 1) ≠ newpath ∧
    src = .tmp s.ring.next ∧ dst = .tmp (s.ring.next + 1) ∧
    t = { s with ring := entryRing s.ring oldpath newpath name } := by
  unfold World.entryPaths at h
  obtain ⟨⟨p, s₁⟩, h1, h⟩ := Except.bind_ok.mp h
  obtain ⟨⟨q, s₂⟩, h2, h⟩ := Except.bind_ok.mp h
  obtain ⟨hno1, rfl, rfl⟩ := World.tmpstrPrintf_ok h1
  obtain ⟨hno2, rfl, rfl⟩ := World.tmpstrPrintf_ok h2
  simp only [Except.ok.injEq, Prod.mk.injEq] at h
  obtain ⟨rfl, rfl, rfl⟩ := h
  refine ⟨by simpa using hno1, by simpa using hno2, rfl, rfl, ?_⟩
  have hlt : 1 < tmpstrNb := by decide
  have hslot := RingBuffer.push_push_slots_next hlt s.ring
  have hne : s.ring.next + 1 ≠ s.ring.next := RingBuffer.next_add_one_ne hlt s.ring
  have hset := RingBuffer.set_push_push hlt s.ring
  have hlast := fun a b => RingBuffer.push_slots_next (s.ring.push a) b
  simp only [RingBuffer.push_next] at hlast
  simp only [World.poke, World.text, Str.read, RingBuffer.push_next, hslot, hlast,
    RingBuffer.set_slots_of_ne hne, hset, entryRing, List.flatMap_cons, List.flatMap_nil,
    List.append_nil, List.singleton_append]

/-- `dfs_rename` takes the type of the old path, or what was left in its variable, and hands
both paths to the handler for it. -/
theorem dfsRename_cases {cx : Ctx} {env : Env} {s t : World} {oldpath newpath : Path} {ret : Int}
    (h : dfsRename cx env s oldpath newpath = .ok (ret, t)) :
    (dplNamei env s.store oldpath).2.getD (env.junk oldpath) = .other ∧ ret = -1 ∧ t = s ∨
    (dplNamei env s.store oldpath).2.getD (env.junk oldpath) = .reg ∧
      (∃ r, ret = (if r = -1 then -1 else 0) ∧ renameFile cx env s (.ext oldpath)
        (.ext (renameTarget oldpath newpath)) = .ok (r, t)) ∨
    (dplNamei env s.store oldpath).2.getD (env.junk oldpath) = .dir ∧
      ∃ r, ret = (if r = -1 then -1 else 0) ∧ renameDirectory cx env env.stack s (.ext oldpath)
        (.ext (renameTarget oldpath newpath)) = .ok (r, t) := by
  unfold dfsRename at h
  dsimp only at h
  cases hf : (dplNamei env s.store oldpath).2.getD (env.junk oldpath) with
  | other =>
    simp only [hf, Except.ok.injEq, Prod.mk.injEq] at h
    exact .inl ⟨rfl, h.1.symm, h.2.symm⟩
  | reg =>
    rw [hf] at h
    obtain ⟨⟨r, u⟩, hr, h⟩ := Except.bind_ok.mp h
    simp only [Except.ok.injEq, Prod.mk.injEq] at h
    obtain ⟨hret, rfl⟩ := h
    exact .inr (.inl ⟨rfl, r, hret.symm, hr⟩)
  | dir =>
    rw [hf] at h
    obtain ⟨⟨r, u⟩, hr, h⟩ := Except.bind_ok.mp h
    simp only [Except.ok.injEq, Prod.mk.injEq] at h
    obtain ⟨hret, rfl⟩ := h
    exact .inr (.inr ⟨rfl, r, hret.symm, hr⟩)

section RenameRule

/-- What the calls a directory rename is made of are to meet, each in the state it is made in. -/
structure RenameGuard where
  mkdir : World → Path → Prop
  file : World → Str → Str → Prop
  rmdir : World → Str → Prop

variable (cx : Ctx) (env : Env) (G : RenameGuard)

/-- The calls of the loop meet the guard. `dirMeets` speaks for those of the nested renames. -/
def renameEntriesMeets (renameDir : Rename) (dirMeets : World → Str → Str → Prop)
    (oldpath newpath : Str) : List CStr → World → FType → Prop
  | [], _, _ => True
  | name :: names, s, type =>
    let s := s.log (.iter (s.text oldpath) (s.text newpath))
    if name = ['.'] ∨ name = ['.', '.'] then
      renameEntriesMeets renameDir dirMeets oldpath newpath names s type
    else ∀ src dst u, s.entryPaths oldpath newpath name = .ok (src, dst, u) →
      let (rc, found) := dplNamei env u.store (u.text src)
      ¬(rc ≠ .success ∧ rc ≠ .enoent) →
        let type := found.getD type
        let u := u.log (.pass (u.text src) (u.text dst))
        (if type = .dir then dirMeets u src dst else G.file u src dst) ∧
        ∀ r v, (if type = .dir then renameDir u src dst else renameFile cx env u src dst) =
            .ok (r, v) →
          renameEntriesMeets renameDir dirMeets oldpath newpath names v type

/-- The calls of `rename_directory` meet the guard. -/
def renameDirectoryMeets : Nat → World → Str → Str → Prop
  | 0, _, _, _ => True
  | depth + 1, s, oldpath, newpath =>
    let s := s.log (.enter (s.text oldpath) (s.text newpath))
    ((dplNamei env s.store (s.text newpath)).1 = .enoent → G.mkdir s (s.text newpath)) ∧
    ∀ type names u, renameSetup env s (s.text oldpath) (s.text newpath) = (.ok (type, names), u) →
      renameEntriesMeets cx env G (renameDirectory cx env depth) (renameDirectoryMeets depth)
        oldpath newpath names u type ∧
      ∀ r v, renameEntries cx env (renameDirectory cx env depth) oldpath newpath names u type 0 =
        .ok (r, v) → r ≠ -1 → G.rmdir v oldpath

/-- The calls of a directory rename preserve a property as long as they meet the guard. -/
structure GuardedSteps (I : World → Prop) : Prop where
  aside : ∀ s ring cwd trace, I s → I { s with ring := ring, cwd := cwd, trace := trace }
  mkdir : ∀ s path, G.mkdir s path → I s → I (dfsMkdir env s path).2
  file : ∀ s oldpath newpath ret t, G.file s oldpath newpath → I s →
    renameFile cx env s oldpath newpath = .ok (ret, t) → I t
  rmdir : ∀ s path ret t, G.rmdir s path → I s → dfsRmdir cx env s path = .ok (ret, t) → I t

section Guarded

variable {cx env G} {I : World → Prop} (hI : GuardedSteps cx env G I)
include hI

theorem renameEntries_guarded {renameDir : Rename} {dirMeets : World → Str → Str → Prop}
    (hd : ∀ s o n ret t, dirMeets s o n → I s → renameDir s o n = .ok (ret, t) → I t)
    (oldpath newpath : Str) (names : List CStr) (s : World) (type : FType) (ret₀ ret : Int)
    (t : World) (hm : renameEntriesMeets cx env G renameDir dirMeets oldpath newpath names s type)
    (hs : I s)
    (h : renameEntries cx env renameDir oldpath newpath names s type ret₀ = .ok (ret, t)) :
    I t := by
  induction names generalizing s type ret₀ with
  | nil =>
    simp only [renameEntries, Except.ok.injEq, Prod.mk.injEq] at h
    rw [← h.2]
    exact hI.aside s s.ring s.cwd _ hs
  | cons name names ih =>
    rw [renameEntries] at h
    rw [renameEntriesMeets] at hm
    have hlog := fun (s : World) e (hs : I s) => hI.aside s s.ring s.cwd (s.trace ++ [e]) hs
    by_cases hdot : name = ['.'] ∨ name = ['.', '.']
    · rw [if_pos hdot] at h hm
      exact ih _ _ _ hm (hlog _ _ hs) h
    rw [if_neg hdot] at h hm
    obtain ⟨⟨src, dst, u⟩, hp, h⟩ := Except.bind_ok.mp h
    have hm := hm src dst u hp
    obtain ⟨_, _, _, _, rfl⟩ := World.entryPaths_ok hp
    have hu := hI.aside _ (entryRing s.ring oldpath newpath name) s.cwd
      (s.trace ++ [.iter (s.text oldpath) (s.text newpath)]) hs
    dsimp only at h hm
    split_ifs at h with hrc hdir
    · simp only [Except.ok.injEq, Prod.mk.injEq] at h
      rw [← h.2]
      exact hu
    · obtain ⟨⟨r, v⟩, hv, h⟩ := Except.bind_ok.mp h
      obtain ⟨hg, hrest⟩ := hm hrc
      rw [if_pos hdir] at hg hrest
      exact ih _ _ _ (hrest r v hv) (hd _ _ _ _ _ hg (hlog _ _ hu) hv) h
    · obtain ⟨⟨r, v⟩, hv, h⟩ := Except.bind_ok.mp h
      obtain ⟨hg, hrest⟩ := hm hrc
      rw [if_neg hdir] at hg hrest
      exact ih _ _ _ (hrest r v hv) (hI.file _ _ _ _ _ hg (hlog _ _ hu) hv) h

theorem renameSetup_guarded (s : World) (oldpath newpath : Path)
    (hm : (dplNamei env s.store newpath).1 = .enoent → G.mkdir s newpath) (hs : I s) :
    I (renameSetup env s oldpath newpath).2 := by
  have hmk : I (if (dplNamei env s.store newpath).1 = .enoent then dfsMkdir env s newpath
      else (0, s)).2 := by
    split_ifs with h
    · exact hI.mkdir s newpath (hm h) hs
    · exact hs
  unfold renameSetup
  dsimp only
  generalize (if (dplNamei env s.store newpath).1 = .enoent then dfsMkdir env s newpath
      else (0, s)) = m at hmk ⊢
  split_ifs
  · exact hs
  · exact hmk
  · have hcwd := fun cwd => hI.aside m.2 m.2.ring cwd m.2.trace hmk
    split
    · split <;> exact hcwd _
    · exact hmk

/-- What the calls of a directory rename preserve, the whole of it preserves, at any
depth. -/
theorem renameDirectory_guarded (depth : Nat) (s : World) (oldpath newpath : Str) (ret : Int)
    (t : World) (hm : renameDirectoryMeets cx env G depth s oldpath newpath) (hs : I s)
    (h : renameDirectory cx env depth s oldpath newpath = .ok (ret, t)) : I t := by
  induction depth generalizing s oldpath newpath ret t with
  | zero => cases h
  | succ depth ih =>
    have hlog := hI.aside s s.ring s.cwd
      (s.trace ++ [.enter (s.text oldpath) (s.text newpath)]) hs
    obtain ⟨hmk, hrest⟩ := hm
    have hset := renameSetup_guarded hI _ (s.text oldpath) (s.text newpath) hmk hlog
    rw [renameDirectory] at h
    dsimp only at h
    split at h
    · rename_i r u hr
      change renameSetup env _ (s.text oldpath) (s.text newpath) = _ at hr
      simp only [Except.ok.injEq, Prod.mk.injEq] at h
      rw [← h.2]
      have he : u = (renameSetup env (s.log (.enter (s.text oldpath) (s.text newpath)))
        (s.text oldpath) (s.text newpath)).2 := by rw [hr]
      rw [he]
      exact hset
    · rename_i type names u hr
      change renameSetup env _ (s.text oldpath) (s.text newpath) = _ at hr
      have hu : I u := by
        have he : u = (renameSetup env (s.log (.enter (s.text oldpath) (s.text newpath)))
          (s.text oldpath) (s.text newpath)).2 := by rw [hr]
        rw [he]
        exact hset
      obtain ⟨hloop, hrm⟩ := hrest type names u hr
      obtain ⟨⟨r, v⟩, hv, h⟩ := Except.bind_ok.mp h
      have hIv := renameEntries_guarded hI (fun s o n ret t hm hs => ih s o n ret t hm hs)
        oldpath newpath names u type 0 r v hloop hu hv
      split_ifs at h with hr'
      · simp only [Except.ok.injEq, Prod.mk.injEq] at h
        rw [← h.2]
        exact hIv
      · obtain ⟨⟨r', w⟩, hw, h⟩ := Except.bind_ok.mp h
        simp only [Except.ok.injEq, Prod.mk.injEq] at h
        rw [← h.2]
        exact hI.rmdir _ _ _ _ (hrm r v hv hr') hIv hw

end Guarded

/-- A guard that lets every call pass. -/
def RenameGuard.free : RenameGuard := ⟨fun _ _ => True, fun _ _ _ => True, fun _ _ => True⟩

theorem renameEntriesMeets_free {renameDir : Rename} {dirMeets : World → Str → Str → Prop}
    (hd : ∀ s o n, dirMeets s o n) (oldpath newpath : Str) (names : List CStr) (s : World)
    (type : FType) :
    renameEntriesMeets cx env .free renameDir dirMeets oldpath newpath names s type := by
  induction names generalizing s type with
  | nil => trivial
  | cons name names ih =>
    rw [renameEntriesMeets]
    split_ifs
    · exact ih _ _
    · intro src dst u _ _
      refine ⟨?_, fun r v _ => ih _ _⟩
      split_ifs
      · exact hd _ _ _
      · trivial

theorem renameDirectoryMeets_free (depth : Nat) (s : World) (oldpath newpath : Str) :
    renameDirectoryMeets cx env .free depth s oldpath newpath := by
  induction depth generalizing s oldpath newpath with
  | zero => trivial
  | succ depth ih =>
    refine ⟨fun _ => trivial, fun type names u _ => ⟨?_, fun _ _ _ _ => trivial⟩⟩
    exact renameEntriesMeets_free cx env ih _ _ _ _ _

/-- The calls a directory rename is made of. -/
structure RenameSteps (cx : Ctx) (env : Env) (I : World → Prop) : Prop where
  aside : ∀ s ring cwd trace, I s → I { s with ring := ring, cwd := cwd, trace := trace }
  mkdir : ∀ s path, I s → I (dfsMkdir env s path).2
  file : ∀ s oldpath newpath ret t, I s → renameFile cx env s oldpath newpath = .ok (ret, t) → I t
  rmdir : ∀ s path ret t, I s → dfsRmdir cx env s path = .ok (ret, t) → I t

variable {cx env} {I : World → Prop} (hI : RenameSteps cx env I)
include hI

/-- What the calls preserve without a guard, the whole rename preserves. -/
theorem renameDirectory_keeps (depth : Nat) (s : World) (oldpath newpath : Str) (ret : Int)
    (t : World) (hs : I s) (h : renameDirectory cx env depth s oldpath newpath = .ok (ret, t)) :
    I t := by
  have hsteps : GuardedSteps cx env .free I :=
    ⟨hI.aside, fun s path _ => hI.mkdir s path, fun s o n ret t _ => hI.file s o n ret t,
      fun s path ret t _ => hI.rmdir s path ret t⟩
  exact renameDirectory_guarded hsteps depth s oldpath newpath ret t
    (renameDirectoryMeets_free cx env depth s oldpath newpath) hs h

/-- What the calls of a rename preserve, `dfs_rename` preserves. -/
theorem dfsRename_keeps {s t : World} {oldpath newpath : Path} {ret : Int} (hs : I s)
    (h : dfsRename cx env s oldpath newpath = .ok (ret, t)) : I t := by
  rcases dfsRename_cases h with ⟨_, _, rfl⟩ | ⟨_, r, _, hr⟩ | ⟨_, r, _, hr⟩
  · exact hs
  · exact hI.file _ _ _ _ _ hs hr
  · exact renameDirectory_keeps hI _ _ _ _ _ _ hs hr

end RenameRule

theorem dfsRename_inv {cx : Ctx} {env : Env} {s t : World} {oldpath newpath : Path} {ret : Int}
    (hi : s.Inv) (h : dfsRename cx env s oldpath newpath = .ok (ret, t)) : t.Inv :=
  dfsRename_keeps
    { aside := fun _ _ _ _ hs => hs.congr rfl rfl rfl rfl
      mkdir := fun _ _ hs => (dfsMkdir_inv hs).1
      file := fun _ _ _ _ _ hs h => renameFile_inv hs h
      rmdir := fun _ _ _ _ hs h => (dfsRmdir_inv hs h).1 } hi h

/-- The collector leaves the state alone, or removes one entry without references and, where
the call goes through, its cache file. -/
theorem gcCallback_cases (cx : Ctx) (env : Env) (s : World) (path : Path) :
    gcCallback cx env s path = s ∨
    ∃ pe, s.entry path = some pe ∧ pe.refcount = 0 ∧ pe.locked = false ∧
      gcRemoves cx env s.fs pe = true ∧
      gcCallback cx env s path =
        { s with fs := s.fs.tryUnlink env .unlinkGc (slashName cx path) }.hashRemove path := by
  unfold gcCallback
  cases he : s.entry path with
  | none => exact .inl rfl
  | some pe =>
    dsimp only
    split_ifs with h1 h2 h3
    · exact .inl rfl
    · exact .inl rfl
    · exact .inr ⟨pe, rfl, by simpa using h1, by simpa using h2, h3, rfl⟩
    · exact .inl rfl

theorem gcCallback_inv (cx : Ctx) (env : Env) {s : World} (path : Path) (hi : s.Inv) :
    (gcCallback cx env s path).Inv := by
  rcases gcCallback_cases cx env s path with h | ⟨pe, _, _, _, _, h⟩
  · rw [h]
    exact hi
  · rw [h]
    exact (hi.tryUnlink env _ _).hashRemove path

end DropletFs
