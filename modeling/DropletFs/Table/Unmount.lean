import DropletFs.Cache.Leftovers
import DropletFs.Model.Destroy
import DropletFs.Table.Descriptors
import DropletFs.Table.Entries
import DropletFs.Table.Parents

/-! What a mount leaves behind when it ends: its entries, its descriptors and its cache
files. -/

namespace DropletFs

open CText LocalFs Resources

section Destroy

variable {cx : Ctx} {s : World} {keys : List Path}

/-- The keys of the table are the paths of the entries. -/
theorem World.Inv.listed (hi : s.Inv) :
    s.Keys ((List.range s.brk).filterMap fun a => (s.heap a).map (·.path)) where
  nodup := by
    apply List.Nodup.filterMap _ List.nodup_range
    intro a b path ha hb
    obtain ⟨pe, hpe, hp⟩ := Option.map_eq_some_iff.mp ha
    obtain ⟨qe, hqe, hq⟩ := Option.map_eq_some_iff.mp hb
    have hpa := hi.linked a pe hpe
    have hqb := hi.linked b qe hqe
    rw [hp] at hpa
    rw [hq, hpa] at hqb
    exact Option.some.inj hqb
  mem path := by
    rw [List.mem_filterMap]
    constructor
    · intro ⟨a, _, ha⟩
      obtain ⟨pe, hpe, hp⟩ := Option.map_eq_some_iff.mp ha
      rw [← hp, hi.linked a pe hpe]
      rfl
    · intro h
      obtain ⟨a, ha⟩ := Option.isSome_iff_exists.mp h
      obtain ⟨pe, hpe, hp⟩ := hi.entry path a ha
      exact ⟨a, List.mem_range.mpr (hi.bound a pe hpe), by rw [hpe, Option.map_some, hp]⟩

/-- The entry of the path says that it is cached, and its file can be removed. -/
def World.Removed (env : Env) (s : World) (path : Path) : Prop :=
  s.IsLocal path ∧ env.sys (.unlinkDestroy path) = none

/-- The cell of a path: its file goes when the entry says that it is cached. -/
theorem World.Inv.cbHashUnlink_cell (cx : Ctx) (env : Env) (hi : s.Inv) (path : Path) :
    ∃ fs : LocalFs, s.removeCacheFiles cx env [path] = { s with fs := fs } ∧ fs.Wf ∧
      fs.fds = s.fs.fds ∧ fs.inodes = s.fs.inodes ∧
      fs.names = s.fs.names \ {n | s.Removed env path ∧ n = collapse (slashName cx path)} := by
  have hkept : ¬s.Removed env path →
      s.fs.names = s.fs.names \ {n | s.Removed env path ∧ n = collapse (slashName cx path)} := by
    intro hno
    ext n
    simp [hno]
  rw [World.removeCacheFiles, List.foldl_cons, List.foldl_nil]
  cases he : s.entry path with
  | none =>
    refine ⟨s.fs, rfl, hi.wf, rfl, rfl, hkept ?_⟩
    simp [World.Removed, World.IsLocal, he]
  | some pe =>
    dsimp only
    obtain ⟨a, hh, ha⟩ := Option.bind_eq_some_iff.mp he
    have hpath : pe.path = path := by
      obtain ⟨qe, hqe, hp⟩ := hi.entry path a hh
      rw [Option.some.inj (ha.symm.trans hqe), hp]
    have hlocal : s.IsLocal path ↔ pe.ondisk = .loc := by simp [World.IsLocal, he]
    unfold World.cbHashUnlink
    split_ifs with ho
    · refine ⟨s.fs.tryUnlink env (.unlinkDestroy path) (slashName cx path), ?_,
        hi.wf.tryUnlink env _ _, by simp, by simp, ?_⟩
      · rw [World.pentryUnlinkCacheFile, hpath]
        rfl
      · rw [names_tryUnlink]
        split_ifs with hc
        · ext n
          simp [World.Removed, hlocal.mpr ho, hc]
        · exact hkept fun hr => hc hr.2
    · exact ⟨s.fs, rfl, hi.wf, rfl, rfl, hkept fun hr => ho (hlocal.mp hr.1)⟩

/-- The files of the cached entries go, and nothing else. -/
theorem World.Inv.removeCacheFiles (cx : Ctx) (env : Env) (hi : s.Inv) (keys : List Path) :
    ∃ fs : LocalFs, s.removeCacheFiles cx env keys = { s with fs := fs } ∧ fs.Wf ∧
      fs.fds = s.fs.fds ∧ fs.inodes = s.fs.inodes ∧ fs.names = s.fs.names \
        {n | ∃ path ∈ keys, s.Removed env path ∧ n = collapse (slashName cx path)} := by
  induction keys generalizing s with
  | nil =>
    refine ⟨s.fs, rfl, hi.wf, rfl, rfl, ?_⟩
    simp
  | cons path keys ih =>
    obtain ⟨gs, hcell, hgw, hgf, hgi, hgn⟩ := hi.cbHashUnlink_cell cx env path
    obtain ⟨fs, hrest, hw, hf, hin, hn⟩ := ih (hi.withFs hgw hgf)
    refine ⟨fs, ?_, hw, hf.trans hgf, hin.trans hgi, ?_⟩
    · have hsplit : s.removeCacheFiles cx env (path :: keys) =
          (s.removeCacheFiles cx env [path]).removeCacheFiles cx env keys := rfl
      rw [hsplit, hcell, hrest]
    · rw [hn]
      change gs.names \ {n | ∃ p ∈ keys, s.Removed env p ∧ n = collapse (slashName cx p)} = _
      rw [hgn, Set.sdiff_sdiff]
      congr 1
      ext n
      simp

/-- The removal of a key closes the descriptor of its entry. -/
theorem World.Inv.hashRemove_fs (hi : s.Inv) (path : Path) :
    (s.hashRemove path).fs.inodes = s.fs.inodes ∧ (s.hashRemove path).fs.openFds =
      s.fs.openFds \ {fd | (s.entry path).bind (·.fd) = some fd} := by
  cases hh : s.hash path with
  | none =>
    have he : s.hashRemove path = s := by simp [World.hashRemove, hh]
    rw [he]
    simp [World.entry, hh]
  | some a =>
    obtain ⟨pe, ha, -⟩ := hi.entry path a hh
    have hfs : (s.hashRemove path).fs = s.fs.closeOpt pe.fd := by
      simp [World.hashRemove, hh, World.pentryFree, ha]
    have he : s.entry path = some pe := by rw [World.entry, hh, Option.bind_some, ha]
    rw [hfs, he]
    cases hfd : pe.fd with
    | none => simp [LocalFs.closeOpt, hfd]
    | some k =>
      refine ⟨rfl, ?_⟩
      change (s.fs.close k).openFds = _
      rw [openFds_close]
      ext fd
      simp [hfd, eq_comm]

/-- An emptied table has closed the descriptors of the entries it had. -/
theorem World.Inv.removeAll (hi : s.Inv) (keys : List Path) :
    (s.removeAll keys).Inv ∧ (s.removeAll keys).store = s.store ∧
      (s.removeAll keys).fs.files = s.fs.files ∧ (s.removeAll keys).fs.inodes = s.fs.inodes ∧
      (∀ path, (s.removeAll keys).hash path = if path ∈ keys then none else s.hash path) ∧
      (s.removeAll keys).fs.openFds = s.fs.openFds \
        {fd | ∃ path ∈ keys, (s.entry path).bind (·.fd) = some fd} := by
  induction keys generalizing s with
  | nil =>
    refine ⟨hi, rfl, rfl, rfl, ?_, ?_⟩
    · intro path
      rfl
    · simp [World.removeAll]
  | cons key keys ih =>
    obtain ⟨hinodes, hfds⟩ := hi.hashRemove_fs key
    obtain ⟨hinv, hstore, hfiles, hin, hhash, hopen⟩ := ih (hi.hashRemove key)
    have hsplit : s.removeAll (key :: keys) = (s.hashRemove key).removeAll keys := rfl
    rw [hsplit]
    refine ⟨hinv, hstore.trans (World.hashRemove_store s key),
      hfiles.trans (World.hashRemove_files s key), hin.trans hinodes, ?_, ?_⟩
    · intro path
      rw [hhash, World.hashRemove_hash]
      by_cases h1 : path ∈ keys
      · simp [h1]
      · by_cases h2 : path = key
        · simp [h2]
        · simp [h1, h2]
    · rw [hopen, hfds, Set.sdiff_sdiff]
      congr 1
      ext fd
      -- the first key has no entry any more, and the others have theirs
      simp only [Set.mem_union, Set.mem_ofPred_eq, List.mem_cons, exists_eq_or_imp]
      apply or_congr_right'
      intro hne
      apply exists_congr
      intro path
      by_cases hp : path = key
      · have hgone : (s.hashRemove key).entry path = none := by
          rw [World.entry, World.hashRemove_hash, if_pos hp]
          rfl
        rw [hgone, hp]
        simpa using fun _ => hne
      · rw [hi.hashRemove_entry_of_ne hp]

/-- `dfs_destroy`, whatever the order of the keys. -/
theorem World.Inv.destroyed (cx : Ctx) (env : Env) (hi : s.Inv) (hk : s.Keys keys) :
    (∀ path, (dfsDestroy cx env s keys).hash path = none) ∧
    (∀ a, (dfsDestroy cx env s keys).heap a = none) ∧ (dfsDestroy cx env s keys).store = s.store ∧
    (dfsDestroy cx env s keys).fs.inodes = s.fs.inodes ∧
    (dfsDestroy cx env s keys).fs.names =
      s.fs.names \ {n | ∃ path, s.Removed env path ∧ n = collapse (slashName cx path)} ∧
    (dfsDestroy cx env s keys).fs.openFds = s.fs.openFds \ s.recorded := by
  obtain ⟨fs, heq, hw, hf, hin, hn⟩ := hi.removeCacheFiles cx env keys
  obtain ⟨hinv, hstore, hfiles, hinodes, hhash, hopen⟩ := (hi.withFs hw hf).removeAll keys
  rw [← heq] at hinv hstore hfiles hinodes hhash hopen
  have hempty : ∀ path, (dfsDestroy cx env s keys).hash path = none := by
    intro path
    apply (hhash path).trans
    split_ifs with hm
    · rfl
    · rw [hk.mem, Option.not_isSome_iff_eq_none] at hm
      rw [heq]
      exact hm
  refine ⟨hempty, ?_, ?_, ?_, ?_, ?_⟩
  · intro a
    cases ha : (dfsDestroy cx env s keys).heap a with
    | none => rfl
    | some pe =>
      have hlink := hinv.linked a pe ha
      exact absurd (hlink.symm.trans (hempty pe.path)) (by simp)
  · exact hstore.trans (by rw [heq])
  · exact hinodes.trans ((congrArg (·.fs.inodes) heq).trans hin)
  · apply (names_of_files hfiles).trans
    rw [heq]
    apply hn.trans
    congr 1
    ext n
    constructor
    · intro hn
      obtain ⟨path, -, h⟩ := hn
      exact ⟨path, h⟩
    · intro hn
      obtain ⟨path, hl, h⟩ := hn
      refine ⟨path, (hk.mem path).mpr ?_, hl, h⟩
      cases hh : s.hash path with
      | none => simp [World.Removed, World.IsLocal, World.entry, hh] at hl
      | some a => rfl
  · apply hopen.trans
    rw [heq]
    change fs.openFds \ _ = _
    rw [openFds_of_fds hf]
    congr 1
    rw [← hi.recorded_entries]
    ext fd
    constructor
    · intro hr
      obtain ⟨path, -, h⟩ := hr
      obtain ⟨pe, he, hfd⟩ := Option.bind_eq_some_iff.mp h
      exact ⟨path, pe, he, hfd⟩
    · intro hr
      obtain ⟨path, pe, he, hfd⟩ := hr
      refine ⟨path, (hk.mem path).mpr ?_, Option.bind_eq_some_iff.mpr ⟨pe, he, hfd⟩⟩
      obtain ⟨a, hh, _⟩ := Option.bind_eq_some_iff.mp he
      rw [hh]
      rfl

end Destroy

section Still

variable {cx : Ctx} {env : Env} {s t : World} {path : Path} {ret : Int}

/-- A step that neither opens nor closes a file and removes no entry. -/
structure World.Still (s t : World) : Prop where
  inv : t.Inv
  keeps : s.Keeps t
  names : t.fs.names = s.fs.names
  inUse : t.fs.openFds = s.fs.openFds
  recorded : t.recorded = s.recorded

/-- The entry holds the descriptor it held before. -/
def SameFd (s : World) : EntryProp := fun a _ pe => pe.fd = (s.heap a).bind (·.fd)

theorem SameFd.steady (s : World) : Steady (SameFd s) :=
  ⟨fun _ h => h, fun _ h => h, fun _ _ h => h⟩

theorem SameFd.start (s : World) : s.All (SameFd s) := by
  intro a pe ha
  rw [SameFd, ha]
  rfl

theorem SameFd.fresh (hi : s.Inv) {o : Option Obj} {pe : Entry} (h : pe.fd = none) :
    SameFd s s.brk o pe := by
  rw [SameFd, hi.brk_free]
  exact h

theorem recorded_of_sameFd (hk : s.Keeps t) (h : t.All (SameFd s)) : t.recorded = s.recorded := by
  ext fd
  constructor
  · intro ⟨a, pe, ha, hfd⟩
    have hsame : pe.fd = (s.heap a).bind (·.fd) := h a pe ha
    obtain ⟨qe, hq, hqfd⟩ := Option.bind_eq_some_iff.mp (hsame.symm.trans hfd)
    exact ⟨a, qe, hq, hqfd⟩
  · intro ⟨a, pe, ha, hfd⟩
    obtain ⟨qe, hq, -⟩ := hk a pe ha
    have hsame : qe.fd = (s.heap a).bind (·.fd) := h a qe hq
    rw [ha] at hsame
    exact ⟨a, qe, hq, hsame.trans hfd⟩

theorem World.Still.of_fs (hi : t.Inv) (hk : s.Keeps t) (hfs : t.fs = s.fs)
    (h : t.All (SameFd s)) : s.Still t where
  inv := hi
  keeps := hk
  names := names_of_files (congrArg (·.files) hfs)
  inUse := openFds_of_fds (congrArg (·.fds) hfs)
  recorded := recorded_of_sameFd hk h

theorem World.Still.of_heap (hi : t.Inv) (hh : t.heap = s.heap) (hf : t.fs.files = s.fs.files)
    (hd : t.fs.fds = s.fs.fds) : s.Still t where
  inv := hi
  keeps := .of_heap hh
  names := names_of_files hf
  inUse := openFds_of_fds hd
  recorded := World.recorded_of_heap hh

theorem onEntry_fs (s : World) (path : Path) (f : Entry → Entry) :
    (s.onEntry path f).fs = s.fs := by
  obtain ⟨heap, h⟩ := s.onEntry_eq path f
  rw [h]

theorem hashFillDirent_fs (s : World) (path : Path) : (hashFillDirent s path).fs = s.fs := by
  unfold hashFillDirent
  cases beforeLastSlash path with
  | none => rfl
  | some d => exact onEntry_fs _ _ _

theorem dfsGetattr_fs {st : Stat} (hi : s.Inv) (h : dfsGetattr env s path = .ok (ret, st, t)) :
    t.fs = s.fs := by
  cases dfsGetattr_cases h with
  | root => rfl
  | noEntry => rfl
  | remote _ hl _ _ _ => exact (lookupOrPopulate_spec hi hl).fs
  | loc _ hl _ _ _ => exact (lookupOrPopulate_spec hi hl).fs
  | unset _ hl _ _ _ =>
    split_ifs
    · exact (hashFillDirent_fs _ _).trans (lookupOrPopulate_spec hi hl).fs
    · exact (lookupOrPopulate_spec hi hl).fs

theorem dfsGetattr_sameFd {st : Stat} (hi : s.Inv)
    (h : dfsGetattr env s path = .ok (ret, st, t)) : t.All (SameFd s) := by
  apply dfsGetattr_all (SameFd.steady s) hi (SameFd.start s) _ _ _ h
  · exact fun _ => SameFd.fresh hi rfl
  · exact fun _ _ _ _ _ _ hp => hp
  · exact fun _ _ _ _ hp => hp

theorem dfsGetattr_still {st : Stat} (hi : s.Inv)
    (h : dfsGetattr env s path = .ok (ret, st, t)) : s.Still t := by
  obtain ⟨hti, hk⟩ := dfsGetattr_inv hi h
  exact .of_fs hti hk (dfsGetattr_fs hi h) (dfsGetattr_sameFd hi h)

theorem setAttributes_still {upd : Dict → Dict} {change : LocalFs → Nat → LocalFs}
    {call : SysCall} (hi : s.Inv) (hti : t.Inv) (hk : s.Keeps t)
    (hf : ∀ fs fd, (change fs fd).files = fs.files) (hd : ∀ fs fd, (change fs fd).fds = fs.fds)
    (h : setAttributes env s path upd change call = .ok (ret, t)) : s.Still t := by
  have hrec : t.recorded = s.recorded := by
    apply recorded_of_sameFd hk
    apply setAttributes_all hi (SameFd.start s) _ h
    exact fun _ _ _ _ _ _ _ hp => hp
  rcases setAttributes_cases h with rfl | ⟨a, pe, md, fs, st, _, _, hfs, _, rfl⟩
  · exact ⟨hti, hk, rfl, rfl, rfl⟩
  · rcases hfs with rfl | ⟨fd, _, rfl⟩
    · exact ⟨hti, hk, rfl, rfl, hrec⟩
    · exact ⟨hti, hk, names_of_files (hf _ _), openFds_of_fds (hd _ _), hrec⟩

theorem fchmod_files (fs : LocalFs) (fd mode : Nat) :
    (fs.fchmod fd mode).files = fs.files ∧ (fs.fchmod fd mode).fds = fs.fds := by
  unfold LocalFs.fchmod
  cases fs.fds.lookup fd <;> exact ⟨rfl, rfl⟩

theorem fchown_files (fs : LocalFs) (fd uid gid : Nat) :
    (fs.fchown fd uid gid).files = fs.files ∧ (fs.fchown fd uid gid).fds = fs.fds := by
  unfold LocalFs.fchown
  cases fs.fds.lookup fd <;> exact ⟨rfl, rfl⟩

theorem dfsMkdir_fs (env : Env) (s : World) (path : Path) :
    (dfsMkdir env s path).2.fs = s.fs := by
  unfold dfsMkdir
  split
  · dsimp only
    split
    · exact onEntry_fs _ _ _
    · split
      · rename_i hp
        obtain ⟨rfl, rfl⟩ := populateHash_some hp
        rfl
      · rfl
  · rfl

theorem dfsMkdir_sameFd (hi : s.Inv) : (dfsMkdir env s path).2.All (SameFd s) := by
  apply dfsMkdir_all hi (SameFd.start s)
  · exact fun _ _ _ _ hp => hp
  · exact fun _ => SameFd.fresh hi rfl

theorem dfsMkdir_still (hi : s.Inv) : s.Still (dfsMkdir env s path).2 := by
  have hpair : (dfsMkdir env s path).2.Inv ∧ s.Keeps (dfsMkdir env s path).2 := dfsMkdir_inv hi
  obtain ⟨hti, hk⟩ := hpair
  exact .of_fs hti hk (dfsMkdir_fs env s path) (dfsMkdir_sameFd hi)

theorem dfsRmdir_fs {p : Str} (h : dfsRmdir cx env s p = .ok (ret, t)) : t.fs = s.fs := by
  unfold dfsRmdir at h
  dsimp only at h
  split at h
  · obtain ⟨⟨q, u⟩, hq, h⟩ := Except.bind_ok.mp h
    obtain ⟨-, -, rfl⟩ := World.tmpstrPrintf_ok hq
    simp only [Except.ok.injEq, Prod.mk.injEq] at h
    rw [← h.2]
    exact onEntry_fs _ _ _
  · simp only [Except.ok.injEq, Prod.mk.injEq] at h
    rw [← h.2]
    rfl

theorem dfsRmdir_sameFd {p : Str} (h : dfsRmdir cx env s p = .ok (ret, t)) :
    t.All (SameFd s) := by
  apply dfsRmdir_all (SameFd.steady s).removable (SameFd.start s) _ h
  exact fun _ _ _ _ _ _ _ _ hp => hp

theorem dfsRmdir_still {p : Str} (hi : s.Inv) (h : dfsRmdir cx env s p = .ok (ret, t)) :
    s.Still t := by
  obtain ⟨hti, hk⟩ := dfsRmdir_inv hi h
  exact .of_fs hti hk (dfsRmdir_fs h) (dfsRmdir_sameFd h)

theorem dfsWrite_still {fh : Addr} {buf : Bytes} {offset : Nat} (hi : s.Inv)
    (h : dfsWrite env s fh buf offset = .ok (ret, t)) : s.Still t := by
  obtain ⟨hti, -⟩ := dfsWrite_inv hi h
  obtain ⟨pe, -, ⟨rfl, -⟩ | ⟨fd, f, -, -, -, -, rfl⟩⟩ := dfsWrite_cases h
  · exact .of_heap hti rfl rfl rfl
  · exact .of_heap hti rfl rfl rfl

/-- The callbacks that open, release and remove nothing. -/
def Op.Still : Op → Prop
  | .getattr _ | .read .. | .write .. | .rmdir _ | .mkdir _ | .mknod _ | .symlink .. | .chmod ..
  | .chown .. => True
  | _ => False

theorem Calls.still {d d' : Daemon} {op : Op} (hi : d.world.Inv) (hop : op.Still)
    (h : Calls cx env d op ret d') : d.world.Still d'.world := by
  have hti := h.inv hi
  cases h with
  | getattr h => exact dfsGetattr_still hi h
  | read => exact .of_heap hi rfl rfl rfl
  | written _ _ h => exact dfsWrite_still hi h
  | notWritten _ => exact .of_heap hi rfl rfl rfl
  | rmdir h => exact dfsRmdir_still hi h
  | mkdir => exact dfsMkdir_still hi
  | mknod =>
    apply World.Still.of_heap hti (dfsMknod_puts env d.world _).2
    · unfold dfsMknod
      split <;> rfl
    · unfold dfsMknod
      split <;> rfl
  | symlink h =>
    obtain ⟨st, rfl⟩ := dfsSymlink_cases h
    exact .of_heap hti rfl rfl rfl
  | chmod h =>
    obtain ⟨-, hk⟩ := dfsChmod_inv hi h
    exact setAttributes_still hi hti hk (fun fs fd => (fchmod_files fs fd _).1)
      (fun fs fd => (fchmod_files fs fd _).2) h
  | chown h =>
    obtain ⟨-, hk⟩ := dfsChown_inv hi h
    exact setAttributes_still hi hti hk (fun fs fd => (fchown_files fs fd _ _).1)
      (fun fs fd => (fchown_files fs fd _ _).2) h
  | _ => exact hop.elim

end Still

/-- Every file of the cache was there before, belongs to a cached entry, or was left by a call
for a path of `F`. -/
def World.Owned (cx : Ctx) (F base : Set Path) (s : World) : Prop :=
  ∀ n ∈ s.fs.names, n ∈ base ∨ (∃ path, s.IsLocal path ∧ n = collapse (slashName cx path)) ∨
    ∃ path ∈ F, n ∈ pathNames cx path

section Owned

variable {cx : Ctx} {env : Env} {F base : Set Path} {s t : World} {path : Path} {ret : Int}

theorem World.IsLocal.keeps (hi : s.Inv) (ht : t.Inv) (hk : s.Keeps t) (h : s.IsLocal path) :
    t.IsLocal path := by
  obtain ⟨pe, he, hl⟩ := Option.map_eq_some_iff.mp h
  obtain ⟨a, hh, ha⟩ := Option.bind_eq_some_iff.mp he
  obtain ⟨qe, hq, hp, hfd, -⟩ := hk a pe ha
  obtain ⟨re, hre, hpath⟩ := hi.entry path a hh
  obtain rfl : pe = re := Option.some.inj (ha.symm.trans hre)
  have hlink := ht.linked a qe hq
  rw [hp, hpath] at hlink
  rw [World.isLocal_iff hlink hq]
  exact (ht.cached a qe hq).mpr (hfd ((hi.cached a pe ha).mp hl))

theorem World.Owned.grows (h : s.Owned cx F base) (hl : ∀ p, s.IsLocal p → t.IsLocal p)
    (hn : ∀ n ∈ t.fs.names, n ∈ s.fs.names ∨
      (∃ p, t.IsLocal p ∧ n = collapse (slashName cx p)) ∨ ∃ p ∈ F, n ∈ pathNames cx p) :
    t.Owned cx F base := by
  intro n ht
  rcases hn n ht with hs | hnew
  · rcases h n hs with hb | ⟨p, hp, he⟩ | hf
    · exact .inl hb
    · exact .inr (.inl ⟨p, hl p hp, he⟩)
    · exact .inr (.inr hf)
  · exact .inr hnew

theorem World.Owned.kept (h : s.Owned cx F base) (hi : s.Inv) (ht : t.Inv) (hk : s.Keeps t)
    (hn : t.fs.names ⊆ s.fs.names) : t.Owned cx F base :=
  h.grows (fun _ hl => hl.keeps hi ht hk) fun _ hm => .inl (hn hm)

/-- An entry may go when its cache file is gone, or the path is one of `F`. -/
theorem World.Owned.drops {call : SysCall} (h : s.Owned cx F base)
    (hl : ∀ p, p ≠ path → s.IsLocal p → t.IsLocal p)
    (hn : t.fs.names ⊆ (s.fs.tryUnlink env call (slashName cx path)).names)
    (hg : path ∈ F ∨ env.sys call = none) : t.Owned cx F base := by
  intro n ht
  have hs := names_tryUnlink_subset env call s.fs _ (hn ht)
  rcases h n hs with hb | ⟨p, hp, he⟩ | hf
  · exact .inl hb
  · by_cases hpp : p = path
    · subst hpp
      rcases hg with hF | hc
      · exact .inr (.inr ⟨p, hF, .inr (.inl he)⟩)
      · have hgone := hn ht
        rw [names_tryUnlink, if_pos hc] at hgone
        exact (hgone.2 he).elim
    · exact .inr (.inl ⟨p, hl p hpp hp, he⟩)
  · exact .inr (.inr hf)

/-- The open of the path would succeed. -/
def World.OpenSucceeds (cx : Ctx) (s : World) (env : Env) (path : Path) (flags : OpenFlags) :
    Prop :=
  ∀ ret fh t, dfsOpen cx env s path flags = .ok (ret, fh, t) → ret ≠ -1

/-- An open that leaves no file without an entry: it succeeds, all functions have one name for its
cache file, and its scratch file can be renamed. -/
def World.OpensClean (cx : Ctx) (s : World) (env : Env) (path : Path) (flags : OpenFlags) : Prop :=
  s.OpenSucceeds cx env path flags ∧ cx.OneName path ∧ env.sys .renameScratch = none

theorem dfsOpen_owned {flags : OpenFlags} {fh : Option Addr} (hi : s.Inv)
    (ho : s.Owned cx F base) (hg : path ∈ F ∨ s.OpensClean cx env path flags)
    (h : dfsOpen cx env s path flags = .ok (ret, fh, t)) : t.Owned cx F base := by
  obtain ⟨hti, hk, hgrant⟩ := dfsOpen_inv hi h
  rcases dfsOpen_cases hi h with ⟨-, -, rfl⟩ | ⟨a, u, pe, qe, fs, hl, ha, hfh, hm, ht⟩
  · exact ho
  have hleft := openMode_leaves hm
  have hnames : t.fs.names = fs.names := by rw [ht]
  apply ho.grows fun p hp => hp.keeps hi hti hk
  intro n hn
  rw [hnames] at hn
  rcases hg with hF | ⟨hret, hone, hs⟩
  · rcases hleft.any hn with hold | hnew
    · exact .inl hold
    · exact .inr (.inr ⟨path, hF, hnew⟩)
  · rcases hleft.done hs hone (hret ret fh t h) hn with rfl | hold
    · refine .inr (.inl ⟨path, ?_, rfl⟩)
      rcases hgrant with ⟨-, hgrant⟩ | hfail
      · obtain ⟨b, re, -, hb, hpath, hfd, -⟩ := hgrant.entry
        have hlink := hti.linked b re hb
        rw [hpath] at hlink
        exact (World.isLocal_iff hlink hb).mpr ((hti.cached b re hb).mpr hfd)
      · exact (hret ret fh t h hfail).elim
    · exact .inl hold

theorem dfsCreate_owned {mode : Nat} {flags : OpenFlags} {fh : Option Addr} (hi : s.Inv)
    (ho : s.Owned cx F base) (hg : path ∈ F ∨ s.OpensClean cx env path flags)
    (h : dfsCreate cx env s path mode flags = .ok (ret, fh, t)) : t.Owned cx F base := by
  obtain ⟨hti, -⟩ := dfsCreate_inv hi h
  rcases dfsCreate_cases h with ⟨-, -, rfl⟩ | ⟨r, u, hopen, hcase⟩
  · exact ho
  have hu := dfsOpen_owned hi ho hg hopen
  obtain ⟨hui, -⟩ := dfsOpen_inv hi hopen
  rcases hcase with ⟨-, rfl, -⟩ | ⟨-, a, pe, pe', fs, st, -, ha, hc, rfl⟩
  · exact hu
  · obtain ⟨md, l, rfl, -, hfiles, -⟩ := createOpened_spec hui.wf hc
    apply hu.kept hui hti _ (names_of_files hfiles).subset
    exact .of_update ha rfl rfl id le_rfl

theorem dfsRelease_owned {flags : OpenFlags} {fh : Addr} (hi : s.Inv) (ho : s.Owned cx F base)
    (hg : path ∈ F ∨ env.sys .unlinkScratch = none)
    (h : dfsRelease cx env s path flags fh = .ok (ret, t)) : t.Owned cx F base := by
  obtain ⟨hti, -⟩ := dfsRelease_inv hi h
  obtain ⟨pe, pe', fs, st, ha, hr, rfl⟩ := dfsRelease_cases h
  have hspec := releaseEntry_spec hi.wf hr
  obtain ⟨hany, hgone⟩ := releaseEntry_names hr
  have hnew : ∀ n ∈ fs.names, n ∈ s.fs.names ∨
      (∃ p, World.IsLocal { s.setEntry fh pe' with fs := fs, store := st } p ∧
        n = collapse (slashName cx p)) ∨ ∃ p ∈ F, n ∈ pathNames cx p := by
    intro n hn
    rcases hg with hF | hc
    · rcases hany hn with he | hold
      · exact .inr (.inr ⟨path, hF, .inr (.inr he)⟩)
      · exact .inl hold
    · exact .inl (hgone hc hn)
  apply ho.grows _ hnew
  intro p hp
  obtain ⟨qe, he, hl⟩ := Option.map_eq_some_iff.mp hp
  obtain ⟨b, hh, hb⟩ := Option.bind_eq_some_iff.mp he
  have hset : (s.setEntry fh pe').hash p = some b := hh
  change (s.setEntry fh pe').IsLocal p
  by_cases hbf : b = fh
  · subst hbf
    rw [World.isLocal_iff hset (World.setEntry_heap_self s b pe'), hspec.ondisk,
      Option.some.inj (ha.symm.trans hb)]
    exact hl
  · rw [World.isLocal_iff hset ((World.setEntry_heap_of_ne hbf pe').trans hb)]
    exact hl

theorem hashRemove_isLocal (hi : s.Inv) {p : Path} (hne : p ≠ path) (h : s.IsLocal p) :
    (s.hashRemove path).IsLocal p := by
  rw [World.IsLocal, hi.hashRemove_entry_of_ne hne]
  exact h

theorem dfsUnlink_owned {p : Str} (hi : s.Inv) (ho : s.Owned cx F base)
    (hg : s.text p ∈ F ∨ env.sys (.unlinkCache (s.text p)) = none)
    (h : dfsUnlink cx env s p = .ok (ret, t)) : t.Owned cx F base := by
  rcases dfsUnlink_cases h with ⟨-, -, rfl⟩ | ⟨store, u, -, hno, rfl, hcase⟩
  · exact ho
  have hui : ({ s with store := store }.withoutCacheFile cx env (s.text p)).Inv :=
    (hi.tryUnlink env _ (slashName cx (s.text p))).congr rfl rfl rfl rfl
  have hnames : ({ s with store := store }.withoutCacheFile cx env (s.text p)).fs.names =
      (s.fs.tryUnlink env (.unlinkCache (s.text p)) (slashName cx (s.text p))).names := rfl
  have htext : World.text ({ s with store := store }.withoutCacheFile cx env (s.text p)) p =
      s.text p := World.withoutCacheFile_text hno
  rcases hcase with ⟨-, -, rfl⟩ | ⟨-, he⟩
  · exact ho.drops (fun q _ hq => hq) hnames.subset hg
  · obtain ⟨-, freed, v, -, rfl, ht⟩ := unlinkEntry_cases he
    rw [htext] at ht
    generalize hgen : ({ s with store := store }.withoutCacheFile cx env (s.text p)) = u at *
    have hlocal : ∀ q, q ≠ s.text p → s.IsLocal q → (u.hashRemove (s.text p)).IsLocal q := by
      intro q hq hl
      apply hashRemove_isLocal hui hq
      rw [← hgen]
      exact hl
    have hfiles : (u.hashRemove (s.text p)).fs.names =
        (s.fs.tryUnlink env (.unlinkCache (s.text p)) (slashName cx (s.text p))).names :=
      (names_of_files (World.hashRemove_files u _)).trans hnames
    rcases ht with ⟨-, rfl⟩ | ⟨parent, -, rfl⟩
    · exact ho.drops hlocal hfiles.subset hg
    · have hvi : World.Inv { u.hashRemove (s.text p) with ring := u.ring.push (tmpstr freed) } :=
        (hui.hashRemove _).congr rfl rfl rfl rfl
      refine ho.drops ?_ ?_ hg
      · intro q hq hl
        have hv : World.IsLocal
            { u.hashRemove (s.text p) with ring := u.ring.push (tmpstr freed) } q := hlocal q hq hl
        exact hv.keeps hvi (onEntry_removeDirent_inv hvi _ _) (onEntry_removeDirent_keeps _ _ _)
      · apply (names_of_files _).subset.trans hfiles.subset
        rw [onEntry_fs]

theorem gcCallback_owned (hi : s.Inv) (ho : s.Owned cx F base)
    (hg : path ∈ F ∨ env.sys .unlinkGc = none) :
    (gcCallback cx env s path).Owned cx F base := by
  rcases gcCallback_cases cx env s path with h | ⟨pe, -, -, -, -, h⟩
  · rw [h]
    exact ho
  · rw [h]
    have hgi : World.Inv { s with fs := s.fs.tryUnlink env .unlinkGc (slashName cx path) } :=
      hi.tryUnlink env _ _
    refine ho.drops ?_ ?_ hg
    · intro q hq hl
      exact hashRemove_isLocal hgi hq hl
    · exact (names_of_files (World.hashRemove_files _ _)).subset

theorem renameFile_owned {p q : Str} (hi : s.Inv) (ho : s.Owned cx F base)
    (hg : ∀ o, o ∈ F ∨ env.sys (.unlinkCache o) = none)
    (h : renameFile cx env s p q = .ok (ret, t)) : t.Owned cx F base := by
  rcases renameFile_cases h with ⟨-, -, rfl⟩ | ⟨store, u, -, hu, ht⟩
  · exact ho
  have hst : World.Inv { s with store := store } := hi.congr rfl rfl rfl rfl
  rcases hu with rfl | ⟨dirname, -, rfl⟩
  · exact dfsUnlink_owned hst ho (hg _) ht
  · have hinv := onEntry_removeDirent_inv hst dirname (s.text p)
    refine dfsUnlink_owned hinv ?_ (hg _) ht
    have hown : World.Owned cx F base { s with store := store } := ho
    apply hown.kept hst hinv (onEntry_removeDirent_keeps _ _ _)
    exact (names_of_files (by rw [onEntry_fs])).subset

/-- What a directory rename is made of keeps the files of the cache owned. -/
theorem ownedSteps (hg : ∀ o, o ∈ F ∨ env.sys (.unlinkCache o) = none) :
    RenameSteps cx env fun s => s.Inv ∧ s.Owned cx F base where
  aside _ _ _ _ h := ⟨h.1.congr rfl rfl rfl rfl, h.2⟩
  mkdir s path h := by
    have hstill : s.Still (dfsMkdir env s path).2 := dfsMkdir_still h.1
    exact ⟨hstill.inv, h.2.kept h.1 hstill.inv hstill.keeps hstill.names.subset⟩
  file _ _ _ _ _ h hr := ⟨renameFile_inv h.1 hr, renameFile_owned h.1 h.2 hg hr⟩
  rmdir _ _ _ _ h hr := by
    have hstill := dfsRmdir_still h.1 hr
    exact ⟨hstill.inv, h.2.kept h.1 hstill.inv hstill.keeps hstill.names.subset⟩

end Owned

/-- The call leaves no file without an entry, unless it is one of a path of `F`: opens are clean,
and the removals of cache files and scratch files go through. -/
def CleanBut (cx : Ctx) (F : Set Path) (d : Daemon) (c : Call) : Prop :=
  match c.op with
  | .open path flags | .create path _ flags =>
    path ∈ F ∨ d.world.OpensClean cx c.env path flags
  | .release i =>
    ∀ h, d.handles[i]? = some h → h.path ∈ F ∨ c.env.sys .unlinkScratch = none
  | .unlink path => path ∈ F ∨ c.env.sys (.unlinkCache path) = none
  | .rename .. => ∀ path, path ∈ F ∨ c.env.sys (.unlinkCache path) = none
  | .gc path => path ∈ F ∨ c.env.sys .unlinkGc = none
  | _ => True

theorem Calls.owned {cx : Ctx} {env : Env} {F base : Set Path} {d d' : Daemon} {op : Op} {ret : Int}
    (hi : d.world.Inv) (ho : d.world.Owned cx F base) (hg : CleanBut cx F d ⟨op, env⟩)
    (h : Calls cx env d op ret d') : d'.world.Owned cx F base := by
  by_cases hop : op.Still
  · have hstill := h.still hi hop
    exact ho.kept hi hstill.inv hstill.keeps hstill.names.subset
  cases h with
  | opened h => exact dfsOpen_owned hi ho hg h
  | openFailed _ h => exact dfsOpen_owned hi ho hg h
  | created h => exact dfsCreate_owned hi ho hg h
  | createFailed _ h => exact dfsCreate_owned hi ho hg h
  | released hh h => exact dfsRelease_owned hi ho (hg _ hh) h
  | notReleased => exact ho
  | unlink h => exact dfsUnlink_owned (p := .ext _) hi ho hg h
  | rename h => exact (dfsRename_keeps (ownedSteps hg) ⟨hi, ho⟩ h).2
  | gc => exact gcCallback_owned hi ho hg
  | _ => exact (hop trivial).elim

section Accounts

variable {cx : Ctx} {env : Env} {base : Set Nat} {s : World}

/-- The record of the descriptors in use is sound and leaves none out. -/
def World.Accounts (base : Set Nat) (s : World) : Prop :=
  Sound base s.fs.openFds s.recorded ∧ Exact base s.fs.openFds s.recorded

theorem World.Accounts.moves {t : World} (h : s.Accounts base) {kept : Prop}
    (hm : Moves s.fs.openFds s.recorded kept t.fs.openFds t.recorded) (hk : kept) :
    t.Accounts base :=
  ⟨h.1.moves hm, (h.2.moves_iff h.1 hm).mpr hk⟩

theorem World.Accounts.still {t : World} (h : s.Accounts base) (hs : s.Still t) :
    t.Accounts base := by
  unfold World.Accounts
  rw [hs.inUse, hs.recorded]
  exact h

/-- What a directory rename is made of closes the descriptors of the entries it removes. -/
theorem accountsSteps : RenameSteps cx env fun s => s.Inv ∧ s.Accounts base where
  aside _ _ _ _ h := ⟨h.1.congr rfl rfl rfl rfl, h.2⟩
  mkdir s path h := by
    have hstill : s.Still (dfsMkdir env s path).2 := dfsMkdir_still h.1
    exact ⟨hstill.inv, h.2.still hstill⟩
  file s o n ret t h hr := by
    refine ⟨renameFile_inv h.1 hr, ?_⟩
    rcases renameFile_cases hr with ⟨-, -, rfl⟩ | ⟨store, u, -, hu, ht⟩
    · exact h.2
    have hst : World.Inv { s with store := store } := h.1.congr rfl rfl rfl rfl
    have hacc : World.Accounts base { s with store := store } := h.2
    rcases hu with rfl | ⟨dirname, -, rfl⟩
    · exact hacc.moves (dfsUnlink_moves hst ht) trivial
    · have hinv := onEntry_removeDirent_inv hst dirname (s.text o)
      have hstill : World.Still { s with store := store } _ :=
        ⟨hinv, onEntry_removeDirent_keeps _ _ _, names_of_files (by rw [onEntry_fs]),
          openFds_of_fds (by rw [onEntry_fs]), World.recorded_onEntry _ _ fun pe =>
            (pentryRemoveDirent_fields pe _).2.1⟩
      exact (hacc.still hstill).moves (dfsUnlink_moves hinv ht) trivial
  rmdir s path ret t h hr := by
    have hstill := dfsRmdir_still h.1 hr
    exact ⟨hstill.inv, h.2.still hstill⟩

theorem Calls.accounts {d d' : Daemon} {op : Op} {ret : Int} (hi : d.world.Inv)
    (ha : d.world.Accounts base) (hg : Tracked cx d ⟨op, env⟩) (h : Calls cx env d op ret d') :
    d'.world.Accounts base := by
  by_cases hop : op.Still
  · exact ha.still (h.still hi hop)
  by_cases hfile : FileCall ⟨op, env⟩
  · obtain ⟨kept, hm, hk⟩ := h.moves hi hfile
    exact ha.moves hm (hk.mpr hg)
  cases h with
  | rename h => exact (dfsRename_keeps accountsSteps ⟨hi, ha⟩ h).2
  | opened => exact (hfile trivial).elim
  | openFailed => exact (hfile trivial).elim
  | created => exact (hfile trivial).elim
  | createFailed => exact (hfile trivial).elim
  | released => exact (hfile trivial).elim
  | notReleased => exact (hfile trivial).elim
  | unlink => exact (hfile trivial).elim
  | gc => exact (hfile trivial).elim
  | _ => exact (hop trivial).elim

end Accounts

/-- After any run and the unmount, in whatever order the table is taken: no entry is left in the
table or in the memory, and the store is as the run left it. When no open has forgotten a
descriptor, the descriptors in use are those from before the mount; and a file left in the cache was
there before the mount or is one of a path in `F`, when the calls for other paths were clean and the
unmount could remove their files. -/
theorem unmount_leaves_nothing (cx : Ctx) (store : Store) (fs : LocalFs) (ring : Ring) (hw : fs.Wf)
    (calls : List Call) (d : Daemon)
    (hr : Transition.exec (Daemon.step cx) (.init store fs ring) calls = .ok d)
    (env : Env) (keys : List Path) (hk : d.world.Keys keys) :
    (∀ path, (dfsDestroy cx env d.world keys).hash path = none) ∧
    (∀ a, (dfsDestroy cx env d.world keys).heap a = none) ∧
    (dfsDestroy cx env d.world keys).store = d.world.store ∧
    (Transition.Meets (Daemon.step cx) (Tracked cx) (.init store fs ring) calls →
      (dfsDestroy cx env d.world keys).fs.openFds = fs.openFds) ∧
    (∀ F : Set Path,
      Transition.Meets (Daemon.step cx) (CleanBut cx F) (.init store fs ring) calls →
      (∀ path, path ∈ F ∨ env.sys (.unlinkDestroy path) = none) →
        ∀ n ∈ (dfsDestroy cx env d.world keys).fs.names,
          n ∈ fs.names ∨ ∃ path ∈ F, n ∈ pathNames cx path) := by
  have hinit : (Daemon.init store fs ring).world.Inv := Daemon.init_inv hw
  have hempty : (Daemon.init store fs ring).world.recorded = ∅ := by
    ext fd
    refine iff_of_false ?_ (Set.notMem_empty fd)
    intro ⟨a, pe, ha, _⟩
    cases ha
  have hi : d.world.Inv := by
    apply Transition.exec_invariant (I := fun d => d.world.Inv) _ hinit
      (Transition.meets_trivial _ calls) hr
    intro s c t hs _ ht
    obtain ⟨ret, hc⟩ := Daemon.step_cases ht
    exact hc.inv hs
  obtain ⟨hhash, hheap, hstore, -, hnames, hfds⟩ := hi.destroyed cx env hk
  refine ⟨hhash, hheap, hstore, ?_, ?_⟩
  · intro hm
    have hacc : d.world.Inv ∧ d.world.Accounts fs.openFds := by
      refine Transition.exec_invariant
        (I := fun d => d.world.Inv ∧ d.world.Accounts fs.openFds) ?_ ⟨hinit, ?_⟩ hm hr
      · intro s c t hs hg ht
        obtain ⟨ret, hc⟩ := Daemon.step_cases ht
        exact ⟨hc.inv hs.1, hc.accounts hs.1 hs.2 hg⟩
      · unfold World.Accounts
        rw [hempty]
        exact ⟨⟨subset_rfl, Set.empty_subset _, fun _ _ => id⟩, Set.sdiff_self⟩
    obtain ⟨-, hsound, hexact⟩ := hacc
    rw [hfds, ← hexact]
    exact Set.sdiff_sdiff_cancel_left hsound.base_inUse
  · intro F hm hdestroy n hn
    have howned : d.world.Inv ∧ d.world.Owned cx F fs.names := by
      refine Transition.exec_invariant
        (I := fun d => d.world.Inv ∧ d.world.Owned cx F fs.names) ?_ ⟨hinit, ?_⟩ hm hr
      · intro s c t hs hg ht
        obtain ⟨ret, hc⟩ := Daemon.step_cases ht
        exact ⟨hc.inv hs.1, hc.owned hs.1 hs.2 hg⟩
      · exact fun n hn => .inl hn
    rw [hnames] at hn
    rcases howned.2 n hn.1 with hb | hlocal | hF
    · exact .inl hb
    · obtain ⟨path, hl, he⟩ := hlocal
      rcases hdestroy path with hF | hc
      · exact .inr ⟨path, hF, .inr (.inl he)⟩
      · exact (hn.2 ⟨path, ⟨hl, hc⟩, he⟩).elim
    · exact .inr hF

/-- `/f` is opened twice, and one of the handles is still there when the mount ends. -/
theorem unmount_leaves_sample :
    ∃ d, Transition.exec (Daemon.step Sample.plain) (Sample.daemon [(['/', 'f'], Sample.file [1])])
        openTwice = .ok d ∧ d.world.fs.names.Nonempty ∧
      (dfsDestroy Sample.plain Env.quiet d.world [['/', 'f']]).fs.names = ∅ ∧
      (dfsDestroy Sample.plain Env.quiet d.world [['/', 'f']]).fs.openFds = Sample.fs.openFds := by
  refine ⟨_, rfl, ⟨['/', 'c', '/', 'f'], rfl⟩, ?_⟩
  have hall := unmount_leaves_nothing Sample.plain (Sample.store [(['/', 'f'], Sample.file [1])])
    Sample.fs Sample.ring Sample.fs_wf openTwice _ rfl Env.quiet [['/', 'f']]
    ⟨by decide, fun path => ?_⟩
  · obtain ⟨-, -, -, hfds, hnames⟩ := hall
    constructor
    · have hone : Sample.plain.OneName ['/', 'f'] := by
        intro u v
        cases u <;> cases v <;> rfl
      have hclean := hnames ∅ ⟨.inr ⟨?_, hone, rfl⟩, .inr ⟨?_, hone, rfl⟩,
        fun _ _ => .inr rfl, trivial⟩ fun _ => .inr rfl
      · rw [Set.eq_empty_iff_forall_notMem]
        intro n hn
        rcases hclean n hn with hb | ⟨path, hF, -⟩
        · cases hb
        · exact hF
      · intro ret fh t h
        cases h
        decide
      · intro ret fh t h
        cases h
        decide
    · apply hfds
      refine ⟨.inr (.inr ?_), .inr (.inl rfl), trivial, trivial⟩
      rintro ⟨-, -, -, -, -, o, ho, -, hu⟩
      obtain rfl : Sample.file [1] = o := Option.some.inj ho
      refine hu ⟨rfl, fun hz => ?_⟩
      obtain ⟨_, hc, -⟩ := hz
      cases hc
  · by_cases hp : path = ['/', 'f']
    · subst hp
      exact iff_of_true (List.mem_singleton_self _) rfl
    · refine iff_of_false (fun hm => hp (List.mem_singleton.mp hm)) ?_
      intro hs
      have hnone : Function.update (fun _ : Path => (none : Option Addr)) ['/', 'f'] (some 0) path =
          none := Function.update_of_ne hp _ _
      exact absurd (hs.symm.trans (congrArg Option.isSome hnone)) (by decide)

end DropletFs
