import DropletFs.Open.Content
import DropletFs.Table.Handles
import DropletFs.Table.Lasting

/-! The semaphore of an entry counts the handles on it, as long as no open, create or
release stops on the way. -/

namespace DropletFs

open CText LocalFs

/-- What lets `dfs_get_local_copy` return a descriptor for a path that has none. -/
structure Downloads (cx : Ctx) (env : Env) (st : Store) (path : Path) : Prop where
  namei : env.remote (.namei path) = .success
  headAll : env.remote (.headAll path) = .success
  metadataDict : env.lib .metadataDict = true
  metadataFromHeaders : env.lib .metadataFromHeaders = true
  usermdDict : env.lib .usermdDict = true
  usermdCopy : env.lib .usermdCopy = true
  object : ∃ o plain, st.lookup path = some o ∧ o.ftype ≠ .dir ∧ env.Fetches path o.userMeta ∧
    unpack cx (localName cx path) o.userMeta o.data = some plain

/-- What lets an open return 0 once the entry is there. -/
def World.OpenCompletes (cx : Ctx) (w : World) (env : Env) (path : Path) (flags : OpenFlags) :
    Prop :=
  if getModeFromFlags flags = .creat then env.sys .openCache = none
  else w.IsLocal path ∨ Downloads cx env w.store path

/-- What lets `dfs_create` go on to return 0 when its open has. -/
structure CreateCompletes (cx : Ctx) (env : Env) (st : Store) (path : Path) : Prop where
  fchmodCreate : env.sys .fchmodCreate = none
  fstatCreate : env.sys .fstatCreate = none
  createDict : env.lib .createDict = true
  mknod : cx.conf.regex path = false →
    env.remote (.mknod path) = .success ∧ st.ftype? path ≠ some .dir

/-- `dfs_create` gets to its end, or stops before its open has an entry. -/
def World.CreateBalanced (cx : Ctx) (w : World) (env : Env) (path : Path) (mode : Nat)
    (flags : OpenFlags) : Prop :=
  sIsreg mode = false ∨
  cx.conf.regex path = false ∧ env.remote (.namei path) ≠ .success ∧
    env.remote (.namei path) ≠ .enoent ∨
  lookupOrPopulate env w path .reg = none ∨
  w.OpenCompletes cx env path flags ∧ CreateCompletes cx env w.store path

/-- An open or a create gets to its end or stops before it has an entry, and a release gets
to know its file. No other callback is called. -/
def Balanced (cx : Ctx) (d : Daemon) (c : Call) : Prop :=
  match c.op with
  | .open path flags =>
    lookupOrPopulate c.env d.world path .reg = none ∨ d.world.OpenCompletes cx c.env path flags
  | .create path mode flags => d.world.CreateBalanced cx c.env path mode flags
  | .release _ => c.env.sys .fstatRelease = none
  | _ => False

/-- The count of an entry is the number of handles on it, so that no release waits and an
entry without a handle falls to the collector. -/
structure Daemon.Exact (d : Daemon) : Prop where
  refcount : ∀ path a pe, d.world.hash path = some a → d.world.heap a = some pe →
    pe.refcount = d.handlesOn a
  unblocked : ∀ cx env, ∀ h ∈ d.handles,
    dfsRelease cx env d.world h.path h.flags h.addr ≠ .error .blocked
  collectable : ∀ cx env path a pe, d.world.hash path = some a → d.world.heap a = some pe →
    d.handlesOn a = 0 → gcRemoves cx env d.world.fs pe = true →
    (gcCallback cx env d.world path).hash path = none

/-- No callback takes the mutex of an entry; the collector gives it back. -/
theorem unlocked_lasting (cx : Ctx) (env : Env) :
    Lasting cx env fun pe => pe.locked = false where
  new _ _ := rfl
  filetype _ h := h
  dirent _ h := h
  atime _ h := h
  locked _ _ h := h
  stated _ h := h
  opened := by
    intro st fs fs' path pe qe m ret hw ho h
    have hs := (openMode_spec hw ho).fields
    split_ifs
    · rw [hs]
      exact h
    · rw [hs]
      exact h
  created _ _ _ _ h := h
  attributes _ h := h
  released _ _ _ hl h := hl h

section Completes

variable {cx : Ctx} {env : Env} {st : Store} {fs fs' : LocalFs} {path : Path} {pe pe' : Entry}
  {ret : Int}

theorem dfsGetLocalCopy_isSome (hd : Downloads cx env st path) (hw : fs.Wf)
    (hl : pe.ondisk ≠ .loc) {flags : OpenFlags} {fd : Option Nat}
    (h : dfsGetLocalCopy cx env st fs pe path flags = .ok (fd, pe', fs')) : fd.isSome := by
  obtain ⟨o, plain, ho, hdir, hf, hu⟩ := hd.object
  have hfetch := fetchObject_completes hf hw ho hdir hu flags
  have hhead := downloadHeaders_ok hd.namei hd.headAll ho
  simp only [dfsGetLocalCopy, hhead, hd.metadataDict, hd.metadataFromHeaders] at h
  simp only [Int.reduceEq, Bool.true_eq_false, or_self, if_false, localCopy] at h
  obtain ⟨pl, hlock, h⟩ := Except.bind_ok.mp h
  obtain ⟨_, rfl⟩ := pentryMdLock_ok hlock
  simp only [pentrySetUsermd, hd.usermdDict, hd.usermdCopy] at h
  rw [compareDigests_fst (by exact hl)] at h
  simp only [Bool.not_true, Bool.false_eq_true, if_false, Int.reduceEq, Except.ok.injEq,
    Prod.mk.injEq] at h
  rw [← h.1]
  exact hfetch

/-- An open of an entry that is cached, can be downloaded or is made anew returns 0. -/
theorem openMode_completes {smode : StateMode} (hw : fs.Wf)
    (hc : smode = .creat → env.sys .openCache = none)
    (hd : smode ≠ .creat → pe.fd.isSome ∨ pe.ondisk ≠ .loc ∧ Downloads cx env st path)
    (h : openMode cx env st fs path pe smode = .ok (ret, pe', fs')) : ret = 0 := by
  have hex : ∀ {fl qe gs r}, smode ≠ .creat →
      openExisting cx env st fs path pe fl = .ok (r, qe, gs) → r = 0 := by
    intro fl qe gs r hm he
    unfold openExisting at he
    cases hfd : pe.fd with
    | some fd =>
      simp only [hfd, Except.ok.injEq, Prod.mk.injEq] at he
      exact he.1.symm
    | none =>
      rw [hfd] at he
      obtain ⟨⟨fd, re, gs'⟩, hg, he⟩ := Except.bind_ok.mp he
      have hdl : pe.ondisk ≠ .loc ∧ Downloads cx env st path := by
        rcases hd hm with h' | h'
        · simp [hfd] at h'
        · exact h'
      obtain ⟨k, rfl⟩ := Option.isSome_iff_exists.mp (dfsGetLocalCopy_isSome hdl.2 hw hdl.1 hg)
      simp only [Option.isNone_some, Bool.false_eq_true, if_false, Except.ok.injEq,
        Prod.mk.injEq] at he
      exact he.1.symm
  have hwr : ∀ {fl}, smode ≠ .creat →
      openWronly cx env st fs path pe fl = .ok (ret, pe', fs') → ret = 0 := by
    intro fl hm hwr
    obtain ⟨⟨r, qe, gs⟩, he, hwr⟩ := Except.bind_ok.mp hwr
    simp only [Except.ok.injEq, Prod.mk.injEq] at hwr
    rw [← hwr.1]
    exact hex hm he
  cases smode with
  | rdonly => exact hex (by decide) h
  | wronly => exact hwr (by decide) h
  | rdwr => exact hwr (by decide) h
  | creat =>
    obtain ⟨⟨fd, gs⟩, ho⟩ := Option.isSome_iff_exists.mp
      (openFile_isSome fs (buildCacheTree cx path) (openFlags .creat) 0o644 (.inl rfl))
    simp only [openMode, openCreat, hc rfl, ho, Except.ok.injEq, Prod.mk.injEq] at h
    exact h.1.symm

theorem fchmod_fstat {fd : Nat} {f : OpenFile} (hf : fs.fds.lookup fd = some f) (mode : Nat)
    (times : Int × Int × Int) : ((fs.fchmod fd mode).fstat fd times).isSome := by
  simp [LocalFs.fchmod, LocalFs.fstat, inodeOf, hf, LocalFs.chmod]

theorem createOpened_completes {st' : Store} {mode fd : Nat} {f : OpenFile}
    (hc : CreateCompletes cx env st path) (hfd : pe.fd = some fd)
    (hf : fs.fds.lookup fd = some f)
    (h : createOpened env st fs path mode (cx.conf.regex path) pe = .ok (ret, pe', fs', st')) :
    ret = 0 := by
  obtain ⟨stat, hstat⟩ := Option.isSome_iff_exists.mp (fchmod_fstat hf mode env.times)
  unfold createOpened at h
  simp only [hfd, hc.fchmodCreate, hstat, hc.fstatCreate, hc.createDict, Bool.not_true,
    Bool.false_eq_true, if_false] at h
  split_ifs at h with h1 hx
  · obtain ⟨pl, _, h⟩ := Except.bind_ok.mp h
    simp only [Except.ok.injEq, Prod.mk.injEq] at h
    exact h.1.symm
  · obtain ⟨pl, _, h⟩ := Except.bind_ok.mp h
    obtain ⟨hm, hdir⟩ := hc.mknod (by simpa using hx)
    have hmk : dplMknod env st path = (.success, st.insert path (emptyObj .reg)) := by
      simp [dplMknod, hm, hdir]
    simp only [hmk, Except.ok.injEq, Prod.mk.injEq] at h
    exact h.1.symm

/-- `dfs_create` puts its object at the end of a run through. -/
theorem createOpened_put {st' : Store} {mode : Nat}
    (h : createOpened env st fs path mode (cx.conf.regex path) pe = .ok (ret, pe', fs', st')) :
    st' = st ∨ CreateCompletes cx env st path ∧ cx.conf.regex path = false ∧
      st' = st.insert path (emptyObj .reg) := by
  unfold createOpened at h
  dsimp only at h
  cases hfd : pe.fd with
  | none =>
    simp only [hfd, Except.ok.injEq, Prod.mk.injEq] at h
    exact .inl h.2.2.2.symm
  | some fd =>
    rw [hfd] at h
    dsimp only at h
    split at h
    · simp only [Except.ok.injEq, Prod.mk.injEq] at h
      exact .inl h.2.2.2.symm
    · simp only [Except.ok.injEq, Prod.mk.injEq] at h
      exact .inl h.2.2.2.symm
    rename_i stat hmode _
    cases hst : env.sys .fstatCreate with
    | some e =>
      simp only [hst, Except.ok.injEq, Prod.mk.injEq] at h
      exact .inl h.2.2.2.symm
    | none =>
      simp only [hst] at h
      split_ifs at h with h1 h2 hx
      · simp only [Except.ok.injEq, Prod.mk.injEq] at h
        exact .inl h.2.2.2.symm
      all_goals
        obtain ⟨pl, hl, h⟩ := Except.bind_ok.mp h
      · simp only [Except.ok.injEq, Prod.mk.injEq] at h
        exact .inl h.2.2.2.symm
      · have hx : cx.conf.regex path = false := by simpa using hx
        unfold dplMknod at h
        cases hm : env.remote (.mknod path) with
        | success =>
          rw [hm] at h
          dsimp only at h
          by_cases hd : st.ftype? path = some .dir
          · simp only [hd, if_true, Except.ok.injEq, Prod.mk.injEq] at h
            exact .inl h.2.2.2.symm
          · simp only [hd, if_false, Except.ok.injEq, Prod.mk.injEq] at h
            refine .inr ⟨⟨hmode, hst, by simpa using h2, fun _ => ⟨hm, hd⟩⟩, hx, h.2.2.2.symm⟩
        | _ =>
          simp only [hm, Except.ok.injEq, Prod.mk.injEq] at h
          exact .inl h.2.2.2.symm

/-- A release whose `fstat` works takes one from a count that is not zero. -/
theorem releaseEntry_counts {st' : Store} {flags : OpenFlags} {fd : Nat} {f : OpenFile}
    (hs : env.sys .fstatRelease = none) (hfd : pe.fd = some fd) (hf : fs.fds.lookup fd = some f)
    (h : releaseEntry cx env st fs path flags pe = .ok (ret, pe', fs', st')) :
    pe'.refcount + 1 = pe.refcount := by
  obtain ⟨stat, hstat⟩ : ∃ stat, fs.fstat fd env.times = some stat := by
    simp [LocalFs.fstat, inodeOf, hf]
  unfold releaseEntry at h
  simp only [hfd, hs, hstat] at h
  obtain ⟨qe, hq, h⟩ := Except.bind_ok.mp h
  obtain ⟨hpos, rfl⟩ := pentryDecRefcount_ok hq
  have hlt : pe.refcount - 1 + 1 = pe.refcount := by omega
  split_ifs at h <;>
  · simp only [Except.ok.injEq, Prod.mk.injEq] at h
    obtain ⟨_, rfl, _⟩ := h
    exact hlt

theorem releaseEntry_unblocked {flags : OpenFlags} (hpos : 0 < pe.refcount) :
    releaseEntry cx env st fs path flags pe ≠ .error .blocked := by
  unfold releaseEntry
  cases pe.fd with
  | none => simp
  | some fd =>
    dsimp only
    split
    · have h0 : pe.refcount ≠ 0 := by omega
      simp only [pentryDecRefcount, h0, if_false, bind, Except.bind]
      split_ifs <;> simp
    · simp

end Completes

/-- The count of every entry is the one given for its address. -/
def World.Counts (s : World) (n : Addr → Nat) : Prop :=
  ∀ a pe, s.heap a = some pe → pe.refcount = n a

theorem Looked.counts {env : Env} {type : TPathType} {s u : World} {path : Path} {a : Addr}
    (h : Looked env type s path a u) {n : Addr → Nat} (hc : s.Counts n) (hn : n s.brk = 0) : u.Counts n := by
  rcases h.cases with rfl | ⟨_, _, rfl⟩
  · exact hc
  · intro b pe hb
    by_cases he : b = s.brk
    · subst he
      simp only [World.insertEntry, Function.update_self, Option.some.injEq] at hb
      rw [hn, ← hb]
      rfl
    · simp only [World.insertEntry, Function.update_of_ne he] at hb
      exact hc b pe hb

theorem World.Counts.setEntry {s t : World} {n : Addr → Nat} (hc : s.Counts n) {a : Addr}
    {pe : Entry} (ht : t.heap = Function.update s.heap a (some pe)) {m : Addr → Nat}
    (ha : pe.refcount = m a) (hm : ∀ b, b ≠ a → m b = n b) : t.Counts m := by
  intro b qe hb
  by_cases he : b = a
  · subst he
    simp only [ht, Function.update_self, Option.some.injEq] at hb
    rw [← hb, ha]
  · simp only [ht, Function.update_of_ne he] at hb
    rw [hc b qe hb, hm b he]

section Steps

variable {cx : Ctx} {env : Env} {s t : World} {path : Path} {flags : OpenFlags} {ret : Int}
  {fh : Option Addr} {n : Addr → Nat}

/-- An open that does not fail on the way counts the handle it returns. -/
theorem dfsOpen_counts (hi : s.Inv) (hc : s.Counts n) (hn : n s.brk = 0)
    (hg : lookupOrPopulate env s path .reg = none ∨ s.OpenCompletes cx env path flags)
    (h : dfsOpen cx env s path flags = .ok (ret, fh, t)) :
    fh = none ∧ t = s ∨ ∃ a, ret = 0 ∧ fh = some a ∧ t.store = s.store ∧
      t.Counts fun b => n b + if a = b then 1 else 0 := by
  by_cases hpop : lookupOrPopulate env s path .reg = none
  · simp only [dfsOpen, hpop, Except.ok.injEq, Prod.mk.injEq] at h
    exact .inl ⟨h.2.1.symm, h.2.2.symm⟩
  · replace hg := hg.resolve_left hpop
    rcases dfsOpen_cases hi h with ⟨_, rfl, rfl⟩ | ⟨a, u, pe, qe, fs, hl, hpe, rfl, ho, rfl⟩
    · exact .inl ⟨rfl, rfl⟩
    · have hs := openMode_spec hi.wf ho
      have hloc := hl.isLocal_iff hi hpe
      have hcached := hl.inv.cached a pe hpe
      have h0 : ret = 0 := by
        refine openMode_completes hi.wf (fun hm => ?_) (fun hm => ?_) ho
        · rwa [World.OpenCompletes, if_pos hm] at hg
        · rw [World.OpenCompletes, if_neg hm, hloc] at hg
          by_cases hfd : pe.fd.isSome
          · exact .inl hfd
          · exact .inr ⟨fun e => hfd (hcached.mp e), hg.resolve_left hfd⟩
      subst h0
      refine .inr ⟨a, rfl, rfl, hl.store, ?_⟩
      have hcu := hl.counts hc hn
      have hcount : qe.refcount = n a + 1 := by
        rw [hs.refcount, ← hcu a pe hpe]
        rfl
      refine hcu.setEntry rfl ?_ fun b hb => ?_
      · simpa using hcount
      · simp [Ne.symm hb]

theorem dfsCreate_counts {mode : Nat} (hi : s.Inv) (hc : s.Counts n) (hn : n s.brk = 0)
    (hg : s.CreateBalanced cx env path mode flags)
    (h : dfsCreate cx env s path mode flags = .ok (ret, fh, t)) :
    (ret ≠ 0 ∨ fh = none) ∧ t = s ∨
      ∃ a, ret = 0 ∧ fh = some a ∧ t.Counts fun b => n b + if a = b then 1 else 0 := by
  have hstop : Except.ok (-1, none, s) = Except.ok (ε := Fault) (ret, fh, t) →
      (ret ≠ 0 ∨ fh = none) ∧ t = s := by
    intro he
    simp only [Except.ok.injEq, Prod.mk.injEq] at he
    exact ⟨.inr he.2.1.symm, he.2.2.symm⟩
  rcases hg with hreg | ⟨hx, hn1, hn2⟩ | hg
  · simp only [dfsCreate, hreg, Bool.not_false, if_true] at h
    exact .inl (hstop h)
  · have hnamei : (dplNamei env s.store path).1 ≠ .success ∧
        (dplNamei env s.store path).1 ≠ .enoent := by
      unfold dplNamei
      cases hr : env.remote (.namei path) <;> simp_all
    by_cases hreg : sIsreg mode = true
    · simp only [dfsCreate, hreg, hx, Bool.not_true, Bool.false_eq_true, if_false,
        if_pos hnamei] at h
      exact .inl (hstop h)
    · simp only [dfsCreate, hreg, Bool.not_false, if_true] at h
      exact .inl (hstop h)
  · rcases dfsCreate_cases h with ⟨rfl, rfl, rfl⟩ | ⟨r, u, ho, hcase⟩
    · exact .inl ⟨.inr rfl, rfl⟩
    · have hopen := dfsOpen_counts hi hc hn (hg.imp id And.left) ho
      obtain ⟨hiu, _, hret⟩ := dfsOpen_inv hi ho
      rcases hopen with ⟨rfl, rfl⟩ | ⟨a, rfl, rfl, hst, hcu⟩
      · rcases hcase with ⟨rfl, rfl, _⟩ | ⟨_, a, _, _, _, _, hfh, _⟩
        · exact .inl ⟨.inr rfl, rfl⟩
        · cases hfh
      · rcases hcase with ⟨_, _, hr⟩ | ⟨_, b, pe, pe', fs', st', hfh, hpe, hcr, rfl⟩
        · simp at hr
        · obtain rfl : a = b := Option.some.inj hfh
          have hcc : CreateCompletes cx env u.store path := by
            rcases hg with hg | hg
            · simp [dfsOpen, hg] at ho
            · exact hst ▸ hg.2
          obtain ⟨fd, f, hfd, hf⟩ : ∃ fd f, pe.fd = some fd ∧ u.fs.fds.lookup fd = some f := by
            obtain ⟨c, qe, hc', hqe, _, hsome, _⟩ := (hret.resolve_right (by decide)).2.entry
            obtain rfl : a = c := Option.some.inj hc'
            obtain rfl : pe = qe := Option.some.inj (hpe.symm.trans hqe)
            obtain ⟨fd, hfd⟩ := Option.isSome_iff_exists.mp hsome
            obtain ⟨f, hf, _⟩ := hiu.opened a pe fd hpe hfd
            exact ⟨fd, f, hfd, hf⟩
          have h0 := createOpened_completes hcc hfd hf hcr
          obtain ⟨md, l, hq, _⟩ := createOpened_spec hiu.wf hcr
          refine .inr ⟨a, h0, rfl, hcu.setEntry rfl ?_ fun _ _ => rfl⟩
          have hold := hcu a pe hpe
          rw [hq]
          exact hold

/-- The counts as they are. -/
theorem World.counts_self (s : World) : s.Counts fun a => ((s.heap a).map (·.refcount)).getD 0 := by
  intro a pe ha
  simp [ha]

theorem World.Inv.counts_brk (hi : s.Inv) : ((s.heap s.brk).map (·.refcount)).getD 0 = 0 := by
  rw [hi.brk_free]
  rfl

/-- An open that does not fail on the way returns 0, or has done nothing. -/
theorem dfsOpen_balanced (hi : s.Inv)
    (hg : lookupOrPopulate env s path .reg = none ∨ s.OpenCompletes cx env path flags)
    (h : dfsOpen cx env s path flags = .ok (ret, fh, t)) : t = s ∨ ret = 0 ∧ fh.isSome := by
  rcases dfsOpen_counts hi s.counts_self hi.counts_brk hg h with ⟨_, ht⟩ | ⟨a, h0, hfh, _⟩
  · exact .inl ht
  · exact .inr ⟨h0, by rw [hfh]; rfl⟩

theorem dfsCreate_balanced {mode : Nat} (hi : s.Inv)
    (hg : s.CreateBalanced cx env path mode flags)
    (h : dfsCreate cx env s path mode flags = .ok (ret, fh, t)) : t = s ∨ ret = 0 ∧ fh.isSome := by
  rcases dfsCreate_counts hi s.counts_self hi.counts_brk hg h with ⟨_, ht⟩ | ⟨a, h0, hfh, _⟩
  · exact .inl ht
  · exact .inr ⟨h0, by rw [hfh]; rfl⟩

end Steps

/-- The invariant of the run: entries in order, handles live, and counts exact. -/
structure Daemon.Counted (d : Daemon) : Prop where
  inv : d.world.Inv
  live : d.Live
  counts : d.world.Counts d.handlesOn

namespace Daemon.Counted

variable {d : Daemon} (h : d.Counted)
include h

/-- No handle refers to an address that has not been used. -/
theorem brk : d.handlesOn d.world.brk = 0 := by
  rw [handlesOn_eq_zero]
  intro g hg he
  obtain ⟨pe, hpe, _⟩ := h.live.entry g hg
  rw [he, h.inv.brk_free] at hpe
  cases hpe

theorem exact (hfree : d.world.All fun _ _ pe => pe.locked = false) : d.Exact := by
  refine ⟨fun path a pe _ ha => h.counts a pe ha, ?_, ?_⟩
  · intro cx env g hg he
    obtain ⟨pe, hpe, _⟩ := h.live.entry g hg
    have hpos : 0 < pe.refcount := by
      rw [h.counts g.addr pe hpe]
      exact handlesOn_pos hg
    have hu : releaseEntry cx env d.world.store d.world.fs g.path g.flags pe ≠ .error .blocked :=
      releaseEntry_unblocked hpos
    simp only [dfsRelease, World.deref, hpe, bind, Except.bind] at he
    cases hr : releaseEntry cx env d.world.store d.world.fs g.path g.flags pe with
    | error e =>
      rw [hr] at he hu
      simp only [Except.error.injEq] at he
      exact hu (by rw [he])
    | ok r =>
      rw [hr] at he
      cases he
  · intro cx env path a pe hh ha h0 hrem
    have hlock := hfree a pe ha
    have hr : pe.refcount = 0 := (h.counts a pe ha).trans h0
    have he : d.world.entry path = some pe := by simp [World.entry, hh, ha]
    simp [gcCallback, he, hr, hlock, hrem, gcRemove, World.hashRemove_hash]

omit h in
/-- A handle given out is counted. -/
theorem grant {w : World} (hi : w.Inv) {path : Path} {a : Addr} {flags : OpenFlags}
    (hl : Live ⟨w, d.handles ++ [⟨a, path, flags⟩]⟩)
    (hc : w.Counts fun b => d.handlesOn b + if a = b then 1 else 0) :
    Counted ⟨w, d.handles ++ [⟨a, path, flags⟩]⟩ := by
  refine ⟨hi, hl, fun b pe hb => ?_⟩
  rw [handlesOn_append]
  exact hc b pe hb

theorem step {cx : Ctx} {env : Env} {op : Op} {ret : Int} {d' : Daemon}
    (hg : DropletFs.Balanced cx d ⟨op, env⟩) (hc : Calls cx env d op ret d') : d'.Counted := by
  have hi := hc.inv h.inv
  have hl : d'.Live := by
    refine hc.live h.inv h.live ?_ ?_
    · rintro path rfl
      cases hg
    · rintro old new w rfl
      cases hg
  cases hc with
  | opened ho =>
    rcases dfsOpen_counts h.inv h.counts h.brk hg ho with ⟨hn, _⟩ | ⟨b, _, hb, _, hcb⟩
    · cases hn
    · obtain rfl := Option.some.inj hb
      exact grant hi hl hcb
  | openFailed hr ho =>
    rcases dfsOpen_counts h.inv h.counts h.brk hg ho with ⟨_, rfl⟩ | ⟨b, h0, hb, _⟩
    · exact ⟨hi, hl, h.counts⟩
    · simp [h0, hb] at hr
  | created ho =>
    rcases dfsCreate_counts h.inv h.counts h.brk hg ho with ⟨hn, _⟩ | ⟨b, _, hb, hcb⟩
    · simp at hn
    · obtain rfl := Option.some.inj hb
      exact grant hi hl hcb
  | createFailed hr ho =>
    rcases dfsCreate_counts h.inv h.counts h.brk hg ho with ⟨_, rfl⟩ | ⟨b, h0, hb, _⟩
    · exact ⟨hi, hl, h.counts⟩
    · simp [h0, hb] at hr
  | released hidx hr =>
    rename_i i g w
    obtain ⟨pe, pe', fs, st, ha, hre, rfl⟩ := dfsRelease_cases hr
    obtain ⟨qe, hqe, _, hsome⟩ := h.live.entry g (List.mem_of_getElem? hidx)
    obtain rfl : pe = qe := Option.some.inj (ha.symm.trans hqe)
    obtain ⟨fd, hfd⟩ := Option.isSome_iff_exists.mp hsome
    obtain ⟨f, hf, _⟩ := h.inv.opened g.addr pe fd ha hfd
    have hcount := releaseEntry_counts hg hfd hf hre
    have hold := h.counts g.addr pe ha
    refine ⟨hi, hl, ?_⟩
    refine h.counts.setEntry rfl ?_ fun b hb => ?_
    · have := handlesOn_eraseIdx d.world d.world hidx g.addr
      rw [if_pos rfl] at this
      change pe.refcount = handlesOn ⟨d.world, d.handles⟩ g.addr at hold
      change pe'.refcount = handlesOn ⟨d.world, d.handles.eraseIdx i⟩ g.addr
      omega
    · have := handlesOn_eraseIdx d.world d.world hidx b
      rw [if_neg (Ne.symm hb)] at this
      change handlesOn ⟨d.world, d.handles.eraseIdx i⟩ b = handlesOn ⟨d.world, d.handles⟩ b
      omega
  | notReleased => exact h
  | _ => cases hg

end Daemon.Counted

/-- In every run of opens, creates and releases none of which stops on the way, the counts
are the numbers of handles. -/
theorem refcount_exact (cx : Ctx) (store : Store) (fs : LocalFs) (ring : Ring)
    (calls : List Call) (d : Daemon) (hw : fs.Wf)
    (hm : Transition.Meets (Daemon.step cx) (Balanced cx) (.init store fs ring) calls)
    (hr : Transition.exec (Daemon.step cx) (.init store fs ring) calls = .ok d) : d.Exact := by
  have hfree := Daemon.Reachable.lasting (unlocked_lasting cx) ⟨store, fs, ring, hw, calls, hr⟩
  suffices hc : d.Counted from hc.exact hfree
  refine Transition.exec_invariant (I := Daemon.Counted) ?_ ?_ hm hr
  · rintro d ⟨op, env⟩ t hd hg ht
    obtain ⟨ret, hc⟩ := Daemon.step_cases ht
    exact hd.step hg hc
  · refine ⟨Daemon.init_inv hw, Daemon.init_live store fs ring, ?_⟩
    intro a pe ha
    cases ha

/-- `/f` is downloaded for one handle and found cached for a second, which is released. -/
def openTwice : List Call :=
  [Sample.call (.open ['/', 'f'] Sample.readOnly), Sample.call (.open ['/', 'f'] Sample.readOnly),
    Sample.call (.release 0)]

theorem refcount_exact_sample :
    ∃ d, Transition.exec (Daemon.step Sample.plain)
        (Sample.daemon [(['/', 'f'], Sample.file [1])]) openTwice = .ok d ∧
      (d.world.entry ['/', 'f']).map (·.refcount) = some 1 ∧ d.Exact := by
  have hf : Env.quiet.Fetches ['/', 'f'] (Sample.file [1]).userMeta :=
    Env.quiet_allOk.fetches _ _
  have hm : Transition.Meets (Daemon.step Sample.plain) (Balanced Sample.plain)
      (.init (Sample.store [(['/', 'f'], Sample.file [1])]) Sample.fs Sample.ring) openTwice := by
    refine ⟨.inr (.inr ?_), .inr (.inl rfl), rfl, trivial⟩
    exact ⟨rfl, rfl, rfl, rfl, rfl, rfl, _, [1], rfl, by decide, hf, rfl⟩
  exact ⟨_, rfl, rfl, refcount_exact Sample.plain _ _ _ _ _ Sample.fs_wf hm rfl⟩

/-- An open of a name that does not exist fails, and the count of its entry stays raised. -/
theorem failed_open_leaks :
    ∃ d, Transition.exec (Daemon.step Sample.plain) (Sample.daemon [])
        [Sample.call (.open ['/', 'f'] Sample.readOnly)] = .ok d ∧
      d.handles = [] ∧ (d.world.entry ['/', 'f']).map (·.refcount) = some 1 ∧ ¬d.Exact := by
  refine ⟨_, rfl, rfl, rfl, fun h => ?_⟩
  have h1 := h.refcount ['/', 'f'] 0 _ rfl rfl
  cases h1

end DropletFs
