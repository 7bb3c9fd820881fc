import DropletFs.Table.Filetype

/-! What a `dfs_create` that fails leaves of a path without an object. -/

namespace DropletFs

open CText LocalFs

/-- What an entry tells of the file of its path. -/
def Entry.file (pe : Entry) : OnDisk × Option Nat × Bool × Option Dict :=
  (pe.ondisk, pe.fd, pe.exclude, pe.usermd)

/-- No stat of the path finds it. -/
def World.Unseen (s : World) (path : Path) : Prop :=
  ∀ env ret st t, dfsGetattr env s path = .ok (ret, st, t) → ret ≠ 0

/-- The path has the entry it had, or none, the cache has the files it had, and a path that no
stat found is found by none. -/
structure World.NoFileLeft (s t : World) (path : Path) : Prop where
  entry : (t.entry path).map Entry.file = (s.entry path).map Entry.file
  files : t.fs.files = s.fs.files
  unseen : s.Unseen path → t.Unseen path

/-- The steps of `dfs_create` on an open file that can fail before the dictionary is copied. -/
def CreateKeeps (env : Env) : Prop :=
  env.sys .fchmodCreate ≠ none ∨ env.sys .fstatCreate ≠ none ∨ env.lib .createDict = false ∨
    env.lib .usermdDict = false

/-- A create that stops before its open, gets to its end, cannot open an entry that was there,
or fails with the open file of such an entry before it has changed it. -/
def World.CreateUndone (cx : Ctx) (s : World) (env : Env) (path : Path) (mode : Nat)
    (flags : OpenFlags) : Prop :=
  s.CreateStops cx env path mode ∨
  s.OpenCompletes cx env path flags ∧ CreateCompletes cx env s.store path ∨
  (s.entry path).isSome ∧ ¬s.OpenCompletes cx env path flags ∨
  s.IsLocal path ∧ getModeFromFlags flags ≠ .creat ∧
    (s.entry path).map (·.exclude) = some (cx.conf.regex path) ∧ CreateKeeps env

section

variable {cx : Ctx} {env : Env} {s t : World} {path : Path} {mode : Nat} {flags : OpenFlags}
  {ret : Int} {fh : Option Addr}

/-- Past its checks, `dfs_create` opens the entry and, if that works, goes on with it. -/
theorem dfsCreate_goes (hi : s.Inv) (hg : ¬s.CreateStops cx env path mode)
    (h : dfsCreate cx env s path mode flags = .ok (ret, fh, t)) :
    ∃ r a u pe qe fs, Looked env .reg s path a u ∧ u.heap a = some pe ∧
      openMode cx env s.store s.fs path (pentryIncRefcount pe) (getModeFromFlags flags) =
        .ok (r, qe, fs) ∧
      (r = -1 ∧ ret = -1 ∧ t = { u.setEntry a qe with fs := fs } ∨
        r = 0 ∧ ∃ pe' fs' st, createOpened env s.store fs path mode (cx.conf.regex path)
          { qe with ondisk := .loc } = .ok (ret, pe', fs', st) ∧
          t = { u.setEntry a pe' with fs := fs', store := st }) := by
  simp only [World.CreateStops, not_or, Bool.not_eq_false] at hg
  obtain ⟨hreg, hx, hl⟩ := hg
  have hrc : ¬((if cx.conf.regex path then Status.success else (dplNamei env s.store path).1) ≠
      .success ∧ (if cx.conf.regex path then Status.success
        else (dplNamei env s.store path).1) ≠ .enoent) := by
    cases hr : cx.conf.regex path with
    | true => simp
    | false =>
      intro hn
      exact hx ⟨hr, by simpa [hr] using hn⟩
  simp only [dfsCreate, hreg, Bool.not_true, Bool.false_eq_true, if_false, if_neg hrc] at h
  obtain ⟨⟨r, gh, v⟩, ho, h⟩ := Except.bind_ok.mp h
  rcases dfsOpen_cases hi ho with ⟨_, rfl, rfl⟩ | ⟨a, u, pe, qe, fs, hlook, ha, rfl, hm, rfl⟩
  · exfalso
    unfold dfsOpen at ho
    cases hl' : lookupOrPopulate env v path .reg with
    | none => exact hl hl'
    | some au =>
      rw [hl'] at ho
      obtain ⟨pe, _, ho⟩ := Except.bind_ok.mp ho
      obtain ⟨⟨r', qe, fs⟩, _, ho⟩ := Except.bind_ok.mp ho
      dsimp only at ho
      split_ifs at ho
      · cases ho
      · cases ho
  · refine ⟨r, a, u, pe, qe, fs, hlook, ha, hm, ?_⟩
    dsimp only at h
    rcases (openMode_spec hi.wf hm).result with ⟨rfl, _⟩ | ⟨rfl, _⟩
    · simp only [Int.reduceNeg, Int.reduceEq, if_false] at h
      obtain ⟨re, hre, h⟩ := Except.bind_ok.mp h
      obtain ⟨⟨r', pe', fs', st⟩, hc, h⟩ := Except.bind_ok.mp h
      simp only [Except.ok.injEq, Prod.mk.injEq] at h
      obtain ⟨rfl, _, rfl⟩ := h
      obtain rfl : re = { qe with ondisk := .loc } := by
        have hself := World.deref_ok.mp hre
        simpa using hself.symm
      refine .inr ⟨rfl, pe', fs', st, ?_, ?_⟩
      · rw [← hlook.store]
        exact hc
      · simp [World.setEntry]
    · simp only [if_true, Except.ok.injEq, Prod.mk.injEq] at h
      obtain ⟨rfl, _, rfl⟩ := h
      exact .inl ⟨rfl, rfl, by simp⟩

/-- Of an object that is not there an open downloads nothing. -/
theorem openMode_absent {st : Store} {fs fs' : LocalFs} {pe pe' : Entry} {smode : StateMode}
    (hst : st.ftype? path = none)
    (h : openMode cx env st fs path pe smode = .ok (ret, pe', fs')) :
    ret = -1 ∧ pe' = pe ∧ fs' = fs ∨
      ret = 0 ∧ smode = .creat ∧ (∃ fd, pe'.fd = some fd ∧ fs.New fd) ∨
      ret = 0 ∧ smode ≠ .creat ∧ pe.fd.isSome ∧ fs' = fs ∧
        ∃ flag, pe' = { pe with flag := flag } := by
  have hunused : ¬HeadersUsed env st path := by
    intro hu
    have hsome := hu.2.1
    rw [hst] at hsome
    cases hsome
  have hex : ∀ {fl r qe gs}, openExisting cx env st fs path pe fl = .ok (r, qe, gs) →
      r = -1 ∧ qe = pe ∧ gs = fs ∨ r = 0 ∧ pe.fd.isSome ∧ gs = fs ∧ qe = pe := by
    intro fl r qe gs he
    unfold openExisting at he
    cases hfd : pe.fd with
    | some fd =>
      simp only [hfd, Except.ok.injEq, Prod.mk.injEq] at he
      exact .inr ⟨he.1.symm, rfl, he.2.2.symm, he.2.1.symm⟩
    | none =>
      simp only [hfd, dfsGetLocalCopy_unused hunused, bind, Except.bind, Except.ok.injEq,
        Prod.mk.injEq] at he
      refine .inl ⟨he.1.symm, ?_, he.2.2.symm⟩
      rw [← he.2.1, ← hfd]
  have hwr : ∀ {fl}, smode ≠ .creat → openWronly cx env st fs path pe fl = .ok (ret, pe', fs') →
      ret = -1 ∧ pe' = pe ∧ fs' = fs ∨ ret = 0 ∧ smode ≠ .creat ∧ pe.fd.isSome ∧ fs' = fs ∧
        ∃ flag, pe' = { pe with flag := flag } := by
    intro fl hm hw
    obtain ⟨⟨r, qe, gs⟩, he, hw⟩ := Except.bind_ok.mp hw
    simp only [Except.ok.injEq, Prod.mk.injEq] at hw
    obtain ⟨rfl, hq, rfl⟩ := hw
    rcases hex he with ⟨rfl, rfl, rfl⟩ | ⟨rfl, hfd, rfl, rfl⟩
    · exact .inl ⟨rfl, by simpa using hq.symm, rfl⟩
    · exact .inr ⟨rfl, hm, hfd, rfl, .dirty, by simpa using hq.symm⟩
  cases smode with
  | rdonly =>
    rcases hex h with ⟨rfl, rfl, rfl⟩ | ⟨rfl, hfd, rfl, rfl⟩
    · exact .inl ⟨rfl, rfl, rfl⟩
    · exact .inr (.inr ⟨rfl, by decide, hfd, rfl, pe'.flag, rfl⟩)
  | wronly => exact (hwr (by decide) h).imp id .inr
  | rdwr => exact (hwr (by decide) h).imp id .inr
  | creat =>
    simp only [openMode, openCreat, Except.ok.injEq] at h
    split at h
    · rename_i fd gs _ ho
      simp only [Prod.mk.injEq] at h
      obtain ⟨rfl, rfl, rfl⟩ := h
      obtain ⟨_, hnew⟩ := (Frame.refl [collapse (buildCacheTree cx path)] fs).openFile
        (by simp) ho
      exact .inr (.inl ⟨rfl, rfl, fd, rfl, hnew⟩)
    · simp only [Prod.mk.injEq] at h
      exact .inl ⟨h.1.symm, h.2.1.symm, h.2.2.symm⟩

theorem dplMknod_success_iff {st : Store} : (dplMknod env st path).1 = .success ↔
    env.remote (.mknod path) = .success ∧ st.ftype? path ≠ some .dir := by
  unfold dplMknod
  cases env.remote (.mknod path) with
  | success =>
    by_cases hd : st.ftype? path = some .dir
    · simp [hd]
    · simp [hd]
  | _ => simp

theorem pentrySetUsermd_none_iff (env : Env) (pe : Entry) (dict : Dict) :
    (pentrySetUsermd env pe dict).2.usermd = none ↔ env.lib .usermdDict = false := by
  unfold pentrySetUsermd
  cases env.lib .usermdDict with
  | false => simp
  | true =>
    simp only [Bool.not_true, Bool.false_eq_true, if_false]
    split <;> simp

/-- The dictionary after a create on an open file: the entry's own, or a first one. -/
theorem createOpened_usermd {st st' : Store} {fs fs' : LocalFs} {pe pe' : Entry} {fd : Nat}
    {f : OpenFile} (hfd : pe.fd = some fd) (hf : fs.fds.lookup fd = some f)
    (h : createOpened env st fs path mode (cx.conf.regex path) pe = .ok (ret, pe', fs', st')) :
    CreateKeeps env ∧ pe'.usermd = pe.usermd ∨
      ¬CreateKeeps env ∧ pe.usermd = none ∧ pe'.usermd.isSome := by
  obtain ⟨stat, hstat⟩ := Option.isSome_iff_exists.mp (fchmod_fstat hf mode env.times)
  unfold createOpened at h
  simp only [hfd, hstat] at h
  cases hchmod : env.sys .fchmodCreate with
  | some e =>
    simp only [hchmod, Except.ok.injEq, Prod.mk.injEq] at h
    exact .inl ⟨.inl (by simp [hchmod]), by rw [← h.2.1]⟩
  | none =>
  cases hst : env.sys .fstatCreate with
  | some e =>
    simp only [hchmod, hst, Except.ok.injEq, Prod.mk.injEq] at h
    exact .inl ⟨.inr (.inl (by simp [hst])), by rw [← h.2.1]⟩
  | none =>
  simp only [hchmod, hst] at h
  have hset : ∀ {pl pe' : Entry} {dict : Dict}, pe.usermd = none → env.lib .createDict = true →
      pe'.usermd = (pentrySetUsermd env pl dict).2.usermd →
      CreateKeeps env ∧ pe'.usermd = pe.usermd ∨
        ¬CreateKeeps env ∧ pe.usermd = none ∧ pe'.usermd.isSome := by
    intro pl pe' dict hnone hd he
    have hkeep : CreateKeeps env ↔ env.lib .usermdDict = false := by
      simp [CreateKeeps, hchmod, hst, hd]
    have hnil := pentrySetUsermd_none_iff env pl dict
    rw [hkeep, he, hnone]
    cases hmd : env.lib .usermdDict with
    | false => exact .inl ⟨rfl, hnil.mpr hmd⟩
    | true =>
      refine .inr ⟨by simp, rfl, Option.isSome_iff_ne_none.mpr fun hn => ?_⟩
      rw [hnil.mp hn] at hmd
      cases hmd
  split_ifs at h with hmd hdict hx
  · simp only [Except.ok.injEq, Prod.mk.injEq] at h
    exact .inl ⟨.inr (.inr (.inl (by simpa using hdict))), by rw [← h.2.1]⟩
  · obtain ⟨pl, hl, h⟩ := Except.bind_ok.mp h
    simp only [Except.ok.injEq, Prod.mk.injEq] at h
    exact hset (by simpa using hmd) (by simpa using hdict) (by rw [← h.2.1]; rfl)
  · obtain ⟨pl, hl, h⟩ := Except.bind_ok.mp h
    split at h
    · simp only [Except.ok.injEq, Prod.mk.injEq] at h
      exact hset (by simpa using hmd) (by simpa using hdict) (by rw [← h.2.1]; rfl)
    · simp only [Except.ok.injEq, Prod.mk.injEq] at h
      exact hset (by simpa using hmd) (by simpa using hdict) (by rw [← h.2.1]; rfl)

/-- A create that stops on the open file says so, and has put nothing. -/
theorem createOpened_fails {st st' : Store} {fs fs' : LocalFs} {pe pe' : Entry} {fd : Nat}
    {f : OpenFile} (hfd : pe.fd = some fd) (hf : fs.fds.lookup fd = some f)
    (hc : ¬CreateCompletes cx env st path)
    (h : createOpened env st fs path mode (cx.conf.regex path) pe = .ok (ret, pe', fs', st')) :
    ret ≠ 0 ∧ st' = st := by
  refine ⟨?_, (createOpened_put h).resolve_right fun hput => hc hput.1⟩
  obtain ⟨stat, hstat⟩ := Option.isSome_iff_exists.mp (fchmod_fstat hf mode env.times)
  unfold createOpened at h
  simp only [hfd, hstat] at h
  cases hchmod : env.sys .fchmodCreate with
  | some e =>
    simp only [hchmod, Except.ok.injEq, Prod.mk.injEq] at h
    exact h.1 ▸ (Errno.neg_num_lt e).ne
  | none =>
  cases hst : env.sys .fstatCreate with
  | some e =>
    simp only [hchmod, hst, Except.ok.injEq, Prod.mk.injEq] at h
    exact h.1 ▸ (Errno.neg_num_lt e).ne
  | none =>
  simp only [hchmod, hst] at h
  split_ifs at h with hmd hdict hx
  · simp only [Except.ok.injEq, Prod.mk.injEq] at h
    exact h.1 ▸ (by decide)
  · exact (hc ⟨hchmod, hst, by simpa using hdict, fun hn => by simp [hx] at hn⟩).elim
  · obtain ⟨pl, hl, h⟩ := Except.bind_ok.mp h
    have hno : (dplMknod env st path).1 ≠ .success := by
      intro hs
      exact hc ⟨hchmod, hst, by simpa using hdict, fun _ => dplMknod_success_iff.mp hs⟩
    split at h
    · rename_i st₁ hput
      rw [hput] at hno
      exact (hno rfl).elim
    · simp only [Except.ok.injEq, Prod.mk.injEq] at h
      exact h.1 ▸ (by decide)

theorem World.entry_of_entryOr {type : TPathType} (h : (s.entryOr env path type).ondisk ≠ .unset) :
    s.entry path = some (s.entryOr env path type) := by
  unfold World.entryOr at h ⊢
  cases he : s.entry path with
  | some pe => rfl
  | none =>
    rw [he] at h
    exact (h rfl).elim

/-- Of a path without an object, a stat finds a cached file and a dictionary it can lock. -/
theorem World.Inv.unseen_iff (hi : s.Inv) (hst : s.store.ftype? path = none) :
    s.Unseen path ↔ ∀ pe, s.entry path = some pe → pe.ondisk ≠ .loc ∧
      (pe.ondisk = .remote → pe.usermd.isSome → pe.mdLocked = true) := by
  have hr : path ≠ rootPath := by
    intro he
    simp [Store.ftype?, he] at hst
  constructor
  · intro h pe he
    obtain ⟨a, ha, hpe⟩ := Option.bind_eq_some_iff.mp he
    have hlook : lookupOrPopulate Env.quiet s path (Env.quiet.rawType path) = some (a, s) := by
      simp [lookupOrPopulate, ha]
    constructor
    · intro hloc
      obtain ⟨fd, hfd⟩ := Option.isSome_iff_exists.mp ((hi.cached a pe hpe).mp hloc)
      obtain ⟨f, hf, _⟩ := hi.opened a pe fd hpe hfd
      obtain ⟨st, hstat⟩ := Option.isSome_iff_exists.mp
        (show (s.fs.fstat fd Env.quiet.times).isSome by simp [fstat, inodeOf, hf])
      refine h Env.quiet 0 st (s.setEntry a { pe with atime := Env.quiet.now }) ?_ rfl
      unfold dfsGetattr
      rw [if_neg hr, hlook]
      dsimp only
      rw [World.deref_ok.mpr hpe]
      have hget : getattrLocal Env.quiet s.fs pe { Stat.zero with nlink := 1 } = (0, st) := by
        simp only [getattrLocal, hfd, hstat]
        rfl
      simp only [bind, Except.bind, hloc, hget]
    · intro hremote hmd
      obtain ⟨md, hmd⟩ := Option.isSome_iff_exists.mp hmd
      cases hl : pe.mdLocked with
      | true => rfl
      | false =>
        exfalso
        refine h Env.quiet 0 (fillStatFromMetadata { Stat.zero with nlink := 1 } md)
          (s.setEntry a { pe with atime := Env.quiet.now, mdLocked := false }) ?_ rfl
        unfold dfsGetattr
        rw [if_neg hr, hlook]
        dsimp only
        rw [World.deref_ok.mpr hpe]
        have hget : getattrRemote pe { Stat.zero with nlink := 1 } =
            .ok (0, fillStatFromMetadata { Stat.zero with nlink := 1 } md,
              { pe with mdLocked := false }) := by
          simp [getattrRemote, pentryMdLock, pentryMdUnlock, hl, hmd, bind, Except.bind]
        simp only [bind, Except.bind, hremote, hget]
  · intro h env ret st t hg h0
    subst h0
    cases dfsGetattr_cases hg with
    | root hroot => exact hr hroot
    | remote _ hl ha ho hget =>
      obtain rfl := (lookupOrPopulate_spec hi hl).entryOr ha
      have he := World.entry_of_entryOr (by rw [ho]; decide)
      unfold getattrRemote at hget
      obtain ⟨pl, hlock, hget⟩ := Except.bind_ok.mp hget
      obtain ⟨hfree, rfl⟩ := pentryMdLock_ok hlock
      dsimp only at hget
      cases hmd : (s.entryOr env path (env.rawType path)).usermd with
      | none =>
        simp only [hmd, Except.ok.injEq, Prod.mk.injEq] at hget
        exact absurd hget.1 (by decide)
      | some md =>
        have hlocked := (h _ he).2 ho (by rw [hmd]; rfl)
        rw [hfree] at hlocked
        cases hlocked
    | loc _ hl ha ho hget =>
      obtain rfl := (lookupOrPopulate_spec hi hl).entryOr ha
      exact (h _ (World.entry_of_entryOr (by rw [ho]; decide))).1 ho
    | unset _ hl ha ho hget =>
      obtain ⟨o, hs⟩ := getattrUnset_done hr (.inl rfl) hget
      rw [(lookupOrPopulate_spec hi hl).store] at hs
      have hsome := ftype?_of_lookup hs.object
      rw [hst] at hsome
      cases hsome

theorem World.Inv.openMode_zero (hi : s.Inv) {qe : Entry} {fs : LocalFs}
    (hc : s.OpenCompletes cx env path flags)
    (h : openMode cx env s.store s.fs path (pentryIncRefcount (s.entryOr env path .reg))
      (getModeFromFlags flags) = .ok (ret, qe, fs)) : ret = 0 := by
  have hcached : (s.entryOr env path .reg).ondisk = .loc ↔ (s.entryOr env path .reg).fd.isSome :=
    hi.entryOr_cached env path .reg
  unfold World.OpenCompletes at hc
  refine openMode_completes hi.wf (fun hm => ?_) (fun hm => ?_) h
  · rwa [if_pos hm] at hc
  · rw [if_neg hm] at hc
    by_cases hloc : (s.entryOr env path .reg).ondisk = .loc
    · exact .inl (hcached.mp hloc)
    · refine .inr ⟨hloc, hc.resolve_left fun hl => hloc ?_⟩
      obtain ⟨pe, he, hl⟩ := Option.map_eq_some_iff.mp hl
      rw [World.entryOr, he]
      exact hl

theorem World.entry_of_isSome (h : (s.entry path).isSome) (env : Env) (type : TPathType) :
    s.entry path = some (s.entryOr env path type) := by
  obtain ⟨pe, he⟩ := Option.isSome_iff_exists.mp h
  rw [World.entryOr, he]
  rfl

theorem World.isLocal_iff_entryOr (env : Env) (type : TPathType) :
    s.IsLocal path ↔ (s.entryOr env path type).ondisk = .loc := by
  constructor
  · intro h
    obtain ⟨pe, he, hl⟩ := Option.map_eq_some_iff.mp h
    rw [World.entryOr, he]
    exact hl
  · exact World.isLocal_of_entryOr

/-- An open of an absent object that fails has touched nothing but the count of the entry. -/
theorem openFailed_iff (hi : s.Inv) (ht : t.Inv) (hst : s.store.ftype? path = none)
    (hstore : t.store = s.store) (hfs : t.fs = s.fs)
    (he : t.entry path = some (pentryIncRefcount (s.entryOr env path .reg))) :
    s.NoFileLeft t path ↔ (s.entry path).isSome := by
  constructor
  · intro h
    have hmap := h.entry
    rw [he] at hmap
    cases hs : s.entry path with
    | some pe => rfl
    | none =>
      rw [hs] at hmap
      cases hmap
  · intro h
    have hs := World.entry_of_isSome h env .reg
    refine ⟨?_, by rw [hfs], ?_⟩
    · rw [he, hs]
      rfl
    · rw [hi.unseen_iff hst, ht.unseen_iff (hstore ▸ hst)]
      intro hu pe hpe
      obtain rfl : pentryIncRefcount (s.entryOr env path .reg) = pe :=
        Option.some.inj (he.symm.trans hpe)
      exact hu (s.entryOr env path .reg) hs

/-- A create that fails with the open file leaves none exactly when the file was open before and
the entry has kept its dictionary. -/
theorem createFailed_iff (hi : s.Inv) (hst : s.store.ftype? path = none) {qe pe' : Entry}
    {fs fs' : LocalFs} {md : Option Dict} {l : Bool} (hfs : t.fs = fs')
    (hm : openMode cx env s.store s.fs path (pentryIncRefcount (s.entryOr env path .reg))
      (getModeFromFlags flags) = .ok (0, qe, fs))
    (hfiles : fs'.files = fs.files)
    (hpe : pe' = { qe with
      ondisk := .loc, exclude := cx.conf.regex path, usermd := md, mdLocked := l })
    (hmd : pe'.usermd = qe.usermd ↔ CreateKeeps env) (he : t.entry path = some pe') :
    s.NoFileLeft t path ↔ s.IsLocal path ∧ getModeFromFlags flags ≠ .creat ∧
      (s.entry path).map (·.exclude) = some (cx.conf.regex path) ∧ CreateKeeps env := by
  have habs := openMode_absent hst hm
  constructor
  · intro h
    have hmap := h.entry
    rw [he, hpe] at hmap
    cases hs : s.entry path with
    | none =>
      rw [hs] at hmap
      cases hmap
    | some pe =>
      have hor : s.entryOr env path .reg = pe := by
        rw [World.entryOr, hs]
        rfl
      rw [hs, Option.map_some, Option.map_some, Option.some.injEq] at hmap
      simp only [Entry.file, Prod.mk.injEq] at hmap
      obtain ⟨hloc, hfd, hx, husermd⟩ := hmap
      rw [hor] at habs
      rcases habs with ⟨h0, _⟩ | ⟨_, _, fd, hq, hnew⟩ | ⟨_, hmode, _, rfl, flag, hq⟩
      · exact absurd h0 (by decide)
      · -- a file made anew has a new descriptor
        exfalso
        obtain ⟨a, _, ha⟩ := Option.bind_eq_some_iff.mp hs
        obtain ⟨f, hf, _⟩ := hi.opened a pe fd ha (hfd.symm.trans hq)
        rw [LocalFs.New, hf] at hnew
        cases hnew
      · refine ⟨?_, hmode, by rw [hx]; rfl, hmd.mp ?_⟩
        · rw [World.isLocal_iff_entryOr env .reg, hor]
          exact hloc.symm
        · rw [hpe, hq]
          exact husermd
  · rintro ⟨hloc, hmode, hx, hkeep⟩
    rcases habs with ⟨h0, _⟩ | ⟨_, hcreat, _⟩ | ⟨_, _, _, rfl, flag, hq⟩
    · exact absurd h0 (by decide)
    · exact (hmode hcreat).elim
    · have hdisk := (World.isLocal_iff_entryOr env .reg).mp hloc
      have hset : (s.entryOr env path .reg).ondisk ≠ .unset := by rw [hdisk]; decide
      have hs := World.entry_of_entryOr hset
      rw [hs, Option.map_some, Option.some.injEq] at hx
      have husermd := hmd.mpr hkeep
      refine ⟨?_, by rw [hfs, hfiles], ?_⟩
      · rw [he, hs, Option.map_some, Option.map_some, Option.some.injEq]
        rw [hpe, hq] at husermd
        subst hpe hq
        simp only [Entry.file, Prod.mk.injEq]
        exact ⟨hdisk.symm, rfl, hx.symm, husermd⟩
      · intro hu
        exact (((hi.unseen_iff hst).mp hu _ hs).1 hdisk).elim

end

/-- A create of a path without an object that fails leaves no file exactly when it stops before
its open, cannot open an entry that was there, or fails early with an open file. -/
theorem failed_create_iff (cx : Ctx) (d : Daemon) (hd : d.Reachable cx) (env : Env) (path : Path)
    (mode : Nat) (flags : OpenFlags) (hst : d.world.store.ftype? path = none) {ret : Int}
    {fh : Option Addr} {t : World}
    (h : dfsCreate cx env d.world path mode flags = .ok (ret, fh, t)) :
    (ret ≠ 0 → d.world.NoFileLeft t path) ↔ d.world.CreateUndone cx env path mode flags := by
  have hi := hd.inv
  generalize d.world = s at hst h hi
  by_cases hstop : s.CreateStops cx env path mode
  · obtain rfl := dfsCreate_stops hstop h
    exact iff_of_true (fun _ => ⟨rfl, rfl, id⟩) (.inl hstop)
  obtain ⟨r, a, u, pe, qe, fs, hlook, ha, hm, hcase⟩ := dfsCreate_goes hi hstop h
  obtain rfl := hlook.entryOr ha
  have hti := (dfsCreate_inv hi h).1
  rcases hcase with ⟨rfl, rfl, rfl⟩ | ⟨rfl, pe', fs', st, hc, rfl⟩
  · have hnot : ¬s.OpenCompletes cx env path flags := by
      intro hc
      exact absurd (hi.openMode_zero hc hm) (by decide)
    have hq : qe = pentryIncRefcount (s.entryOr env path .reg) ∧ fs = s.fs := by
      rcases openMode_absent hst hm with ⟨_, hq⟩ | ⟨h0, _⟩ | ⟨h0, _⟩
      · exact hq
      · exact absurd h0 (by decide)
      · exact absurd h0 (by decide)
    obtain ⟨rfl, rfl⟩ := hq
    rw [forall_prop_of_true (by decide), openFailed_iff hi hti hst hlook.store rfl
      (show _ = some (pentryIncRefcount (s.entryOr env path .reg)) by
        simp [World.entry, hlook.hash])]
    constructor
    · intro hsome
      exact .inr (.inr (.inl ⟨hsome, hnot⟩))
    · intro hc
      rcases hc with hc | hc | hc | hc
      · exact (hstop hc).elim
      · exact (hnot hc.1).elim
      · exact hc.1
      · rw [World.entry_of_entryOr (by rw [(World.isLocal_iff_entryOr env .reg).mp hc.1]; decide)]
        rfl
  · have hopen := hi.openCompletes (by decide) hm
    have hspec := openMode_spec hi.wf hm
    obtain ⟨fd, hfd⟩ := Option.isSome_iff_exists.mp
      (hspec.result.resolve_right fun hm1 => absurd hm1.1 (by decide)).2
    obtain ⟨f, hf⟩ := hi.openMode_lookup hm hfd
    by_cases hdone : CreateCompletes cx env s.store path
    · have h0 := createOpened_completes hdone (by exact hfd) hf hc
      exact iff_of_true (fun hne => (hne h0).elim) (.inr (.inl ⟨hopen, hdone⟩))
    · obtain ⟨hret, rfl⟩ := createOpened_fails (by exact hfd) hf hdone hc
      have hmd : pe'.usermd = qe.usermd ↔ CreateKeeps env := by
        rcases createOpened_usermd (by exact hfd) hf hc with ⟨hk, hsame⟩ | ⟨hk, hnone, hsome⟩
        · exact iff_of_true hsame hk
        · refine iff_of_false (fun he => ?_) hk
          rw [he, show qe.usermd = none from hnone] at hsome
          cases hsome
      obtain ⟨md, l, hpe, _, hfiles, _⟩ := createOpened_spec hspec.update.wf hc
      rw [forall_prop_of_true hret, createFailed_iff hi hst rfl hm hfiles hpe hmd
        (by simp [World.entry, hlook.hash])]
      constructor
      · intro hc
        exact .inr (.inr (.inr hc))
      · intro hc
        rcases hc with hc | hc | hc | hc
        · exact (hstop hc).elim
        · exact (hdone hc.2).elim
        · exact (hc.2 hopen).elim
        · exact hc

/-- Every call goes through but the one that puts an object. -/
def unputtable : Env :=
  { Env.quiet with remote := fun c => match c with | .mknod _ => .failure | _ => .success }

/-- Every call goes through but the one that sets the mode of the file. -/
def unchangeable : Env :=
  { Env.quiet with sys := fun c => if c = .fchmodCreate then some .eperm else none }

/-- The file of a create that failed is cached without an object. -/
def createdInVain : List Call := [⟨.create ['/', 'f'] 0o100644 Sample.writeOnly, unputtable⟩]

/-- A second create of it fails at its mode. -/
theorem failed_create_cached :
    ∃ d ret fh t, Transition.exec (Daemon.step Sample.plain) (Sample.daemon []) createdInVain =
        .ok d ∧
      dfsCreate Sample.plain unchangeable d.world ['/', 'f'] 0o100644 Sample.writeAppend =
        .ok (ret, fh, t) ∧ ret ≠ 0 ∧ d.world.NoFileLeft t ['/', 'f'] := by
  refine ⟨_, _, _, _, rfl, rfl, by decide, ?_⟩
  have hd : Daemon.Reachable Sample.plain _ :=
    ⟨Sample.store [], Sample.fs, Sample.ring, Sample.fs_wf, createdInVain, rfl⟩
  refine (failed_create_iff Sample.plain _ hd unchangeable ['/', 'f'] 0o100644 Sample.writeAppend
    rfl rfl).mpr (.inr (.inr (.inr ?_))) (by decide)
  exact ⟨rfl, by decide, rfl, .inl (by decide)⟩

/-- A file the store did not take stays in the table, for every stat to see. -/
theorem failed_create_seen :
    ∃ fh t st u, (Sample.daemon []).Reachable Sample.plain ∧
      (Sample.daemon []).world.store.ftype? ['/', 'f'] = none ∧
      dfsCreate Sample.plain unputtable (Sample.daemon []).world ['/', 'f'] 0o100644
        Sample.writeOnly = .ok (-1, fh, t) ∧
      ¬(Sample.daemon []).world.NoFileLeft t ['/', 'f'] ∧
      dfsGetattr Env.quiet t ['/', 'f'] = .ok (0, st, u) := by
  refine ⟨_, _, _, _, Sample.daemon_reachable _ [], rfl, rfl, fun h => ?_, rfl⟩
  have hentry := congrArg Option.isSome h.entry
  exact absurd hentry (by decide)

end DropletFs
