import DropletFs.Model.Sample
import DropletFs.Release.Upload
import DropletFs.Table.Calls
import DropletFs.Table.Reading

/-! The cache files of one path under the release and the download of another: what decides
is which names the scratch files get. -/

namespace DropletFs

open CText LocalFs

/-- The names the callbacks know the cache file of a path by. -/
def cacheNames (cx : Ctx) (path : Path) : List Path :=
  [localName cx path, slashName cx path, buildCacheTree cx path]

/-- The cache file of `q` is there, and reads as, in `fs'` what it is and reads as in `fs`. -/
def SameFile (cx : Ctx) (q : Path) (fs fs' : LocalFs) : Prop :=
  ∀ n ∈ cacheNames cx q, fs'.readName n = fs.readName n

/-- Neither a release of a handle on `p` nor a download of `p` touches the cache file of
`q`. -/
structure LeavesAlone (cx : Ctx) (d : Daemon) (p q : Path) : Prop where
  release : ∀ env ret t, ∀ h ∈ d.handles, h.path = p →
    dfsRelease cx env d.world h.path h.flags h.addr = .ok (ret, t) → SameFile cx q d.world.fs t.fs
  download : ∀ env pe flags fd pe' fs,
    dfsGetLocalCopy cx env d.world.store d.world.fs pe p flags = .ok (fd, pe', fs) →
    SameFile cx q d.world.fs fs

/-- The names a release and a download of `p` work on are not names of `q`. The scratch file
of an upload is only made with compression. -/
structure Apart (cx : Ctx) (p q : Path) : Prop where
  own : ∀ n ∈ cacheNames cx q, collapse (localName cx p) ≠ collapse n
  scratch : ∀ n ∈ cacheNames cx q, collapse (scratchName (localName cx p)) ≠ collapse n
  upload : startsWithNoCase cx.conf.compressionMethod textZlib = true →
    ∀ n ∈ cacheNames cx q, collapse (scratchName (slashName cx p)) ≠ collapse n

theorem LocalFs.Frame.readName {names : List Path} {base fs : LocalFs} (hw : base.Wf)
    (h : Frame names base fs) {name : Path} (hn : collapse name ∉ names) :
    fs.readName name = base.readName name := by
  rw [readName_eq, readName_eq, h.fileOf hw hn]

section Frames

variable {cx : Ctx} {env : Env} {st : Store} {fs : LocalFs} {path q : Path}

theorem setOffset_readName (fs : LocalFs) (fd offset : Nat) (name : Path) :
    (fs.setOffset fd offset).readName name = fs.readName name := by
  unfold LocalFs.setOffset
  cases fs.fds.lookup fd <;> rfl

theorem setOffset_files (fs : LocalFs) (fd offset : Nat) :
    (fs.setOffset fd offset).files = fs.files := by
  unfold LocalFs.setOffset
  cases fs.fds.lookup fd <;> rfl

/-- With compression an upload ends with the removal of the scratch file. -/
theorem uploadFiles_gone (hz : startsWithNoCase cx.conf.compressionMethod textZlib = true)
    (hd : env.lib .releaseDict = true) (hu : env.sys .unlinkScratch = none) (fd : Nat)
    (stat : Stat) :
    (uploadFiles cx env fs path fd stat).files (collapse (scratchName (slashName cx path))) =
      none := by
  unfold uploadFiles
  rw [if_pos ⟨hd, hz⟩, tryUnlink_files, if_pos ⟨hu, rfl⟩]

theorem Apart.uploadFiles (ha : Apart cx path q) (hw : fs.Wf) (fd : Nat) (stat : Stat) :
    SameFile cx q fs (uploadFiles cx env fs path fd stat) := by
  intro n hn
  by_cases hz : startsWithNoCase cx.conf.compressionMethod textZlib = true
  · have hne := ha.upload hz n hn
    obtain ⟨hf, _, _⟩ := uploadFiles_frame cx env path hw fd stat
    apply hf.readName hw
    simpa using Ne.symm hne
  · rw [uploadFiles_same fun h => (hz h).elim]

theorem Apart.release {s t : World} {flags : OpenFlags} {fh : Addr} {ret : Int}
    (ha : Apart cx path q) (hi : s.Inv) (h : dfsRelease cx env s path flags fh = .ok (ret, t)) :
    SameFile cx q s.fs t.fs := by
  obtain ⟨pe, pe', fs', st', _, hr, rfl⟩ := dfsRelease_cases h
  unfold releaseEntry at hr
  cases hfd : pe.fd with
  | none =>
    simp only [hfd, Except.ok.injEq, Prod.mk.injEq] at hr
    exact fun n _ => by rw [← hr.2.2.1]
  | some fd =>
    rw [hfd] at hr
    dsimp only at hr
    split at hr
    · rename_i stat _ _
      obtain ⟨qe, _, hr⟩ := Except.bind_ok.mp hr
      split_ifs at hr
      · simp only [Except.ok.injEq, Prod.mk.injEq] at hr
        exact fun n _ => by rw [← hr.2.2.1]
      · simp only [Except.ok.injEq, Prod.mk.injEq] at hr
        exact fun n _ => by rw [← hr.2.2.1]
      · simp only [Except.ok.injEq, Prod.mk.injEq] at hr
        obtain ⟨_, _, rfl, _⟩ := hr
        intro n hn
        rw [releaseUpload_reset]
        exact (setOffset_readName _ fd 0 n).trans (ha.uploadFiles hi.wf fd stat n hn)
    · simp only [Except.ok.injEq, Prod.mk.injEq] at hr
      obtain ⟨_, _, rfl, _⟩ := hr
      exact fun n _ => setOffset_readName _ fd 0 n

theorem Apart.download {fs' : LocalFs} {pe pe' : Entry} {flags : OpenFlags} {fd : Option Nat}
    (ha : Apart cx path q) (hw : fs.Wf)
    (h : dfsGetLocalCopy cx env st fs pe path flags = .ok (fd, pe', fs')) :
    SameFile cx q fs fs' := by
  rcases (dfsGetLocalCopy_cases h).2 with ⟨rfl, _⟩ | ⟨o, _, hfetch⟩
  · exact fun _ _ => rfl
  · have hf := (fetchObject_frame cx env st (Frame.refl (downloadNames (localName cx path)) fs)
      path o.userMeta flags).1
    rw [hfetch] at hf
    intro n hn
    apply hf.readName hw
    simp only [downloadNames, List.mem_cons, List.not_mem_nil, or_false, not_or]
    exact ⟨Ne.symm (ha.own n hn), Ne.symm (ha.scratch n hn)⟩

end Frames

/-- A cache that holds one file, of one byte. -/
def oneFile (name : Path) : LocalFs :=
  ⟨fun n => if n = collapse name then some 0 else none, fun _ => ⟨[1], 0o644, 0, 0⟩, ∅, 1, 0o022⟩

theorem oneFile_wf (name : Path) : (oneFile name).Wf := by
  refine ⟨?_, ?_, ?_⟩
  · intro n i h
    simp only [oneFile, Option.ite_none_right_eq_some, Option.some.injEq] at h
    exact h.2 ▸ Nat.zero_lt_one
  · intro fd f h
    simp [oneFile] at h
  · intro n m i hn hm
    simp only [oneFile, Option.ite_none_right_eq_some] at hn hm
    rw [hn.1, hm.1]

theorem oneFile_reachable (cx : Ctx) (st : Store) (name : Path) :
    (Daemon.init st (oneFile name) Sample.ring).Reachable cx :=
  ⟨st, oneFile name, Sample.ring, oneFile_wf name, .refl _⟩

theorem oneFile_readName {name n : Path} (h : collapse n = collapse name) :
    (oneFile name).readName n = some [1] := by
  simp [LocalFs.readName, oneFile, h]

section Collisions

variable {cx : Ctx} {p : Path} {name : Path}

/-- Every call goes through but one. -/
def failing (call : SysCall) : Env :=
  { Env.quiet with sys := fun c => if c = call then some .eperm else none }

variable (cx) in
/-- A first `dfs_get_local_copy` comes to the download when its allocations succeed. -/
theorem dfsGetLocalCopy_fetch (env : Env) {st : Store} (fs : LocalFs) {o : Obj}
    (hr : ∀ c, env.remote c = .success) (hl : ∀ c, env.lib c = true) (ho : st.lookup p = some o)
    (flags : OpenFlags) :
    ∃ pe', dfsGetLocalCopy cx env st fs (pentryNew env p .reg) p flags =
      .ok ((fetchObject cx env st fs p (localName cx p) o.userMeta flags).1, pe',
        (fetchObject cx env st fs p (localName cx p) o.userMeta flags).2) := by
  have hhead := downloadHeaders_ok (hr (.namei p)) (hr (.headAll p)) ho
  refine ⟨{ pentryNew env p .reg with usermd := some o.userMeta, mdLocked := false }, ?_⟩
  simp [dfsGetLocalCopy, hhead, hl, localCopy, pentryMdLock, pentrySetUsermd, pentryMdUnlock,
    compareDigests, pentryNew, Obj.headers, bind, Except.bind]

/-- A download whose `open` fails has removed the file under the cache name. -/
theorem download_removes (h : collapse (localName cx p) = collapse name) :
    ∃ fd pe' fs, dfsGetLocalCopy cx (failing .openDownload)
        ((∅ : Store).insert p (Sample.file [2])) (oneFile name)
        (pentryNew (failing .openDownload) p .reg) p Sample.readOnly =
        .ok (fd, pe', fs) ∧ fs.readName name = none := by
  have hlook := AList.lookup_insert (a := p) (b := Sample.file [2]) (∅ : Store)
  obtain ⟨pe', hg⟩ := dfsGetLocalCopy_fetch cx (failing .openDownload) (oneFile name) (fun _ => rfl)
    (fun _ => rfl) hlook Sample.readOnly
  have hfiles : (oneFile name).files (collapse name) = some 0 := by
    simp [oneFile]
  refine ⟨_, pe', _, hg, ?_⟩
  simp [fetchObject, removeOld, failing, Env.quiet, LocalFs.unlink, LocalFs.readName, h, hfiles]

/-- An object another program put, marked as compressed. -/
def zippedFile : Obj :=
  { Sample.file [2] with userMeta := Dict.empty.set .compression textZlib }

variable (cx) in
/-- A decompression that fails leaves an empty scratch file. -/
theorem handleCompression_fails {fs : LocalFs} {locname : Path} {src : Nat}
    (hsrc : fs.files (collapse locname) = some src) (fd : Option Nat) :
    handleCompression cx (failing .unzip) fs locname fd zippedFile.userMeta =
      (-1, fd, fs.overwrite (scratchName locname) []) := by
  have hzip : zippedFile.userMeta .compression = some textZlib := by
    simp [zippedFile, Dict.set]
  have hnone : startsWith textZlib textNone = false := by decide
  have hyes : startsWith textZlib textZlib = true := by decide
  simp [handleCompression, hzip, hnone, hyes, failing, Env.quiet, hsrc, unzipScratch]

variable (cx) in
/-- A download whose decompression fails leaves an empty scratch file. -/
theorem fetchObject_empties {st : Store} (fs : LocalFs) (ho : st.lookup p = some zippedFile)
    (locname : Path) (flags : OpenFlags) :
    (fetchObject cx (failing .unzip) st fs p locname zippedFile.userMeta flags).2.readName
      (scratchName locname) = some [] := by
  have hmode : zippedFile.userMeta .mode = none := by
    simp [zippedFile, Dict.set, Dict.empty]
  have hsys : ∀ c, c ≠ .unzip → (failing .unzip).sys c = none := fun c hc => if_neg hc
  have hread : dplOpenread cx (failing .unzip) st p false =
    (.success, [2], zippedFile.userMeta) := by
    have hreg : zippedFile.ftype ≠ .dir := by simp [zippedFile, Sample.file]
    simp only [dplOpenread, failing, Env.quiet, ho, if_neg hreg]
    rfl
  obtain ⟨⟨fd, fs'⟩, hopen⟩ := Option.isSome_iff_exists.mp
    (openFile_isSome (removeOld (failing .unzip) fs locname) locname rdwrCreatTrunc
    0o644 (.inl rfl))
  obtain ⟨i, hop⟩ := openFile_ok hopen
  have hino : fs'.inodeOf fd = some i := by simp [inodeOf, hop.lookup]
  have hsrc : (fs'.writeInode i [2]).files (collapse locname) = some i := hop.named
  have hfails := handleCompression_fails cx hsrc (some fd)
  simp only [fetchObject, hsys .openDownload (by simp), hopen, hmode, receiveObject,
    checkEncryptionFlag_eq_false, hread, hsys .writeDownload (by simp), hino, hfails, if_true]
  exact readName_overwrite _ _ _

/-- It does so with a file that is there under that name. -/
theorem download_empties (h : collapse (scratchName (localName cx p)) = collapse name) :
    ∃ fd pe' fs, dfsGetLocalCopy cx (failing .unzip)
        ((∅ : Store).insert p zippedFile) (oneFile name)
        (pentryNew (failing .unzip) p .reg) p Sample.readOnly =
        .ok (fd, pe', fs) ∧ fs.readName name = some [] := by
  have hlook := AList.lookup_insert (a := p) (b := zippedFile) (∅ : Store)
  obtain ⟨pe', hg⟩ := dfsGetLocalCopy_fetch cx (failing .unzip) (oneFile name) (fun _ => rfl)
    (fun _ => rfl) hlook Sample.readOnly
  refine ⟨_, pe', _, hg, ?_⟩
  have hempty := fetchObject_empties cx (oneFile name) hlook (localName cx p) Sample.readOnly
  rwa [LocalFs.readName, h] at hempty

/-- The entry a first `dfs_open` for writing leaves. -/
def writing (p : Path) (fd : Nat) : Entry :=
  { pentryNew Env.quiet p .reg with fd := some fd, flag := .dirty, refcount := 1, ondisk := .loc }

/-- The daemon after it, with an empty store. -/
def writingDaemon (p name : Path) (fd : Nat) (fs : LocalFs) : Daemon where
  world := { ((Daemon.init ∅ (oneFile name) Sample.ring).world.insertEntry p
    (pentryNew Env.quiet p .reg)).setEntry 0
    (writing p fd) with fs := fs }
  handles := [⟨0, p, Sample.writeOnly⟩]

theorem writingDaemon_reachable {fd : Nat} {fs : LocalFs}
    (ho : (oneFile name).openFile (buildCacheTree cx p) (openFlags .creat) 0o644 = some (fd, fs)) :
    (writingDaemon p name fd fs).Reachable cx := by
  refine ⟨∅, oneFile name, Sample.ring, oneFile_wf name, ?_⟩
  apply (Transition.Reachable.refl _).next (e := Sample.call (.open p Sample.writeOnly))
  have hmode : getModeFromFlags Sample.writeOnly = .creat := rfl
  simp [Daemon.step, Daemon.call, Sample.call, dfsOpen, lookupOrPopulate, populateHash,
    Daemon.init, Env.quiet, World.deref, World.insertEntry, openMode, openCreat, hmode, ho,
    Except.map, bind, Except.bind, Daemon.opened, writingDaemon, World.setEntry, writing,
    pentryIncRefcount, pentryNew]

/-- With compression a release removes the file under the scratch name. -/
theorem release_removes (hz : startsWithNoCase cx.conf.compressionMethod textZlib = true)
    (he : collapse (scratchName (slashName cx p)) = collapse name) :
    ∃ (d : Daemon) (h : Handle) (ret : Int) (t : World), d.Reachable cx ∧ h ∈ d.handles ∧
      h.path = p ∧ dfsRelease cx Env.quiet d.world h.path h.flags h.addr = .ok (ret, t) ∧
      (d.world.fs.readName name).isSome ∧ t.fs.readName name = none := by
  obtain ⟨⟨fd, fs⟩, hopen⟩ := Option.isSome_iff_exists.mp
    (openFile_isSome (oneFile name) (buildCacheTree cx p) (openFlags .creat) 0o644 (.inl rfl))
  obtain ⟨i, hop⟩ := openFile_ok hopen
  have hthere : (fs.readName name).isSome := by
    by_cases hn : collapse name = collapse (buildCacheTree cx p)
    · simp [LocalFs.readName, hn, hop.named]
    · simp [LocalFs.readName, hop.others _ hn, oneFile]
  obtain ⟨stat, hstat⟩ : ∃ stat, fs.fstat fd Env.quiet.times = some stat := by
    simp [LocalFs.fstat, inodeOf, hop.lookup]
  have hrel : releaseEntry cx Env.quiet ∅ fs p Sample.writeOnly (writing p fd) =
      .ok ((releaseUpload cx Env.quiet ∅ fs p fd stat).1,
        releaseExc { writing p fd with refcount := 0 },
        ((releaseUpload cx Env.quiet ∅ fs p fd stat).2.1).setOffset fd 0,
        (releaseUpload cx Env.quiet ∅ fs p fd stat).2.2) := by
    have hrw : Sample.writeOnly.acc ≠ .rdonly := by decide
    have hsys : Env.quiet.sys .fstatRelease = none := rfl
    simp [releaseEntry, writing, hsys, hstat, pentryDecRefcount, bind, Except.bind, hrw, pentryNew]
  have hget : (writingDaemon p name fd fs).world.deref 0 = .ok (writing p fd) :=
    World.deref_ok.mpr (by simp [writingDaemon, World.setEntry])
  obtain ⟨t, hrun, ht⟩ : ∃ t, dfsRelease cx Env.quiet (writingDaemon p name fd fs).world p
        Sample.writeOnly 0 = .ok ((releaseUpload cx Env.quiet ∅ fs p fd stat).1, t) ∧
      t.fs = ((releaseUpload cx Env.quiet ∅ fs p fd stat).2.1).setOffset fd 0 := by
    simp only [dfsRelease, hget, bind, Except.bind]
    rw [show (writingDaemon p name fd fs).world.store = ∅ from rfl,
      show (writingDaemon p name fd fs).world.fs = fs from rfl, hrel]
    exact ⟨_, rfl, rfl⟩
  refine ⟨writingDaemon p name fd fs, ⟨0, p, Sample.writeOnly⟩, _, t,
    writingDaemon_reachable hopen, List.mem_singleton_self _, rfl, hrun, hthere, ?_⟩
  have hgone : (uploadFiles cx Env.quiet fs p fd stat).files
      (collapse (scratchName (slashName cx p))) = none := uploadFiles_gone hz rfl rfl fd stat
  rw [he] at hgone
  rw [ht, releaseUpload_reset, setOffset_readName]
  simp [LocalFs.readName, hgone]

end Collisions

/-- A release and a download of `p` leave the cache file of `q` alone in every reachable state
exactly when they work on other names. -/
theorem other_files_kept_iff (cx : Ctx) (p q : Path) :
    (∀ d : Daemon, d.Reachable cx → LeavesAlone cx d p q) ↔ Apart cx p q := by
  constructor
  · intro hall
    have hown : ∀ n ∈ cacheNames cx q, collapse (localName cx p) ≠ collapse n := by
      intro n hn he
      obtain ⟨fd, pe', fs, hg, hgone⟩ := download_removes he
      have hs := (hall _ (oneFile_reachable cx _ n)).download _ _ _ _ _ _ hg n hn
      rw [hgone] at hs
      cases hs.trans (oneFile_readName rfl)
    refine ⟨hown, ?_, ?_⟩
    · intro n hn he
      obtain ⟨fd, pe', fs, hg, hgone⟩ := download_empties he
      have hs := (hall _ (oneFile_reachable cx _ n)).download _ _ _ _ _ _ hg n hn
      rw [hgone] at hs
      cases hs.trans (oneFile_readName rfl)
    · intro hz n hn he
      obtain ⟨d, h, ret, t, hd, hh, hp, hr, hsome, hgone⟩ := release_removes hz he
      have hs := (hall d hd).release _ _ _ h hh hp hr n hn
      rw [hgone] at hs
      rw [← hs] at hsome
      cases hsome
  · intro ha d hd
    refine ⟨?_, ?_⟩
    · rintro env ret t h _ rfl hr
      exact ha.release hd.inv hr
    · intro env pe flags fd pe' fs hg
      exact ha.download hd.inv.wf hg

/-- An absolute path without doubled slashes whose cache names fit their buffers. -/
structure Ordinary (cx : Ctx) (p : Path) : Prop where
  absolute : p.head? = some '/'
  single : NoDoubleSlash (p ++ tmpSuffix)
  short : (cx.conf.cacheDir ++ ['/'] ++ p ++ tmpSuffix).length < tmpstrMax

section Ordinary

variable {cx : Ctx} {p q : Path}

theorem Ordinary.cons (h : Ordinary cx p) : ∃ x, p = '/' :: x ∧ x.head? ≠ some '/' := by
  have ha := h.absolute
  have hs := h.single.left
  cases p with
  | nil => cases ha
  | cons c x =>
    obtain rfl : c = '/' := by simpa using ha
    exact ⟨x, rfl, hs.1 rfl⟩

/-- All three spellings of the cache file resolve to the same name. -/
theorem Ordinary.collapse_eq (h : Ordinary cx p) :
    ∀ n ∈ cacheNames cx p, collapse n = collapse (cx.conf.cacheDir ++ p) ∧
      collapse (scratchName n) = collapse (cx.conf.cacheDir ++ p ++ tmpSuffix) := by
  obtain ⟨x, rfl, hx⟩ := h.cons
  have hlen := h.short
  simp only [List.length_append, List.length_cons, List.length_nil] at hlen
  have hfit : ∀ text : CStr,
    text.length ≤ cx.conf.cacheDir.length + x.length + 2 + tmpSuffix.length →
      tmpstr text = text := fun text ht => snprintf_of_lt (by omega)
  have hdrop : ('/' :: x).dropWhile (· = '/') = x := by
    cases x with
    | nil => rfl
    | cons c x =>
      have hc : c ≠ '/' := by simpa using hx
      simp [List.dropWhile, hc]
  have hlocal : localName cx ('/' :: x) = cx.conf.cacheDir ++ '/' :: x := by
    apply hfit
    simp only [List.length_append, List.length_cons]
    omega
  have hslash : slashName cx ('/' :: x) = cx.conf.cacheDir ++ '/' :: '/' :: x := by
    have he : cx.conf.cacheDir ++ ['/'] ++ '/' :: x = cx.conf.cacheDir ++ '/' :: '/' :: x := by simp
    rw [slashName, he]
    apply hfit
    simp only [List.length_append, List.length_cons]
    omega
  have htree : buildCacheTree cx ('/' :: x) = cx.conf.cacheDir ++ '/' :: x := by
    rw [buildCacheTree, hdrop, List.append_assoc, List.singleton_append]
    exact hlocal
  have hone : collapse (scratchName (cx.conf.cacheDir ++ '/' :: x)) =
      collapse (cx.conf.cacheDir ++ '/' :: x ++ tmpSuffix) := by
    rw [scratchName, hfit]
    simp only [List.length_append, List.length_cons]
    omega
  have htwo : collapse (scratchName (cx.conf.cacheDir ++ '/' :: '/' :: x)) =
      collapse (cx.conf.cacheDir ++ '/' :: x ++ tmpSuffix) := by
    rw [scratchName, hfit]
    · have hs := collapse_slashes cx.conf.cacheDir (x ++ tmpSuffix)
      simpa using hs
    · simp only [List.length_append, List.length_cons]
      omega
  intro n hn
  simp only [cacheNames, List.mem_cons, List.not_mem_nil, or_false] at hn
  rcases hn with rfl | rfl | rfl
  · rw [hlocal]
    exact ⟨rfl, hone⟩
  · rw [hslash]
    exact ⟨collapse_slashes _ _, htwo⟩
  · rw [htree]
    exact ⟨rfl, hone⟩

/-- For ordinary paths the only neighbour in danger is the one named like the scratch file. -/
theorem apart_iff (hp : Ordinary cx p) (hq : Ordinary cx q) :
    Apart cx p q ↔ p ≠ q ∧ p ++ tmpSuffix ≠ q := by
  have hlocal : localName cx p ∈ cacheNames cx p := by simp [cacheNames]
  have hslash : slashName cx p ∈ cacheNames cx p := by simp [cacheNames]
  have hq1 : localName cx q ∈ cacheNames cx q := by simp [cacheNames]
  obtain ⟨x, rfl, _⟩ := hp.cons
  obtain ⟨y, rfl, _⟩ := hq.cons
  constructor
  · intro h
    refine ⟨fun he => ?_, fun he => ?_⟩
    · apply h.own _ hq1
      rw [he]
    · apply h.scratch _ hq1
      rw [(hp.collapse_eq _ hlocal).2, (hq.collapse_eq _ hq1).1, ← he, List.append_assoc]
  · rintro ⟨hne, hnt⟩
    have hscratch : ∀ m ∈ cacheNames cx ('/' :: x), ∀ n ∈ cacheNames cx ('/' :: y),
        collapse (scratchName m) ≠ collapse n := by
      intro m hm n hn he
      rw [(hp.collapse_eq m hm).2, (hq.collapse_eq n hn).1, List.append_assoc] at he
      have hxy := collapse_injective hp.single hq.single.left he
      exact hnt (congrArg ('/' :: ·) hxy)
    refine ⟨fun n hn he => ?_, hscratch _ hlocal, fun _ => hscratch _ hslash⟩
    rw [(hp.collapse_eq _ hlocal).1, (hq.collapse_eq n hn).1] at he
    have hxy := collapse_injective hp.single.left hq.single.left he
    exact hne (congrArg ('/' :: ·) hxy)

end Ordinary

/-- Two files written to, one under the name of the other's scratch file. -/
def scratchNeighbours : List Call :=
  [Sample.call (.open ['/', 'f', '.', 't', 'm', 'p'] Sample.writeOnly),
    Sample.call (.write 0 [1] 0),
    Sample.call (.open ['/', 'f'] Sample.writeOnly)]

/-- With compression the release of `/f` removes the cache file of `/f.tmp`. -/
theorem release_removes_neighbour :
    ∃ d ret t, Transition.exec (Daemon.step (Sample.ctx textZlib textNone)) (Sample.daemon [])
        scratchNeighbours = .ok d ∧
      d.handles[1]? = some ⟨1, ['/', 'f'], Sample.writeOnly⟩ ∧
      dfsRelease (Sample.ctx textZlib textNone) Env.quiet d.world ['/', 'f'] Sample.writeOnly 1 =
        .ok (ret, t) ∧
      d.world.fs.readName (localName (Sample.ctx textZlib textNone)
        ['/', 'f', '.', 't', 'm', 'p']) = some [1] ∧
      t.fs.readName (localName (Sample.ctx textZlib textNone)
        ['/', 'f', '.', 't', 'm', 'p']) = none ∧
      ¬LeavesAlone (Sample.ctx textZlib textNone) d ['/', 'f'] ['/', 'f', '.', 't', 'm', 'p'] := by
  refine ⟨_, _, _, rfl, rfl, rfl, rfl, rfl, fun h => ?_⟩
  have hs := h.release Env.quiet _ _ ⟨1, ['/', 'f'], Sample.writeOnly⟩
    (List.mem_cons_of_mem _ (List.mem_cons_self ..)) rfl rfl _ (List.mem_cons_self ..)
  cases hs

end DropletFs
