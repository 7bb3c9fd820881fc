import DropletFs.Durable.Steps
import DropletFs.Release.Scratch

/-! A file that is created, released and unlinked again: what is left of it. -/

namespace DropletFs

open CText LocalFs

/-- `dfs_unlink` returns 0 and takes back what happened since `s`: the store, the keys of the
table and the names in the cache are those of `s`. -/
def Undone (cx : Ctx) (env : Env) (s u : World) (path : Path) : Prop :=
  ∃ v, dfsUnlink cx env u (.ext path) = .ok (0, v) ∧ v.store = s.store ∧
    (∀ k, (v.hash k).isSome = (s.hash k).isSome) ∧
    ∀ n, (v.fs.files n).isSome = (s.fs.files n).isSome

/-- The release comes to the compression step. -/
def Zips (cx : Ctx) (env : Env) (flags : OpenFlags) : Prop :=
  flags.acc ≠ .rdonly ∧ startsWithNoCase cx.conf.compressionMethod textZlib = true ∧
    env.sys .fstatRelease = none ∧ env.lib .releaseDict = true

/-- The release gets both files of the compression step opened, the source under its name. -/
def Opens (cx : Ctx) (env : Env) (flags : OpenFlags) : Prop :=
  Zips cx env flags ∧ env.sys .fopenSource = none ∧ env.sys .fopenZipped = none

/-- The release or the unlink removes the file under the name, if there is one. -/
def Removes (cx : Ctx) (rel unl : Env) (path : Path) (flags : OpenFlags) (n : Path) : Prop :=
  unl.sys (.unlinkCache path) = none ∧ n = collapse (slashName cx path) ∨
    Zips cx rel flags ∧ rel.sys .unlinkScratch = none ∧
      n = collapse (scratchName (slashName cx path))

/-- The create or the release makes a file under the name, unless there is one. -/
def Makes (cx : Ctx) (rel : Env) (fs : LocalFs) (path : Path) (flags : OpenFlags) (n : Path) :
    Prop :=
  n = collapse (buildCacheTree cx path) ∨
    Opens cx rel flags ∧ n = collapse (scratchName (slashName cx path)) ∧
      ((fs.files (collapse (slashName cx path))).isSome ∨
        collapse (slashName cx path) = collapse (buildCacheTree cx path))

/-- When the unlink of a new file takes everything back. -/
structure Undoable (cx : Ctx) (rel unl : Env) (fs : LocalFs) (path : Path) (flags : OpenFlags) :
    Prop where
  /-- Only a file that is not excluded has an object to remove. -/
  included : cx.conf.regex path = false
  /-- What the freed entry's path reads as has no directory but the root. -/
  stale : ∃ freed dir, unl.stale path = some freed ∧ pentryGetParent (tmpstr freed) = .ok dir
  /-- No file of an earlier run is under a name that is removed. -/
  unused : ∀ n, Removes cx rel unl path flags n → fs.files n = none
  /-- A name that a file is made under was in use before, or is one that is removed. -/
  removed : ∀ n, Makes cx rel fs path flags n →
    (fs.files n).isSome ∨ Removes cx rel unl path flags n

section Steps

variable {cx : Ctx} {env : Env} {st st' : Store} {fs fs' : LocalFs} {path : Path}
  {flags : OpenFlags} {pe pe' : Entry} {ret : Int}

/-- At most one regular object has been put, under the name given. -/
def Puts (path : Path) (st st' : Store) : Prop :=
  st' = st ∨ ∃ o : Obj, o.ftype = .reg ∧ st' = st.insert path o

theorem sendUpload_puts (up : Upload) : Puts path st (sendUpload cx env st path up).2.1 := by
  by_cases h : (sendUpload cx env st path up).1 = 0
  · have hpair : sendUpload cx env st path up = (0, (sendUpload cx env st path up).2) :=
      Prod.ext h rfl
    exact .inr ⟨_, rfl, sendUpload_zero hpair⟩
  · exact .inl (sendUpload_failed h)

theorem releaseUpload_puts (fd : Nat) (stat : Stat) :
    Puts path st (releaseUpload cx env st fs path fd stat).2.2 := by
  unfold releaseUpload
  dsimp only
  split_ifs
  · exact .inl rfl
  · split
    · exact .inl rfl
    · exact sendUpload_puts _
  · exact sendUpload_puts _

/-- A release puts nothing for an excluded file. -/
theorem releaseEntry_puts
    (h : releaseEntry cx env st fs path flags pe = .ok (ret, pe', fs', st')) :
    Puts path st st' ∧ (pe.exclude = true → st' = st) := by
  unfold releaseEntry at h
  cases hfd : pe.fd with
  | none =>
    simp only [hfd, Except.ok.injEq, Prod.mk.injEq] at h
    exact ⟨.inl h.2.2.2.symm, fun _ => h.2.2.2.symm⟩
  | some fd =>
    rw [hfd] at h
    dsimp only at h
    split at h
    · rename_i stat _ _
      obtain ⟨qe, hq, h⟩ := Except.bind_ok.mp h
      obtain ⟨_, rfl⟩ := pentryDecRefcount_ok hq
      split_ifs at h with h1 h2
      · simp only [Except.ok.injEq, Prod.mk.injEq] at h
        exact ⟨.inl h.2.2.2.symm, fun _ => h.2.2.2.symm⟩
      · simp only [Except.ok.injEq, Prod.mk.injEq] at h
        exact ⟨.inl h.2.2.2.symm, fun _ => h.2.2.2.symm⟩
      · simp only [Except.ok.injEq, Prod.mk.injEq] at h
        obtain ⟨_, _, _, rfl⟩ := h
        exact ⟨releaseUpload_puts fd stat, fun hx => (h2 hx).elim⟩
    · simp only [Except.ok.injEq, Prod.mk.injEq] at h
      exact ⟨.inl h.2.2.2.symm, fun _ => h.2.2.2.symm⟩

theorem overwrite_isSome (fs : LocalFs) (name : Path) (data : Bytes) (n : Path) :
    ((fs.overwrite name data).files n).isSome = true ↔
      (fs.files n).isSome = true ∨ n = collapse name := by
  unfold LocalFs.overwrite
  cases hf : fs.files (collapse name) with
  | some i =>
    refine ⟨.inl, ?_⟩
    rintro (h | rfl)
    · exact h
    · simp [LocalFs.writeInode, hf]
  | none =>
    by_cases hn : n = collapse name
    · simp [hn]
    · simp [hn]

/-- The compression step makes its scratch file once both files have been opened. -/
theorem zipUpload_isSome (fd : Nat) (locname zlocal : Path) (size : Nat) (dict : Dict) (n : Path) :
    ((zipUpload cx env fs fd locname zlocal size dict).2.files n).isSome = true ↔
      (fs.files n).isSome = true ∨ (env.sys .fopenSource = none ∧ env.sys .fopenZipped = none) ∧
        n = collapse zlocal ∧ (fs.files (collapse locname)).isSome = true := by
  unfold zipUpload
  cases hs : env.sys .fopenSource with
  | some e => simp
  | none =>
    cases hf : fs.files (collapse locname) with
    | none => simp
    | some src =>
      dsimp only
      by_cases hz : env.sys .fopenZipped = none
      · rw [if_neg (by simp [hz])]
        have htwice : ∀ z, (((fs.overwrite zlocal []).overwrite zlocal z).files n).isSome = true ↔
            (fs.files n).isSome = true ∨ n = collapse zlocal := by
          intro z
          rw [overwrite_isSome, overwrite_isSome, or_assoc, or_self]
        split_ifs <;> simp [htwice, hz]
      · simp [hz]

/-- The names in the cache after a release: the scratch file is made and removed as far as the
calls go through. -/
theorem releaseEntry_files {fd : Nat} {f : OpenFile} (hfd : pe.fd = some fd)
    (hf : fs.fds.lookup fd = some f) (hx : pe.exclude = false)
    (h : releaseEntry cx env st fs path flags pe = .ok (ret, pe', fs', st')) (n : Path) :
    (fs'.files n).isSome = true ↔
      ¬(Zips cx env flags ∧ env.sys .unlinkScratch = none ∧
        n = collapse (scratchName (slashName cx path))) ∧
      ((fs.files n).isSome = true ∨ Opens cx env flags ∧
        n = collapse (scratchName (slashName cx path)) ∧
          (fs.files (collapse (slashName cx path))).isSome = true) := by
  have hsame : ¬Zips cx env flags → ((fs.files n).isSome = true ↔
      ¬(Zips cx env flags ∧ env.sys .unlinkScratch = none ∧
        n = collapse (scratchName (slashName cx path))) ∧
      ((fs.files n).isSome = true ∨ Opens cx env flags ∧
        n = collapse (scratchName (slashName cx path)) ∧
          (fs.files (collapse (slashName cx path))).isSome = true)) := by
    intro hz
    simp [Opens, hz]
  obtain ⟨stat, hstat⟩ : ∃ stat, fs.fstat fd env.times = some stat := by
    simp [LocalFs.fstat, inodeOf, hf]
  unfold releaseEntry at h
  simp only [hfd, hstat] at h
  cases hs : env.sys .fstatRelease with
  | some e =>
    simp only [hs, Except.ok.injEq, Prod.mk.injEq] at h
    rw [← h.2.2.1, setOffset_files]
    apply hsame
    rintro ⟨-, -, hz, -⟩
    rw [hs] at hz
    cases hz
  | none =>
    simp only [hs] at h
    obtain ⟨qe, hq, h⟩ := Except.bind_ok.mp h
    obtain ⟨_, rfl⟩ := pentryDecRefcount_ok hq
    by_cases hacc : flags.acc = .rdonly
    · rw [if_pos hacc] at h
      simp only [Except.ok.injEq, Prod.mk.injEq] at h
      rw [← h.2.2.1]
      exact hsame fun hz => hz.1 hacc
    rw [if_neg hacc] at h
    simp only [hx, Bool.false_eq_true, if_false, Except.ok.injEq, Prod.mk.injEq] at h
    rw [← h.2.2.1, releaseUpload_reset, setOffset_files]
    by_cases hz : Zips cx env flags
    · unfold uploadFiles
      rw [if_pos ⟨hz.2.2.2, hz.2.1⟩, tryUnlink_files]
      by_cases hu : env.sys .unlinkScratch = none ∧
          n = collapse (scratchName (slashName cx path))
      · rw [if_pos hu]
        simp [hz, hu]
      · rw [if_neg hu, zipUpload_isSome]
        simp [Opens, hz, hu]
    · have hno : startsWithNoCase cx.conf.compressionMethod textZlib = true →
          env.lib .releaseDict = false := by
        intro hc
        by_contra hd
        exact hz ⟨hacc, hc, hs, by simpa using hd⟩
      rw [uploadFiles_same hno]
      exact hsame hz

/-- No mode but the one that makes the file opens a path that has no object. -/
theorem openMode_new {smode : StateMode} (hn : st.lookup path = none)
    (hfd : pe.fd = none) (h : openMode cx env st fs path pe smode = .ok (ret, pe', fs'))
    (hret : ret ≠ -1) : smode = .creat := by
  have hno : ∀ {flags : OpenFlags} {r : Int} {qe : Entry} {gs : LocalFs},
      openExisting cx env st fs path pe flags = .ok (r, qe, gs) → r = -1 := by
    intro flags r qe gs hex
    unfold openExisting at hex
    rw [hfd] at hex
    obtain ⟨⟨fd, qe, gs⟩, hg, hex⟩ := Except.bind_ok.mp hex
    simp only [Except.ok.injEq, Prod.mk.injEq] at hex
    have hnone : fd = none := by
      rcases (dfsGetLocalCopy_cases hg).2 with ⟨_, hc⟩ | ⟨o, ho, _⟩
      · rcases hc with hc | hc
        · exact hc
        · rw [hc, hfd]
      · rw [hn] at ho
        cases ho
    rw [← hex.1, hnone]
    rfl
  have hwr : ∀ {flags : OpenFlags},
      openWronly cx env st fs path pe flags = .ok (ret, pe', fs') → False := by
    intro flags hw
    obtain ⟨⟨r, qe, gs⟩, hex, hw⟩ := Except.bind_ok.mp hw
    simp only [Except.ok.injEq, Prod.mk.injEq] at hw
    exact hret (hw.1 ▸ hno hex)
  cases smode with
  | creat => rfl
  | rdonly => exact (hret (hno h)).elim
  | wronly => exact (hwr h).elim
  | rdwr => exact (hwr h).elim

/-- `dfs_create` of a path that has neither an object nor an entry makes the cache file. -/
theorem dfsCreate_new {s t : World} {mode : Nat} {a : Addr} (hi : s.Inv)
    (hn : s.store.lookup path = none) (hh : s.hash path = none)
    (h : dfsCreate cx env s path mode flags = .ok (0, some a, t)) :
    ∃ pe fd fs₁, t.heap a = some pe ∧ pe.fd = some fd ∧ pe.exclude = cx.conf.regex path ∧
      t.hash = Function.update s.hash path (some a) ∧
      s.fs.openFile (buildCacheTree cx path) (openFlags .creat) 0o644 = some (fd, fs₁) ∧
      t.fs.files = fs₁.files ∧ t.fs.Wf ∧ (t.fs.fds.lookup fd).isSome ∧
      (cx.conf.regex path = true → t.store = s.store) ∧
      (cx.conf.regex path = false → t.store = s.store.insert path (emptyObj .reg)) := by
  rcases dfsCreate_cases h with ⟨h0, _⟩ | ⟨r, u, ho, hcase⟩
  · cases h0
  rcases hcase with ⟨h0, _⟩ | ⟨hr, a', pe, pe', fs', st', hfh, ha, hc, rfl⟩
  · cases h0
  obtain rfl : a = a' := Option.some.inj hfh
  rcases dfsOpen_cases hi ho with ⟨hr0, _⟩ | ⟨b, w, qe, re, gs, hl, hqe, hb, hop, rfl⟩
  · exact (hr hr0).elim
  obtain rfl : a = b := Option.some.inj hb
  obtain ⟨_, rfl, rfl⟩ : s.hash path = none ∧ a = s.brk ∧
      w = s.insertEntry path (pentryNew env path .reg) := by
    rcases hl.cases with rfl | hnew
    · have := hl.hash
      rw [hh] at this
      cases this
    · exact hnew
  obtain rfl : qe = pentryNew env path .reg := by
    have hself : (s.insertEntry path (pentryNew env path .reg)).heap s.brk =
        some (pentryNew env path .reg) := by
      simp [World.insertEntry]
    exact Option.some.inj (hqe.symm.trans hself)
  have hm := openMode_new hn rfl hop hr
  rw [hm] at hop
  simp only [openMode, openCreat, Except.ok.injEq] at hop
  split at hop
  · rename_i fd fs₁ _ hopen
    simp only [Prod.mk.injEq] at hop
    obtain ⟨rfl, rfl, rfl⟩ := hop
    obtain ⟨i, hoped⟩ := openFile_ok hopen
    obtain ⟨_, hst, hput⟩ := createOpened_effect hc
    obtain ⟨md, l, hq, hfds, hfiles, hw⟩ := createOpened_spec (hi.wf.openFile hopen) hc
    have hpe : pe = _ := Option.some.inj (ha.symm.trans (World.setEntry_heap_self _ _ _))
    refine ⟨pe', fd, fs₁, World.setEntry_heap_self _ _ _, ?_, ?_, rfl, hopen, hfiles, hw, ?_, ?_,
      ?_⟩
    · rw [hq, hpe]
      rfl
    · rw [hq]
    · rw [show
        ({ World.setEntry _ s.brk pe' with fs := fs', store := st' } : World).fs.fds = fs₁.fds
        from hfds, hoped.lookup]
      rfl
    · intro hx
      rcases hst with hst | ⟨hno, _⟩
      · exact hst
      · rw [hx] at hno
        cases hno
    · exact hput rfl
  · simp only [Prod.mk.injEq] at hop
    exact (hr hop.1.symm).elim

end Steps

/-- The files an `open` with `O_CREAT` leaves. -/
theorem openFile_files {fs fs' : LocalFs} {name : Path} {flags : OpenFlags} {mode fd : Nat}
    (h : fs.openFile name flags mode = some (fd, fs')) (n : Path) :
    (fs'.files n).isSome = true ↔ (fs.files n).isSome = true ∨ n = collapse name := by
  obtain ⟨i, hop⟩ := openFile_ok h
  by_cases hn : n = collapse name
  · simp [hn, hop.named]
  · simp [hop.others n hn, hn]

/-- A name created and unlinked again leaves the store as it was. -/
theorem Puts.erase {path : Path} {st st' : Store} {o : Obj} (hn : st.lookup path = none)
    (h : Puts path (st.insert path o) st') : st'.erase path = st := by
  have hkeys : path ∉ st.keys := AList.lookup_eq_none.mp hn
  have hone : ∀ o : Obj, (st.insert path o).erase path = st := by
    intro o
    have he : List.kerase path st.entries = st.entries := List.kerase_of_notMem_keys hkeys
    apply AList.ext
    change List.kerase path (List.kinsert path o st.entries) = st.entries
    rw [List.kinsert_def, he]
    exact List.kerase_cons_eq rfl
  rcases h with rfl | ⟨o', _, rfl⟩
  · exact hone o
  · rw [AList.insert_insert]
    exact hone o'

theorem Puts.lookup {path : Path} {st st' : Store}
    (h : Puts path (st.insert path (emptyObj .reg)) st') :
    ∃ o, st'.lookup path = some o ∧ o.ftype = .reg := by
  rcases h with rfl | ⟨o, ho, rfl⟩
  · exact ⟨_, AList.lookup_insert st, rfl⟩
  · exact ⟨o, AList.lookup_insert _, ho⟩

section Unlink

variable {cx : Ctx} {env : Env} {u v : World} {path : Path} {a : Addr}

/-- The freed entry can be read, and no directory below the root is looked up through it. -/
def StaleOk (env : Env) (path : Path) : Prop :=
  ∃ freed dir, env.stale path = some freed ∧ pentryGetParent (tmpstr freed) = .ok dir

theorem unlinkEntry_returns :
    (∃ r, unlinkEntry env u (.ext path) = .ok r) ↔ StaleOk env path := by
  unfold unlinkEntry StaleOk
  have htext : ∀ w : World, w.text (.ext path) = path := fun _ => rfl
  simp only [htext]
  cases env.stale path with
  | none => simp
  | some freed =>
    have hp : (u.hashRemove path).tmpstrPrintf [.ext freed] =
        .ok (.tmp (u.hashRemove path).ring.next,
          { u.hashRemove path with ring := (u.hashRemove path).ring.push (tmpstr freed) }) := by
      simp [World.tmpstrPrintf, tmpstr, World.text, Str.read]
    have hread : ({ u.hashRemove path with
          ring := (u.hashRemove path).ring.push (tmpstr freed) } : World).text
        (.tmp (u.hashRemove path).ring.next) = tmpstr freed := by
      simp [World.text, Str.read]
    constructor
    · rintro ⟨r, hr⟩
      obtain ⟨buf, hb, hr⟩ := Except.bind_ok.mp hr
      rw [hp] at hb
      obtain rfl := Except.ok.inj hb
      obtain ⟨dir, hd, _⟩ := Except.bind_ok.mp hr
      rw [hread] at hd
      exact ⟨freed, dir, rfl, hd⟩
    · rintro ⟨_, dir, ⟨⟩, hd⟩
      simp only [hp, bind, Except.bind, hread, hd]
      cases dir with
      | none => exact ⟨_, rfl⟩
      | some parent => exact ⟨_, rfl⟩

variable (hhash : u.hash path = some a)
include hhash

/-- What the unlink of a path with an object and an entry leaves. -/
theorem dfsUnlink_entry (h : dfsUnlink cx env u (.ext path) = .ok (0, v)) :
    dplUnlink env u.store path = (.success, v.store) ∧ StaleOk env path ∧
      (∀ k, v.hash k = if k = path then none else u.hash k) ∧
      ∀ n, v.fs.files n = if env.sys (.unlinkCache path) = none ∧
        n = collapse (slashName cx path) then none else u.fs.files n := by
  rcases dfsUnlink_cases h with ⟨h1, _⟩ | ⟨store, w, hs, _, rfl, hcase⟩
  · cases h1
  rcases hcase with ⟨_, hn, _⟩ | ⟨_, he⟩
  · have hsome : u.hash path = none := hn
    rw [hhash] at hsome
    cases hsome
  have hstale := unlinkEntry_returns.mp ⟨_, he⟩
  obtain ⟨_, freed, w, _, rfl, hv⟩ := unlinkEntry_cases he
  have htext : ∀ w : World, w.text (.ext path) = path := fun _ => rfl
  simp only [htext] at hv hs
  have hshape : ∃ ring heap, v = { (World.withoutCacheFile cx env { u with store := store }
      path).hashRemove path with ring := ring, heap := heap } := by
    rcases hv with ⟨_, hv⟩ | ⟨parent, _, hv⟩
    · exact ⟨_, _, hv⟩
    · obtain ⟨heap, hheap⟩ := World.onEntry_eq _ parent _
      exact ⟨_, heap, hv.trans hheap⟩
  obtain ⟨ring, heap, rfl⟩ := hshape
  refine ⟨?_, hstale, ?_, ?_⟩
  · simpa [World.withoutCacheFile] using hs
  · intro k
    exact World.hashRemove_hash _ path k
  · intro n
    simp [World.withoutCacheFile, tryUnlink_files]

theorem dfsUnlink_returns {store : Store} (hs : dplUnlink env u.store path = (.success, store))
    (hstale : StaleOk env path) : ∃ v, dfsUnlink cx env u (.ext path) = .ok (0, v) := by
  obtain ⟨⟨ret, v⟩, he⟩ := unlinkEntry_returns.mpr hstale
  have hret := (unlinkEntry_cases he).1
  refine ⟨v, ?_⟩
  have hcache : World.unlinkCacheFile cx env { u with store := store } (.ext path) =
      .ok (World.withoutCacheFile cx env { u with store := store } path) := by
    simp [World.unlinkCacheFile, World.tmpstrPrintf, World.withoutCacheFile, slashName,
      tmpstr, World.text,
      Str.read, bind, Except.bind]
  have htext : ∀ w : World, w.text (.ext path) = path := fun _ => rfl
  have hhash' : (World.withoutCacheFile cx env { u with store := store } path).hash path = some a :=
    hhash
  unfold dfsUnlink
  simp only [htext, hs, bind, Except.bind, hcache, hhash']
  rw [he, hret]

end Unlink

theorem dplUnlink_object {env : Env} (hr : env.RemoteOk) {st : Store} {path : Path} {o : Obj}
    (hne : path ≠ rootPath) (ho : st.lookup path = some o) (hreg : o.ftype = .reg) :
    dplUnlink env st path = (.success, st.erase path) := by
  have ht : st.ftype? path = some .reg := by simp [Store.ftype?, hne, ho, hreg]
  simp [dplUnlink, hr.remote, ht]

theorem dplUnlink_missing (env : Env) {st : Store} {path : Path} (hn : st.ftype? path = none) :
    (dplUnlink env st path).1 ≠ .success := by
  unfold dplUnlink
  cases env.remote (.unlink path) <;> simp [hn]

/-- A set that got some elements and lost others is what it was when those it lost were not in it,
and those it got were in it or got lost. -/
theorem restored_iff {α : Type*} (F Made Lost : α → Prop) :
    (∀ n, ¬Lost n ∧ (F n ∨ Made n) ↔ F n) ↔
      (∀ n, Lost n → ¬F n) ∧ ∀ n, Made n → F n ∨ Lost n := by
  constructor
  · intro h
    refine ⟨fun n hl hf => ((h n).mpr hf).1 hl, fun n hm => ?_⟩
    by_contra hno
    push Not at hno
    exact hno.1 ((h n).mp ⟨hno.2, .inr hm⟩)
  · rintro ⟨hlost, hmade⟩ n
    constructor
    · rintro ⟨hl, hf | hm⟩
      · exact hf
      · exact (hmade n hm).resolve_right hl
    · exact fun hf => ⟨fun hl => hlost n hl hf, .inl hf⟩

/-- Created, released and unlinked, a name that was new leaves no trace exactly when the file
is not excluded, the read of the freed entry goes well, and the names in the cache are in order. -/
theorem unlink_undoes_create_iff (cx : Ctx) (d : Daemon) (hd : d.Reachable cx) (path : Path)
    (hn : d.world.store.ftype? path = none) (hh : d.world.hash path = none) (cre rel unl : Env)
    (hu : unl.RemoteOk) (mode : Nat) (flags : OpenFlags)
    (a : Addr) (t u : World) (ret : Int)
    (hc : dfsCreate cx cre d.world path mode flags = .ok (0, some a, t))
    (hr : dfsRelease cx rel t path flags a = .ok (ret, u)) :
    Undone cx unl d.world u path ↔ Undoable cx rel unl d.world.fs path flags := by
  have hne : path ≠ rootPath := fun he => by simp [Store.ftype?, he] at hn
  have hlook : d.world.store.lookup path = none := by simpa [Store.ftype?, hne] using hn
  obtain ⟨pe, fd, fs₁, hpe, hfd, hx, hhash, hopen, hfiles, hw, hfds, hexcl, hput⟩ :=
    dfsCreate_new hd.inv hlook hh hc
  obtain ⟨f, hf⟩ := Option.isSome_iff_exists.mp hfds
  obtain ⟨qe, pe', fs', st', hqe, hrel, rfl⟩ := dfsRelease_cases hr
  obtain rfl : pe = qe := Option.some.inj (hpe.symm.trans hqe)
  obtain ⟨hputs, hkept⟩ := releaseEntry_puts hrel
  have hentry : ({ t.setEntry a pe' with fs := fs', store := st' } : World).hash path = some a := by
    change t.hash path = some a
    rw [hhash, Function.update_self]
  by_cases hreg : cx.conf.regex path = true
  · -- nothing was put, so there is nothing for `dpl_unlink` to remove
    have hst : st' = d.world.store := (hkept (hx.trans hreg)).trans (hexcl hreg)
    constructor
    · rintro ⟨v, hv, _⟩
      have hs := (dfsUnlink_entry hentry hv).1
      have hn' : st'.ftype? path = none := by
        rw [hst]
        exact hn
      have hmiss := dplUnlink_missing unl hn'
      exact (hmiss (congrArg Prod.fst hs)).elim
    · intro h
      have hno := h.included
      rw [hreg] at hno
      cases hno
  · have hreg : cx.conf.regex path = false := by simpa using hreg
    rw [hput hreg] at hputs
    obtain ⟨o, ho, hot⟩ := hputs.lookup
    have hdone := dplUnlink_object hu hne ho hot
    have hzip := releaseEntry_files hfd hf (hx.trans hreg) hrel
    have hmade := openFile_files hopen
    have hleft : ∀ n, (if unl.sys (.unlinkCache path) = none ∧ n = collapse (slashName cx path)
          then none else fs'.files n).isSome = true ↔
        ¬Removes cx rel unl path flags n ∧
          ((d.world.fs.files n).isSome = true ∨ Makes cx rel d.world.fs path flags n) := by
      intro n
      unfold Removes Makes
      rw [← or_assoc, ← hmade n, ← hmade (collapse (slashName cx path)), ← hfiles, not_or,
        and_assoc]
      split_ifs with hl
      · simp [hl]
      · rw [hzip n]
        exact (and_iff_right hl).symm
    have hnames := restored_iff (fun n => (d.world.fs.files n).isSome = true)
      (Makes cx rel d.world.fs path flags) (Removes cx rel unl path flags)
    constructor
    · rintro ⟨v, hv, _, _, hfs⟩
      obtain ⟨_, hstale, _, hvf⟩ := dfsUnlink_entry hentry hv
      obtain ⟨h1, h2⟩ := hnames.mp fun n => by
        rw [← hleft n, ← hfs n, hvf]
      exact ⟨hreg, hstale, fun n hl => by simpa using h1 n hl, h2⟩
    · intro h
      obtain ⟨v, hv⟩ := dfsUnlink_returns hentry hdone h.stale
      obtain ⟨hvs, _, hvh, hvf⟩ := dfsUnlink_entry hentry hv
      have hback := hnames.mpr ⟨fun n hl => by simp [h.unused n hl], h.removed⟩
      refine ⟨v, hv, ?_, ?_, ?_⟩
      · have hse : v.store = st'.erase path := (congrArg Prod.snd (hvs.symm.trans hdone))
        rw [hse, hputs.erase hlook]
      · intro k
        rw [hvh k]
        by_cases hk : k = path
        · simp [hk, hh]
        · rw [if_neg hk]
          change (t.hash k).isSome = _
          rw [hhash, Function.update_of_ne hk]
      · intro n
        rw [Bool.eq_iff_iff, hvf, hleft n]
        exact hback n

/-- Freed memory still reads as it did. -/
def Sample.lasting : Env := { Env.quiet with stale := some }

def Sample.created : OpenFlags := ⟨.wronly, false, true, false⟩

/-- A file in the root directory is created, released and unlinked without a trace. -/
theorem unlink_undoes_create_sample :
    ∃ a t ret u, dfsCreate Sample.plain Env.quiet (Sample.daemon []).world ['/', 'f'] 0o100644
        Sample.created = .ok (0, some a, t) ∧
      dfsRelease Sample.plain Env.quiet t ['/', 'f'] Sample.created a = .ok (ret, u) ∧
      Undone Sample.plain Sample.lasting (Sample.daemon []).world u ['/', 'f'] := by
  refine ⟨_, _, _, _, rfl, rfl, ?_⟩
  apply (unlink_undoes_create_iff Sample.plain (Sample.daemon []) (Sample.daemon_reachable _ _)
    ['/', 'f'] rfl rfl Env.quiet Env.quiet Sample.lasting ⟨fun _ => rfl⟩ 0o100644 Sample.created 0
    _ _ _ rfl rfl).mpr
  refine ⟨rfl, ⟨_, _, rfl, rfl⟩, fun _ _ => rfl, ?_⟩
  rintro n (rfl | ⟨⟨hz, _⟩, _⟩)
  · exact .inr (.inl ⟨rfl, by decide⟩)
  · exact absurd hz.2.1 (by decide)

/-- A configuration that excludes every path. -/
def Sample.excluding : Ctx :=
  { Sample.plain with conf := { Sample.plain.conf with regex := fun _ => true } }

/-- The unlink of an excluded file fails, and leaves its entry and its cache file. -/
theorem excluded_file_stays :
    ∃ a t u v, dfsCreate Sample.excluding Env.quiet (Sample.daemon []).world ['/', 'f'] 0o100644
        Sample.created = .ok (0, some a, t) ∧
      dfsRelease Sample.excluding Env.quiet t ['/', 'f'] Sample.created a = .ok (0, u) ∧
      dfsUnlink Sample.excluding Sample.lasting u (.ext ['/', 'f']) = .ok (1, v) ∧
      v.hash ['/', 'f'] = some a ∧ v.fs.readName (slashName Sample.excluding ['/', 'f']) = some [] ∧
      ¬Undone Sample.excluding Sample.lasting (Sample.daemon []).world u ['/', 'f'] := by
  refine ⟨_, _, _, _, rfl, rfl, rfl, rfl, rfl, fun h => ?_⟩
  obtain ⟨_, hv, _⟩ := h
  cases hv

end DropletFs
