import DropletFs.Rename.Names
import DropletFs.Table.Handles

/-! Open handles across removals and renames. -/

namespace DropletFs

open CText LocalFs

/-- The rename of directory `o` to `n` goes by the right names: the paths of every activation fit
their buffers and are there as long as they are read. -/
def World.NamesLast (s : World) (o n : Path) : Prop :=
  o ≠ rootPath ∧ ∃ f, s.store.children o = f.names ∧ Ready s o n f

/-- The remote side refuses to move this file below `n`. -/
def Env.Refuses (env : Env) (p n : Path) : Prop :=
  env.remote (.unlink p) ≠ .success ∨ ∀ q, Within n q → env.remote (.fcopy p q) ≠ .success

def Daemon.NoHandleOn (d : Daemon) (p : Path) : Prop := ∀ h ∈ d.handles, h.path ≠ p

/-- A rename does not remove the entry of a path that is open. -/
def RenameSpares (env : Env) (d : Daemon) (old new : Path) : Prop :=
  match (dplNamei env d.world.store old).2.getD (env.junk old) with
  | .other => True
  | .reg => (dplFcopy env d.world.store old new).1 = .success →
      (dplUnlink env (dplFcopy env d.world.store old new).2 old).1 = .success → d.NoHandleOn old
  | .dir => d.handles = [] ∨ old ≠ new ∧ d.world.store.ftype? old ≠ some .dir ∨
      d.world.NamesLast old new ∧ ∀ h ∈ d.handles, Within old h.path → env.Refuses h.path new

/-- No callback removes the entry of a path that is open. -/
def SparesHandles (d : Daemon) (c : Call) : Prop :=
  match c.op with
  | .unlink path => (dplUnlink c.env d.world.store path).1 = .success → d.NoHandleOn path
  | .rename old new => RenameSpares c.env d old (renameTarget old new)
  | _ => True

/-- What every outstanding handle refers to has not been freed and has an open descriptor, and a
read, a write or a release on it uses no freed memory. -/
structure Daemon.HandlesLive (cx : Ctx) (d : Daemon) : Prop where
  entry : ∀ h ∈ d.handles, ∃ pe fd f, d.world.heap h.addr = some pe ∧ pe.path = h.path ∧
    pe.fd = some fd ∧ d.world.fs.fds.lookup fd = some f
  read : ∀ h ∈ d.handles, ∀ env size offset,
    dfsRead env d.world h.addr size offset ≠ .error .useAfterFree
  write : ∀ h ∈ d.handles, ∀ env buf offset,
    dfsWrite env d.world h.addr buf offset ≠ .error .useAfterFree
  release : ∀ h ∈ d.handles, ∀ env,
    dfsRelease cx env d.world h.path h.flags h.addr ≠ .error .useAfterFree

section

variable {cx : Ctx} {env : Env} {d : Daemon}

theorem Daemon.NoHandleOn.hash {p : Path} (hn : d.NoHandleOn p) (hi : d.world.Inv) (hl : d.Live) :
    ∀ h ∈ d.handles, d.world.hash p ≠ some h.addr := by
  intro h hh hp
  obtain ⟨pe, hpe, hpath⟩ := hi.entry p h.addr hp
  obtain ⟨qe, hqe, hqp, _⟩ := hl.entry h hh
  obtain rfl : pe = qe := Option.some.inj (hpe.symm.trans hqe)
  exact hn h hh (hqp.symm.trans hpath)

/-- A file's rename spares the handles when the file it removes has none. -/
theorem renameFile_live {a b : Path} {ret : Int} {w : World} (hi : d.world.Inv) (hl : d.Live)
    (hno : (dplFcopy env d.world.store a b).1 = .success →
      (dplUnlink env (dplFcopy env d.world.store a b).2 a).1 = .success → d.NoHandleOn a)
    (h : renameFile cx env d.world (.ext a) (.ext b) = .ok (ret, w)) :
    Daemon.Live ⟨w, d.handles⟩ := by
  rcases renameFile_cases h with ⟨_, _, rfl⟩ | ⟨store, u, hst, hu, ht⟩
  · exact hl.of_keeps (.of_heap rfl)
  · have hst' : dplFcopy env d.world.store a b = (.success, store) := hst
    rw [hst'] at hno
    have hiu : ({ d.world with store := store } : World).Inv := hi.congr rfl rfl rfl rfl
    have hk : d.world.Keeps u ∧ u.Inv ∧ u.store = store := by
      rcases hu with rfl | ⟨dirname, _, rfl⟩
      · exact ⟨.of_heap rfl, hiu, rfl⟩
      · refine ⟨World.Keeps.trans (t := { d.world with store := store }) (.of_heap rfl)
          (onEntry_removeDirent_keeps _ _ _), onEntry_removeDirent_inv hiu _ _, ?_⟩
        exact (World.onEntry_rest _ _ _).1
    obtain ⟨hk, hui, hus⟩ := hk
    have hlu : Daemon.Live ⟨u, d.handles⟩ := hl.of_keeps hk
    apply dfsUnlink_live (d := ⟨u, d.handles⟩) hlu ht
    intro hs
    have hs' : (dplUnlink env store a).1 = .success := hus ▸ hs
    have hnu : Daemon.NoHandleOn ⟨u, d.handles⟩ a := hno rfl hs'
    exact hnu.hash hui hlu

theorem dplUnlink_success {st : Store} {p : Path} (h : (dplUnlink env st p).1 = .success) :
    env.remote (.unlink p) = .success := by
  unfold dplUnlink at h
  split at h
  · assumption
  · exact h

theorem dplFcopy_success {st : Store} {p q : Path} (h : (dplFcopy env st p q).1 = .success) :
    env.remote (.fcopy p q) = .success := by
  unfold dplFcopy at h
  split at h
  · assumption
  · exact h

/-- The steps of a rename that goes by the right names spare the handles. -/
theorem liveSteps {hs : List Handle} {o n : Path}
    (hno : ∀ h ∈ hs, Within o h.path → env.Refuses h.path n) :
    MoveSteps cx env o n fun t => t.Inv ∧ Daemon.Live ⟨t, hs⟩ := by
  refine ⟨?_, ?_, ?_, ?_⟩
  · rintro t ring cwd trace ⟨hi, hl⟩
    exact ⟨hi.congr rfl rfl rfl rfl, hl.of_keeps (.of_heap rfl)⟩
  · rintro t q _ ⟨hi, hl⟩
    exact ⟨(dfsMkdir_inv hi).1, hl.of_keeps (dfsMkdir_inv hi).2⟩
  · rintro t a b ret u ha hb ⟨hi, hl⟩ h
    refine ⟨renameFile_inv hi h, renameFile_live (d := ⟨t, hs⟩) hi hl ?_ h⟩
    rintro hc hu g hg rfl
    rcases hno g hg ha with hr | hr
    · exact hr (dplUnlink_success hu)
    · exact hr b hb (dplFcopy_success hc)
  · rintro t a ret u _ ⟨hi, hl⟩ h
    exact ⟨(dfsRmdir_inv hi h).1, hl.of_keeps (dfsRmdir_inv hi h).2⟩

theorem renameDirectory_live {old new : Path} {ret : Int} {w : World} (hi : d.world.Inv)
    (hl : d.Live)
    (hc : d.handles = [] ∨ old ≠ new ∧ d.world.store.ftype? old ≠ some .dir ∨
      d.world.NamesLast old new ∧ ∀ h ∈ d.handles, Within old h.path → env.Refuses h.path new)
    (h : renameDirectory cx env env.stack d.world (.ext old) (.ext new) = .ok (ret, w)) :
    Daemon.Live ⟨w, d.handles⟩ := by
  rcases hc with hnil | ⟨hne, hdir⟩ | ⟨⟨hroot, f, hch, hr⟩, hno⟩
  · rw [hnil]
    refine ⟨fun g hg => (by cases hg), fun a pe _ => ?_⟩
    exact Nat.zero_le _
  · have hend : w.Inv ∧ Daemon.Live ⟨w, d.handles⟩ := by
      apply renameDirectory_refused ?_ ?_ hne hdir ⟨hi, hl⟩ h
      · exact fun u _ _ _ ⟨hi, hl⟩ => ⟨hi.congr rfl rfl rfl rfl, hl.of_keeps (.of_heap rfl)⟩
      · intro u ⟨hi, hl⟩
        have hmk : (dfsMkdir env u new).2.Inv ∧ u.Keeps (dfsMkdir env u new).2 := dfsMkdir_inv hi
        exact ⟨hmk.1, hl.of_keeps hmk.2⟩
    exact hend.2
  · obtain ⟨he, hkeep⟩ := renameDirectory_agree cx env env.stack hr hroot hch
    rw [he] at h
    exact ((hkeep ret w h).2 _ (liveSteps hno) ⟨hi, hl⟩).2

theorem dfsRename_live {old new : Path} {ret : Int} {w : World} (hi : d.world.Inv)
    (hl : d.Live) (hc : RenameSpares env d old (renameTarget old new))
    (h : dfsRename cx env d.world old new = .ok (ret, w)) : Daemon.Live ⟨w, d.handles⟩ := by
  rcases dfsRename_cases h with ⟨_, _, rfl⟩ | ⟨ht, r, _, hr⟩ | ⟨ht, r, _, hr⟩
  · exact hl
  · rw [RenameSpares, ht] at hc
    exact renameFile_live hi hl hc hr
  · rw [RenameSpares, ht] at hc
    exact renameDirectory_live hi hl hc hr

/-- A step that spares the handles keeps them live. -/
theorem Daemon.Live.step {c : Call} {d' : Daemon} (hi : d.world.Inv) (hl : d.Live)
    (hc : SparesHandles d c) (h : Daemon.step cx d c = .ok d') : d'.Live := by
  obtain ⟨op, env⟩ := c
  obtain ⟨ret, hcall⟩ := Daemon.step_cases h
  refine hcall.live hi hl ?_ ?_
  · rintro path rfl hs
    have hno : d.NoHandleOn path := hc hs
    exact hno.hash hi hl
  · rintro old new w rfl hw
    exact dfsRename_live hi hl hc hw

theorem releaseEntry_noUse {st : Store} {fs : LocalFs} {path : Path} {flags : OpenFlags}
    {pe : Entry} : releaseEntry cx env st fs path flags pe ≠ .error .useAfterFree := by
  intro h
  unfold releaseEntry at h
  split at h
  · cases h
  · split at h
    · unfold pentryDecRefcount at h
      by_cases hz : pe.refcount = 0
      · rw [if_pos hz] at h
        cases h
      · rw [if_neg hz] at h
        simp only [bind, Except.bind] at h
        split_ifs at h
    · cases h

theorem Daemon.Live.handles (hi : d.world.Inv) (hl : d.Live) : d.HandlesLive cx := by
  have hderef : ∀ h ∈ d.handles, d.world.deref h.addr ≠ .error .useAfterFree := by
    intro h hh he
    obtain ⟨pe, hpe, _⟩ := hl.entry h hh
    rw [World.deref_ok.mpr hpe] at he
    cases he
  refine ⟨?_, ?_, ?_, ?_⟩
  · intro h hh
    obtain ⟨pe, hpe, hpath, hfd⟩ := hl.entry h hh
    obtain ⟨fd, hfd⟩ := Option.isSome_iff_exists.mp hfd
    obtain ⟨f, hf, _⟩ := hi.opened h.addr pe fd hpe hfd
    exact ⟨pe, fd, f, hpe, hpath, hfd, hf⟩
  · intro h hh env size offset he
    rcases Except.bind_error.mp he with he | ⟨pe, _, he⟩
    · exact hderef h hh he
    · split at he
      · cases he
      · split at he
        · split_ifs at he
        · cases he
        · cases he
  · intro h hh env buf offset he
    rcases Except.bind_error.mp he with he | ⟨pe, _, he⟩
    · exact hderef h hh he
    · split at he
      · cases he
      · split at he
        · split_ifs at he
        · cases he
        · cases he
  · intro h hh env he
    rcases Except.bind_error.mp he with he | ⟨pe, _, he⟩
    · exact hderef h hh he
    · rcases Except.bind_error.mp he with he | ⟨r, _, he⟩
      · exact releaseEntry_noUse he
      · cases he

end

/-- In every run whose steps remove no entry that is open, each handle given out and not yet
released stays good. -/
theorem handles_stay_live (cx : Ctx) (store : Store) (fs : LocalFs) (ring : Ring)
    (calls : List Call) (d : Daemon) (hw : fs.Wf)
    (hm : Transition.Meets (Daemon.step cx) SparesHandles (.init store fs ring) calls)
    (hr : Transition.exec (Daemon.step cx) (.init store fs ring) calls = .ok d) :
    d.HandlesLive cx := by
  suffices h : d.world.Inv ∧ d.Live from h.2.handles h.1
  refine Transition.exec_invariant (I := fun d => d.world.Inv ∧ d.Live) ?_ ?_ hm hr
  · rintro d c t ⟨hi, hl⟩ hg ht
    obtain ⟨ret, hc⟩ := Daemon.step_cases ht
    exact ⟨hc.inv hi, hl.step hi hg ht⟩
  · exact ⟨Daemon.init_inv hw, Daemon.init_live store fs ring⟩

/-- `/f` stays open while the directory next to it is renamed. -/
def renameBeside : List Call :=
  [Sample.call (.open ['/', 'f'] Sample.readOnly), Sample.call (.rename ['/', 'd'] ['/', 'e'])]

def besideObjects : List (Path × Obj) :=
  [(['/', 'f'], Sample.file [1]), (['/', 'd'], Sample.dir), (['/', 'd', '/', 'x'], Sample.file [2])]

theorem handles_stay_live_sample :
    ∃ d, Transition.exec (Daemon.step Sample.plain) (Sample.daemon besideObjects) renameBeside =
        .ok d ∧ d.handles.length = 1 ∧ d.HandlesLive Sample.plain := by
  have hm : Transition.Meets (Daemon.step Sample.plain) SparesHandles
      (.init (Sample.store besideObjects) Sample.fs Sample.ring) renameBeside := by
    refine ⟨trivial, .inr (.inr ⟨⟨by decide, .file ['x'] .nil, rfl, ?_⟩, ?_⟩), trivial⟩
    · exact ⟨by decide, by decide, ⟨by decide, by decide, ⟨.reg, rfl, by decide⟩, trivial⟩,
        ⟨by decide, trivial⟩, ⟨by decide, trivial⟩, trivial⟩
    · intro h hh hw
      obtain rfl := List.mem_singleton.mp hh
      have hout : ¬Within ['/', 'd'] ['/', 'f'] := by decide
      exact (hout hw).elim
  exact ⟨_, rfl, rfl, handles_stay_live Sample.plain _ _ _ _ _ Sample.fs_wf hm rfl⟩

/-- An open file is unlinked: its handle refers to a freed entry, and a read uses it. -/
theorem unlink_frees_open_file :
    ∃ d h, Transition.exec (Daemon.step Sample.plain)
        (Sample.daemon [(['/', 'f'], Sample.file [1])])
        [Sample.call (.open ['/', 'f'] Sample.readOnly),
          ⟨.unlink ['/', 'f'], { Env.quiet with stale := some }⟩] = .ok d ∧
      d.handles = [h] ∧ d.world.heap h.addr = none ∧
      dfsRead Env.quiet d.world h.addr 1 0 = .error .useAfterFree ∧
      ¬d.HandlesLive Sample.plain := by
  refine ⟨_, _, rfl, rfl, rfl, rfl, fun hl => ?_⟩
  exact hl.read _ (List.mem_singleton_self _) Env.quiet 1 0 rfl

end DropletFs
