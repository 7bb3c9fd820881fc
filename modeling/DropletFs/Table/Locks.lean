import DropletFs.Model.Cachedir
import DropletFs.Model.Sample
import DropletFs.Table.Lasting

/-! The metadata locks of the entries across each callback and each refresh. -/

namespace DropletFs

open CText LocalFs

/-- The callbacks that take a metadata lock, and the two refreshes. -/
def Task.locks : Task → Bool
  | .callback c =>
    match c.op with
    | .getattr _ | .open _ _ | .create _ _ _ | .chmod _ _ | .chown _ _ _ => true
    | _ => false
  | .updateMd _ _ | .mapDirents _ _ => true

/-- Every lock is as it was, and free when the entry is new. -/
def World.LocksKept (s t : World) : Prop :=
  ∀ a pe', t.heap a = some pe' → pe'.mdLocked = ((s.heap a).map (·.mdLocked)).getD false

/-- A task that takes a lock gets it, and one that returns leaves the locks as they were. -/
structure Daemon.Balanced (cx : Ctx) (d : Daemon) (task : Task) : Prop where
  returns : task.locks = true → d.task cx task ≠ .error .blocked
  kept : ∀ d', d.task cx task = .ok d' → d.world.LocksKept d'.world

/-- A stat of an entry whose status is known to be remote finds its dictionary. -/
def FindsMetadata (d : Daemon) (task : Task) : Prop :=
  match task with
  | .callback ⟨.getattr path, _⟩ => path ≠ rootPath → ∀ pe, d.world.entry path = some pe →
      pe.ondisk = .remote → pe.usermd.isSome
  | _ => True

/-- The metadata lock is free. -/
def Unlocked : EntryProp := fun _ _ pe => pe.mdLocked = false

section Locks

variable {cx : Ctx} {env : Env} {d : Daemon} {s t : World} {path : Path} {ret : Int}

theorem pentryMdLock_free {pe : Entry} (h : pe.mdLocked = false) :
    pentryMdLock pe = .ok { pe with mdLocked := true } := by
  simp [pentryMdLock, h]

theorem pentryMdLock_returns {pe : Entry} (h : pe.mdLocked = false) :
    pentryMdLock pe ≠ .error .blocked := by
  rw [pentryMdLock_free h]
  exact Except.ok_ne_error

theorem World.deref_returns (s : World) (a : Addr) : s.deref a ≠ .error .blocked := by
  unfold World.deref
  split <;> simp

theorem getattrRemote_returns {pe : Entry} (h : pe.mdLocked = false) (st : Stat) :
    getattrRemote pe st ≠ .error .blocked := by
  apply Except.bind_ne_error (pentryMdLock_returns h)
  intro qe _
  split <;> simp

/-- `getattr_remote` gives the lock back where it finds the dictionary. -/
theorem getattrRemote_locked {pe pe' : Entry} {st st' : Stat}
    (h : getattrRemote pe st = .ok (ret, st', pe')) :
    pe'.mdLocked = false ↔ pe.usermd.isSome := by
  unfold getattrRemote at h
  obtain ⟨pl, hl, h⟩ := Except.bind_ok.mp h
  obtain ⟨_, rfl⟩ := pentryMdLock_ok hl
  cases hu : pe.usermd with
  | none =>
    simp only [hu, Except.ok.injEq, Prod.mk.injEq] at h
    rw [← h.2.2]
    simp
  | some md =>
    simp only [hu, Except.ok.injEq, Prod.mk.injEq] at h
    rw [← h.2.2]
    simp [pentryMdUnlock]

theorem statOfHeaders_returns (env : Env) (st : Stat) (headers : Headers) :
    statOfHeaders env st headers ≠ .error .blocked := by
  unfold statOfHeaders
  dsimp only
  split
  · exact Except.ok_ne_error
  · split
    · simp
    · exact Except.ok_ne_error

theorem getattrUnset_returns_free {store : Store} {pe : Entry} (h : pe.mdLocked = false)
    (st : Stat) : getattrUnset env store pe path st ≠ .error .blocked := by
  unfold getattrUnset
  split
  · dsimp only
    split_ifs
    · exact Except.ok_ne_error
    · exact Except.ok_ne_error
    · split
      · simp
      · apply Except.bind_ne_error (statOfHeaders_returns _ _ _)
        intro r _
        apply Except.bind_ne_error (pentryMdLock_returns h)
        intro qe _
        exact Except.ok_ne_error
  · exact Except.ok_ne_error

theorem dfsGetattr_returns (hi : s.Inv) (hs : s.All Unlocked) :
    dfsGetattr env s path ≠ .error .blocked := by
  unfold dfsGetattr
  dsimp only
  split_ifs
  · exact Except.ok_ne_error
  · split
    · exact Except.ok_ne_error
    · rename_i a u hl
      have hu := hs.looked (lookupOrPopulate_spec hi hl) fun _ => rfl
      apply Except.bind_ne_error (World.deref_returns u a)
      intro pe hpe
      have hfree : pe.mdLocked = false := hu a pe (World.deref_ok.mp hpe)
      split
      · apply Except.bind_ne_error (getattrRemote_returns hfree _)
        intro r _
        exact Except.ok_ne_error
      · exact Except.ok_ne_error
      · apply Except.bind_ne_error (getattrUnset_returns_free hfree _)
        intro r _
        exact Except.ok_ne_error

theorem dfsGetattr_unlocked {st : Stat} (hi : s.Inv) (hs : s.All Unlocked)
    (hg : path ≠ rootPath → ∀ pe, s.entry path = some pe → pe.ondisk = .remote → pe.usermd.isSome)
    (h : dfsGetattr env s path = .ok (ret, st, t)) : t.All Unlocked := by
  cases dfsGetattr_cases h with
  | root => exact hs
  | noEntry => exact hs
  | remote hr hl ha ho hget =>
    have hlook := lookupOrPopulate_spec hi hl
    apply (hs.looked hlook fun _ => rfl).setEntry
    apply (getattrRemote_locked hget).mpr
    apply hg hr _ ?_ ho
    have hold := hlook.heap_old ha (by rw [ho]; decide)
    have he := hi.entry_of_heap hold
    obtain ⟨qe, hq, hpath⟩ := hlook.heap
    obtain rfl := Option.some.inj (ha.symm.trans hq)
    rwa [hpath] at he
  | loc _ hl ha _ _ =>
    have hu := hs.looked (lookupOrPopulate_spec hi hl) fun _ => rfl
    apply hu.setEntry
    have hold := hu _ _ ha
    exact hold
  | unset hr hl ha ho hget =>
    rename_i a u pe pe' fill
    have hu := hs.looked (lookupOrPopulate_spec hi hl) fun _ => rfl
    have hset : (u.setEntry a { pe' with atime := env.now }).All Unlocked := by
      apply hu.setEntry
      rcases getattrUnset_spec hget with ⟨_, rfl⟩ | ⟨_, _, _, _, _, _, rfl⟩
      · have hold := hu a _ ha
        exact hold
      · rfl
    split
    · unfold hashFillDirent
      cases beforeLastSlash path with
      | none => exact hset
      | some dir => exact hset.onEntry (fun _ => rfl) fun _ _ _ _ hpe => hpe
    · exact hset

/-- Without the dictionary the lock stays taken. -/
theorem dfsGetattr_keepsLock (env : Env) {pe : Entry} (hs : s.All Unlocked)
    (hr : path ≠ rootPath) (he : s.entry path = some pe) (ho : pe.ondisk = .remote)
    (hu : pe.usermd = none) : ∃ st t, dfsGetattr env s path = .ok (-1, st, t) ∧
      ¬t.All Unlocked := by
  obtain ⟨a, hh, ha⟩ := Option.bind_eq_some_iff.mp he
  have hl : lookupOrPopulate env s path (env.rawType path) = some (a, s) := by
    unfold lookupOrPopulate
    rw [hh]
  have hrem : getattrRemote pe { Stat.zero with nlink := 1 } =
      .ok (-1, { Stat.zero with nlink := 1 }, { pe with mdLocked := true }) := by
    unfold getattrRemote
    rw [pentryMdLock_free (hs a pe ha)]
    simp [hu, bind, Except.bind]
  refine ⟨{ Stat.zero with nlink := 1 }, s.setEntry a
    { pe with mdLocked := true, atime := env.now },
    ?_, fun hall => ?_⟩
  · unfold dfsGetattr
    dsimp only
    rw [if_neg hr, hl]
    refine Except.bind_ok.mpr ⟨pe, World.deref_ok.mpr ha, ?_⟩
    split
    · exact Except.bind_ok.mpr ⟨_, hrem, rfl⟩
    · rename_i hx
      rw [ho] at hx
      cases hx
    · rename_i hx
      rw [ho] at hx
      cases hx
  · have hlock := hall a _ (World.setEntry_heap_self s a _)
    exact absurd hlock (by simp [Unlocked])

theorem localCopy_returns {st : Store} {fs : LocalFs} {pe : Entry} {flags : OpenFlags}
    {headers : Headers} (h : pe.mdLocked = false) :
    localCopy cx env st fs pe path flags headers ≠ .error .blocked := by
  apply Except.bind_ne_error (pentryMdLock_returns h)
  intro qe _
  dsimp only
  split_ifs
  · exact Except.ok_ne_error
  · split
    · exact Except.ok_ne_error
    · exact Except.ok_ne_error

theorem openExisting_returns {st : Store} {fs : LocalFs} {pe : Entry} {flags : OpenFlags}
    (h : pe.mdLocked = false) : openExisting cx env st fs path pe flags ≠ .error .blocked := by
  unfold openExisting
  split
  · exact Except.ok_ne_error
  · apply Except.bind_ne_error ?_ fun _ _ => Except.ok_ne_error
    unfold dfsGetLocalCopy
    dsimp only
    split_ifs
    · exact Except.ok_ne_error
    · split
      · simp
      · exact Except.ok_ne_error
    · split
      · simp
      · exact localCopy_returns h

theorem openMode_returns {st : Store} {fs : LocalFs} {pe : Entry} {smode : StateMode}
    (h : pe.mdLocked = false) : openMode cx env st fs path pe smode ≠ .error .blocked := by
  cases smode with
  | rdonly => exact openExisting_returns h
  | wronly => exact Except.bind_ne_error (openExisting_returns h) fun _ _ => Except.ok_ne_error
  | rdwr => exact Except.bind_ne_error (openExisting_returns h) fun _ _ => Except.ok_ne_error
  | creat => exact Except.ok_ne_error

theorem dfsOpen_returns {flags : OpenFlags} (hi : s.Inv) (hs : s.All Unlocked) :
    dfsOpen cx env s path flags ≠ .error .blocked := by
  unfold dfsOpen
  split
  · exact Except.ok_ne_error
  · rename_i a u hl
    have hu := hs.looked (lookupOrPopulate_spec hi hl) fun _ => rfl
    apply Except.bind_ne_error (World.deref_returns u a)
    intro pe hpe
    have hfree : (pentryIncRefcount pe).mdLocked = false := hu a pe (World.deref_ok.mp hpe)
    apply Except.bind_ne_error (openMode_returns hfree)
    intro r _
    dsimp only
    split_ifs
    · exact Except.ok_ne_error
    · exact Except.ok_ne_error

theorem dfsOpen_unlocked {flags : OpenFlags} {fh : Option Addr} (hi : s.Inv)
    (hs : s.All Unlocked) (h : dfsOpen cx env s path flags = .ok (ret, fh, t)) :
    t.All Unlocked := by
  refine (dfsOpen_all hi hs (fun _ => rfl) ?_ h).1
  intro a qe fs hm hpe
  have hfree : qe.mdLocked = false := (openMode_spec hi.wf hm).unlocked hpe
  split_ifs
  · exact hfree
  · exact hfree

theorem createOpened_returns {st : Store} {fs : LocalFs} {mode : Nat} {exclude : Bool}
    {pe : Entry} (h : pe.mdLocked = false) :
    createOpened env st fs path mode exclude pe ≠ .error .blocked := by
  have hx : ({ pe with exclude := exclude } : Entry).mdLocked = false := h
  unfold createOpened
  dsimp only
  split
  · exact Except.ok_ne_error
  · split
    · exact Except.ok_ne_error
    · exact Except.ok_ne_error
    · split
      · exact Except.ok_ne_error
      · split_ifs
        · simp
        · exact Except.ok_ne_error
        all_goals
          apply Except.bind_ne_error (pentryMdLock_returns hx)
          intro qe _
        · exact Except.ok_ne_error
        · split
          · exact Except.ok_ne_error
          · exact Except.ok_ne_error

theorem createOpened_unlocked {st st' : Store} {fs fs' : LocalFs} {mode : Nat} {exclude : Bool}
    {pe pe' : Entry} (hm : pe.mdLocked = false)
    (h : createOpened env st fs path mode exclude pe = .ok (ret, pe', fs', st')) :
    pe'.mdLocked = false := by
  unfold createOpened at h
  dsimp only at h
  split at h
  · simp only [Except.ok.injEq, Prod.mk.injEq] at h
    rw [← h.2.1]
    exact hm
  · split at h
    · simp only [Except.ok.injEq, Prod.mk.injEq] at h
      rw [← h.2.1]
      exact hm
    · simp only [Except.ok.injEq, Prod.mk.injEq] at h
      rw [← h.2.1]
      exact hm
    · split at h
      · simp only [Except.ok.injEq, Prod.mk.injEq] at h
        rw [← h.2.1]
        exact hm
      · split_ifs at h
        · simp only [Except.ok.injEq, Prod.mk.injEq] at h
          rw [← h.2.1]
          exact hm
        all_goals obtain ⟨pl, _, h⟩ := Except.bind_ok.mp h
        · simp only [Except.ok.injEq, Prod.mk.injEq] at h
          rw [← h.2.1]
          rfl
        · split at h
          · simp only [Except.ok.injEq, Prod.mk.injEq] at h
            rw [← h.2.1]
            rfl
          · simp only [Except.ok.injEq, Prod.mk.injEq] at h
            rw [← h.2.1]
            rfl

theorem dfsCreate_returns {mode : Nat} {flags : OpenFlags} (hi : s.Inv) (hs : s.All Unlocked) :
    dfsCreate cx env s path mode flags ≠ .error .blocked := by
  unfold dfsCreate
  dsimp only
  split_ifs
  all_goals try exact Except.ok_ne_error
  all_goals
    apply Except.bind_ne_error (dfsOpen_returns hi hs)
    intro r ho
    obtain ⟨r, fh, u⟩ := r
    have hu := dfsOpen_unlocked hi hs ho
    split
    · exact Except.ok_ne_error
    · rename_i a _
      split_ifs
      · exact Except.ok_ne_error
      · apply Except.bind_ne_error (World.deref_returns u a)
        intro pe hpe
        apply Except.bind_ne_error (createOpened_returns (hu a pe (World.deref_ok.mp hpe)))
        intro r _
        exact Except.ok_ne_error

theorem dfsCreate_unlocked {mode : Nat} {flags : OpenFlags} {fh : Option Addr} (hi : s.Inv)
    (hs : s.All Unlocked) (h : dfsCreate cx env s path mode flags = .ok (ret, fh, t)) :
    t.All Unlocked := by
  refine dfsCreate_all hi hs (fun _ => rfl) ?_ ?_ h
  · intro a qe fs hm hpe
    exact (openMode_spec hi.wf hm).unlocked hpe
  · intro a r qe fs pe' fs' st _ hm hc hpe
    have hfree : ({ qe with ondisk := .loc } : Entry).mdLocked = false :=
      (openMode_spec hi.wf hm).unlocked hpe
    exact createOpened_unlocked hfree hc

theorem setAttributes_returns {upd : Dict → Dict} {change : LocalFs → Nat → LocalFs}
    {call : SysCall} (hs : s.All Unlocked) :
    setAttributes env s path upd change call ≠ .error .blocked := by
  unfold setAttributes
  split
  · exact Except.ok_ne_error
  · rename_i a _
    apply Except.bind_ne_error (World.deref_returns s a)
    intro pe hpe
    split
    · simp
    · apply Except.bind_ne_error (pentryMdLock_returns (hs a pe (World.deref_ok.mp hpe)))
      intro qe _
      dsimp only
      split
      · exact Except.ok_ne_error
      · exact Except.ok_ne_error

theorem setAttributes_unlocked {upd : Dict → Dict} {change : LocalFs → Nat → LocalFs}
    {call : SysCall} (hi : s.Inv) (hs : s.All Unlocked)
    (h : setAttributes env s path upd change call = .ok (ret, t)) : t.All Unlocked := by
  apply setAttributes_all hi hs ?_ h
  intro a pe md o' _ _ _ _
  rfl

/-- A refresh takes the lock only when it is free, and gives it back. -/
theorem refreshEntry_fields (env : Env) (usermd : Option Dict) (pe : Entry) :
    ∃ md n, refreshEntry env usermd pe = { pe with usermd := md, atime := n } := by
  unfold refreshEntry
  split_ifs with hl
  · exact ⟨pe.usermd, pe.atime, rfl⟩
  · simp only [Bool.not_eq_true] at hl
    cases usermd with
    | none => exact ⟨pe.usermd, env.now, by simp [pentryMdUnlock, ← hl]⟩
    | some dict =>
      obtain ⟨md, hmd⟩ := pentrySetUsermd_snd env { pe with mdLocked := true } dict
      refine ⟨md, env.now, ?_⟩
      dsimp only
      rw [hmd]
      simp [pentryMdUnlock, ← hl]

theorem cbMapDirents_cases (h : cbMapDirents env s path = .ok t) :
    t = s ∨ ∃ a pe usermd, s.heap a = some pe ∧ t = s.setEntry a (refreshEntry env usermd pe) := by
  unfold cbMapDirents at h
  split at h
  · simp only [Except.ok.injEq] at h
    exact .inl h.symm
  · split at h
    · dsimp only at h
      split_ifs at h
      · simp only [Except.ok.injEq] at h
        exact .inl h.symm
      · obtain ⟨pe, hpe, h⟩ := Except.bind_ok.mp h
        simp only [Except.ok.injEq] at h
        exact .inr ⟨_, pe, _, World.deref_ok.mp hpe, h.symm⟩
    · simp only [Except.ok.injEq] at h
      exact .inl h.symm

theorem cbMapDirents_returns : cbMapDirents env s path ≠ .error .blocked := by
  unfold cbMapDirents
  split
  · exact Except.ok_ne_error
  · rename_i a _
    split
    · dsimp only
      split_ifs
      · exact Except.ok_ne_error
      · exact Except.bind_ne_error (World.deref_returns s a) fun _ _ => Except.ok_ne_error
    · exact Except.ok_ne_error

/-- What a refresh of one entry keeps. -/
theorem World.refreshed {a : Addr} {pe : Entry} (hi : s.Inv) (hs : s.All Unlocked)
    (ha : s.heap a = some pe) (usermd : Option Dict) :
    (s.setEntry a (refreshEntry env usermd pe)).Inv ∧
      (s.setEntry a (refreshEntry env usermd pe)).All Unlocked := by
  obtain ⟨md, n, hpe⟩ := refreshEntry_fields env usermd pe
  rw [hpe]
  refine ⟨(hi.setEntry_keeps ha { pe with usermd := md, atime := n } rfl rfl rfl (.inl rfl)).1,
    hs.setEntry ?_⟩
  have hold := hs a pe ha
  exact hold

theorem cbMapDirents_unlocked (hs : s.Inv ∧ s.All Unlocked) (h : cbMapDirents env s path = .ok t) :
    t.Inv ∧ t.All Unlocked := by
  rcases cbMapDirents_cases h with rfl | ⟨a, pe, usermd, ha, rfl⟩
  · exact hs
  · exact World.refreshed hs.1 hs.2 ha usermd

/-- What each call of a loop keeps, the loop keeps. -/
theorem foldlM_cbMapDirents (paths : List Path) (hs : s.Inv ∧ s.All Unlocked) :
    paths.foldlM (cbMapDirents env) s ≠ .error .blocked ∧
      ∀ u, paths.foldlM (cbMapDirents env) s = .ok u → u.Inv ∧ u.All Unlocked := by
  induction paths generalizing s with
  | nil =>
    refine ⟨Except.ok_ne_error, fun u hu => ?_⟩
    rw [← Except.pure_ok.mp hu]
    exact hs
  | cons p ps ih =>
    rw [List.foldlM_cons]
    constructor
    · apply Except.bind_ne_error cbMapDirents_returns
      intro u hu
      exact (ih (cbMapDirents_unlocked hs hu)).1
    · intro u hu
      obtain ⟨v, hv, hu⟩ := Except.bind_ok.mp hu
      exact (ih (cbMapDirents_unlocked hs hv)).2 u hu

theorem updateDirents_unlocked (type : Option FType) (pe : Entry) (hs : s.Inv ∧ s.All Unlocked) :
    updateDirents env s type pe ≠ .error .blocked ∧
      ∀ u, updateDirents env s type pe = .ok u → u.Inv ∧ u.All Unlocked := by
  unfold updateDirents
  split_ifs
  · exact foldlM_cbMapDirents _ hs
  · refine ⟨Except.ok_ne_error, fun u hu => ?_⟩
    rw [← Except.ok.inj hu]
    exact hs

theorem updateMd_unlocked (env : Env) (a : Addr) (hs : s.Inv ∧ s.All Unlocked) :
    updateMd env s a ≠ .error .blocked ∧
      ∀ u, updateMd env s a = .ok u → u.Inv ∧ u.All Unlocked := by
  have hkeep : ∀ u, Except.ok s = Except.ok (ε := Fault) u → u.Inv ∧ u.All Unlocked := by
    intro u hu
    rw [← Except.ok.inj hu]
    exact hs
  unfold updateMd
  constructor
  · apply Except.bind_ne_error (World.deref_returns s a)
    intro pe _
    split
    · rename_i type _
      dsimp only
      split_ifs
      · exact Except.ok_ne_error
      · apply Except.bind_ne_error (updateDirents_unlocked type pe hs).1
        intro u _
        exact Except.bind_ne_error (World.deref_returns u a) fun _ _ => Except.ok_ne_error
    · exact Except.ok_ne_error
  · intro u h
    obtain ⟨pe, _, h⟩ := Except.bind_ok.mp h
    split at h
    · rename_i type _
      dsimp only at h
      split_ifs at h
      · exact hkeep u h
      · obtain ⟨v, hv, h⟩ := Except.bind_ok.mp h
        obtain ⟨qe, hqe, h⟩ := Except.bind_ok.mp h
        obtain ⟨hi, hu⟩ := (updateDirents_unlocked type pe hs).2 v hv
        rw [← Except.ok.inj h]
        exact World.refreshed hi hu (World.deref_ok.mp hqe) _
    · exact hkeep u h

/-- Among free locks a lock is kept when it is free. -/
theorem World.locksKept_iff (hs : s.All Unlocked) : s.LocksKept t ↔ t.All Unlocked := by
  have hfree : ∀ a, ((s.heap a).map (·.mdLocked)).getD false = false := by
    intro a
    cases ha : s.heap a with
    | none => rfl
    | some pe => exact hs a pe ha
  constructor
  · intro h a pe ha
    exact (h a pe ha).trans (hfree a)
  · intro h a pe ha
    exact (h a pe ha).trans (hfree a).symm

theorem Calls.unlocked {d' : Daemon} {op : Op} (hi : d.world.Inv) (hs : d.world.All Unlocked)
    (hg : FindsMetadata d (.callback ⟨op, env⟩)) (h : Calls cx env d op ret d') :
    d'.world.All Unlocked := by
  have hrem : Removable Unlocked := fun _ _ _ _ hpe => hpe
  cases h with
  | getattr h => exact dfsGetattr_unlocked hi hs hg h
  | opened h => exact dfsOpen_unlocked hi hs h
  | openFailed _ h => exact dfsOpen_unlocked hi hs h
  | created h => exact dfsCreate_unlocked hi hs h
  | createFailed _ h => exact dfsCreate_unlocked hi hs h
  | read => exact hs
  | written _ _ h =>
    obtain ⟨_, _, ⟨rfl, _⟩ | ⟨_, _, _, _, _, _, rfl⟩⟩ := dfsWrite_cases h
    · exact hs
    · exact hs.of_eq rfl rfl
  | notWritten _ => exact hs
  | released _ h =>
    apply dfsRelease_all hi hs ?_ (fun _ _ _ _ _ hpe => hpe) h
    intro pe pe' fs st _ hr hpe
    change pe'.mdLocked = false
    rw [(releaseEntry_spec hi.wf hr).fields]
    exact hpe
  | notReleased => exact hs
  | unlink h => exact dfsUnlink_all hrem hi hs h
  | rename h =>
    have hsteps : RenameSteps cx env fun s => s.Inv ∧ s.All Unlocked :=
      { aside := fun _ _ _ _ ⟨hi, hs⟩ => ⟨hi.congr rfl rfl rfl rfl, hs.of_eq rfl rfl⟩
        mkdir := fun _ _ ⟨hi, hs⟩ => ⟨(dfsMkdir_inv hi).1,
          dfsMkdir_all hi hs (fun _ _ _ _ hpe => hpe) fun _ => rfl⟩
        file := fun _ _ _ _ _ ⟨hi, hs⟩ h => ⟨renameFile_inv hi h,
          renameFile_all hrem hi hs (fun _ _ _ _ _ hpe => hpe) h⟩
        rmdir := fun _ _ _ _ ⟨hi, hs⟩ h => ⟨(dfsRmdir_inv hi h).1,
          dfsRmdir_all hrem hs (fun _ _ _ _ _ _ _ _ hpe => hpe) h⟩ }
    exact (dfsRename_keeps hsteps ⟨hi, hs⟩ h).2
  | rmdir h => exact dfsRmdir_all hrem hs (fun _ _ _ _ _ _ _ _ hpe => hpe) h
  | mkdir => exact dfsMkdir_all hi hs (fun _ _ _ _ hpe => hpe) fun _ => rfl
  | mknod =>
    obtain ⟨hp, hh⟩ := dfsMknod_puts env d.world _
    exact hs.put hh hp fun _ _ _ _ _ hpe => hpe
  | symlink h =>
    obtain ⟨hp, hh⟩ := dfsSymlink_puts h
    exact hs.put hh hp fun _ _ _ _ _ hpe => hpe
  | chmod h => exact setAttributes_unlocked hi hs h
  | chown h => exact setAttributes_unlocked hi hs h
  | gc => exact gcCallback_all hs

/-- A callback that takes a lock gets it. -/
theorem Daemon.step_returns {c : Call} (hi : d.world.Inv) (hs : d.world.All Unlocked)
    (hl : (Task.callback c).locks = true) : d.step cx c ≠ .error .blocked := by
  obtain ⟨op, env⟩ := c
  apply Except.map_ne_error
  cases op with
  | getattr path => exact Except.map_ne_error (dfsGetattr_returns hi hs)
  | «open» path flags => exact Except.map_ne_error (dfsOpen_returns hi hs)
  | create path mode flags => exact Except.map_ne_error (dfsCreate_returns hi hs)
  | chmod path mode => exact Except.map_ne_error (setAttributes_returns hs)
  | chown path uid gid => exact Except.map_ne_error (setAttributes_returns hs)
  | _ => cases hl

/-- From free locks a task is balanced exactly when it finds the dictionary. -/
theorem Daemon.balanced_iff {task : Task} (hi : d.world.Inv) (hs : d.world.All Unlocked) :
    d.Balanced cx task ↔ FindsMetadata d task := by
  constructor
  · intro hb
    cases task with
    | updateMd => trivial
    | mapDirents => trivial
    | callback c =>
      obtain ⟨op, env⟩ := c
      cases op with
      | getattr path =>
        intro hr pe he ho
        by_contra hu
        rw [Option.not_isSome_iff_eq_none] at hu
        obtain ⟨st, t, ht, hno⟩ := dfsGetattr_keepsLock env hs hr he ho hu
        apply hno
        have hstep : d.task cx (.callback ⟨.getattr path, env⟩) = .ok { d with world := t } := by
          simp [Daemon.task, Daemon.step, Daemon.call, ht, Except.map]
        exact (World.locksKept_iff hs).mp (hb.kept _ hstep)
      | _ => trivial
  · intro hg
    cases task with
    | callback c =>
      refine ⟨Daemon.step_returns hi hs, fun d' h => ?_⟩
      obtain ⟨ret, hc⟩ := Daemon.step_cases h
      exact (World.locksKept_iff hs).mpr (hc.unlocked hi hs hg)
    | updateMd env a =>
      obtain ⟨h1, h2⟩ := updateMd_unlocked env a ⟨hi, hs⟩
      refine ⟨fun _ => Except.map_ne_error h1, fun d' h => ?_⟩
      obtain ⟨u, hu, rfl⟩ := Except.map_eq_ok.mp h
      exact (World.locksKept_iff hs).mpr (h2 u hu).2
    | mapDirents env path =>
      refine ⟨fun _ => Except.map_ne_error cbMapDirents_returns, fun d' h => ?_⟩
      obtain ⟨u, hu, rfl⟩ := Except.map_eq_ok.mp h
      exact (World.locksKept_iff hs).mpr (cbMapDirents_unlocked ⟨hi, hs⟩ hu).2

theorem Daemon.task_inv {task : Task} {d' : Daemon} (hi : d.world.Inv) (hs : d.world.All Unlocked)
    (h : d.task cx task = .ok d') : d'.world.Inv := by
  cases task with
  | callback c =>
    obtain ⟨ret, hc⟩ := Daemon.step_cases h
    exact hc.inv hi
  | updateMd env a =>
    obtain ⟨u, hu, rfl⟩ := Except.map_eq_ok.mp h
    exact ((updateMd_unlocked _ _ ⟨hi, hs⟩).2 u hu).1
  | mapDirents env path =>
    obtain ⟨u, hu, rfl⟩ := Except.map_eq_ok.mp h
    exact (cbMapDirents_unlocked ⟨hi, hs⟩ hu).1

end Locks

/-- The runs whose tasks all leave the locks as they were are those in which every stat of a
remote entry finds its dictionary. -/
theorem locks_balanced_iff (cx : Ctx) {store : Store} {fs : LocalFs} {ring : Ring}
    {tasks : List Task} (hw : fs.Wf) :
    Transition.Meets (Daemon.task cx) (Daemon.Balanced cx) (.init store fs ring) tasks ↔
      Transition.Meets (Daemon.task cx) FindsMetadata (.init store fs ring) tasks := by
  apply Transition.meets_iff_meets (I := fun d => d.world.Inv ∧ d.world.All Unlocked)
  · exact fun d task ⟨hi, hs⟩ => Daemon.balanced_iff hi hs
  · intro d task d' ⟨hi, hs⟩ hb ht
    exact ⟨Daemon.task_inv hi hs ht, (World.locksKept_iff hs).mp (hb.kept d' ht)⟩
  · refine ⟨Daemon.init_inv hw, ?_⟩
    intro a pe ha
    cases ha

/-- A file is looked at twice and refreshed. -/
theorem locks_balanced_sample :
    Transition.Meets (Daemon.task Sample.plain) (Daemon.Balanced Sample.plain)
      (Sample.daemon [(['/', 'f'], Sample.file [1])])
      [.callback (Sample.call (.getattr ['/', 'f'])), .callback (Sample.call (.getattr ['/', 'f'])),
        .updateMd Env.quiet 0] := by
  apply (locks_balanced_iff Sample.plain Sample.fs_wf).mpr
  refine ⟨?_, ?_, trivial, trivial⟩
  · intro _ pe he
    have hnone : (none : Option Entry) = some pe := he
    cases hnone
  · intro _ pe he _
    rw [← Option.some.inj he]
    rfl

/-- The first stat of a file finds no memory for its dictionary, the second one keeps the lock and
the third never returns. -/
theorem stat_keeps_lock :
    ∃ d d', Transition.exec (Daemon.step Sample.plain)
        (Sample.daemon [(['/', 'f'], Sample.file [1])])
        [⟨.getattr ['/', 'f'], { Env.quiet with lib := fun c => c != .usermdDict }⟩] = .ok d ∧
      d.step Sample.plain (Sample.call (.getattr ['/', 'f'])) = .ok d' ∧
      ¬d.Balanced Sample.plain (.callback (Sample.call (.getattr ['/', 'f']))) ∧
      d'.step Sample.plain (Sample.call (.getattr ['/', 'f'])) = .error .blocked := by
  refine ⟨_, _, rfl, rfl, fun h => ?_, rfl⟩
  have hlock := h.kept _ rfl 0 _ rfl
  exact absurd hlock (by decide)

end DropletFs
