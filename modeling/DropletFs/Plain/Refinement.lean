import DropletFs.Plain.Steps

/-! The daemon, run by run, shows its clients plain files. -/

namespace DropletFs

open CText LocalFs

/-- What a call needs to be an act on plain files: what it needs to lose nothing, and of the names
it makes or moves that they are not cached. -/
def KeepsFiles (cx : Ctx) (d : Daemon) (c : Call) : Prop :=
  let w := d.world
  match c.op with
  | .getattr _ | .rmdir _ => True
  | .mkdir path | .mknod path => w.fdAt path = none
  | .unlink path => (dplUnlink c.env w.store path).1 = .success → d.NoHandleOn path
  | .rename oldpath newpath =>
    (dplNamei c.env w.store oldpath).2.getD (c.env.junk oldpath) ≠ .dir ∧
      w.fdAt oldpath = none ∧ w.fdAt (renameTarget oldpath newpath) = none ∧
      oldpath ≠ renameTarget oldpath newpath ∧ c.env.remote (.unlink oldpath) = .success
  | .open path _ | .create path _ _ =>
    KeepsData cx (d, .empty) c ∧ ∀ o, w.store.lookup path = some o → o.ftype ≠ .dir
  | .gc path => cx.conf.regex path = false
  | _ => KeepsData cx (d, .empty) c

/-- What the client of a call that returned `ret` has done to the files. -/
def Daemon.acted (cx : Ctx) (d : Daemon) (c : Call) (ret : Int) : PlainFiles.Act Path UInt8 :=
  let w := d.world
  match c.op with
  | .open path flags => if opensAnew cx c.env w path flags then .clear path else .idle
  | .create path mode flags =>
    if createOpens cx c.env w path mode && opensAnew cx c.env w path flags
    then .clear path else .idle
  | .read i size offset =>
    match d.handles[i]? with
    | some h =>
      match dfsRead c.env w h.addr size offset with
      | .ok (got, buf) => if h.flags.acc.canRead && 0 ≤ got then .read h.path offset size buf
        else .idle
      | .error _ => .idle
    | none => .idle
  | .write i buf offset =>
    match d.handles[i]? with
    | some h => if 0 ≤ ret then .write h.path offset (buf.take ret.toNat) else .idle
    | none => .idle
  | .unlink path => if ret = 0 then .remove path else .idle
  | .rename oldpath newpath =>
    if ret = 0 then .move oldpath (renameTarget oldpath newpath) else .idle
  | .mknod path => if ret = 0 then .clear path else .idle
  | _ => .idle

/-- The act of a call, idle where it does not return. -/
def Daemon.act (cx : Ctx) (d : Daemon) (c : Call) : PlainFiles.Act Path UInt8 :=
  match d.call cx c with
  | .ok (ret, _) => d.acted cx c ret
  | .error _ => .idle

section Refinement

variable {cx : Ctx} {env : Env} {d d' : Daemon} {op : Op} {ret : Int}

/-- A read that returns bytes returns those of the file shown. -/
theorem dfsRead_file {h : Handle} {size offset : Nat} {got : Int} {buf : Bytes}
    (hD : Durable cx d .empty) (hh : h ∈ d.handles)
    (hr : dfsRead env d.world h.addr size offset = .ok (got, buf)) (h0 : 0 ≤ got) :
    ∃ data, d.world.file cx h.path = some data ∧ buf = PlainFiles.slice data offset size := by
  obtain ⟨pe, fd, f, ha, hp, hfd, hf, -, hfile⟩ := hD.live.shown cx hD.table hh
  refine ⟨_, hfile, ?_⟩
  unfold dfsRead at hr
  obtain ⟨qe, hq, hr⟩ := Except.bind_ok.mp hr
  obtain rfl : pe = qe := Option.some.inj (ha.symm.trans (World.deref_ok.mp hq))
  rw [hfd] at hr
  dsimp only at hr
  rw [hf] at hr
  cases hsys : env.sys .pread with
  | some e =>
    simp only [hsys, Except.ok.injEq, Prod.mk.injEq] at hr
    have hneg := e.neg_num_lt
    omega
  | none =>
    simp only [hsys] at hr
    split_ifs at hr
    · simp only [Except.ok.injEq, Prod.mk.injEq] at hr
      exact hr.2.symm
    · simp only [Except.ok.injEq, Prod.mk.injEq] at hr
      have hneg := Errno.ebadf.neg_num_lt
      omega

/-- A step that leaves every file as it was. -/
theorem step_idle {F F' : PlainFiles.Files Path UInt8} (h : ∀ q, F' q = F q) :
    PlainFiles.Step 0 F .idle F' := by
  rw [funext h]
  exact .idle

/-- A step that empties one file, if the condition holds. -/
theorem step_clear {F F' : PlainFiles.Files Path UInt8} {path : Path} {P : Prop} [Decidable P]
    (h : ∀ q, F' q = if q = path ∧ P then some [] else F q) :
    PlainFiles.Step 0 F (if P then .clear path else .idle) F' := by
  by_cases hp : P
  · have he : F' = Function.update F path (some []) := by
      funext q
      rw [h q, Function.update_apply]
      simp only [hp, and_true]
    rw [if_pos hp, he]
    exact .clear
  · rw [if_neg hp]
    exact step_idle fun q => (h q).trans (if_neg fun hq => hp hq.2)

/-- A step that does its act when it returns 0, and nothing otherwise. -/
theorem step_of_zero {F F' G : PlainFiles.Files Path UInt8} {act : PlainFiles.Act Path UInt8}
    (hact : PlainFiles.Step 0 F act G) (h : if ret = 0 then F' = G else F' = F) :
    PlainFiles.Step 0 F (if ret = 0 then act else .idle) F' := by
  split_ifs at h ⊢
  · rw [h]
    exact hact
  · rw [h]
    exact .idle

/-- One call keeps what the content shown rests on. -/
theorem Calls.sound (hD : d.Sound cx) (hg : KeepsFiles cx d ⟨op, env⟩)
    (h : Calls cx env d op ret d') : d'.Sound cx := by
  have hi := hD.durable.table
  cases h with
  | getattr h => exact hD.getattr h
  | opened h =>
    exact ⟨(Calls.durable hD.durable hg.1 (.opened h)).weaken, dfsOpen_noDirectory hD hg.2 h⟩
  | openFailed hr h =>
    exact ⟨(Calls.durable hD.durable hg.1 (.openFailed hr h)).weaken,
      dfsOpen_noDirectory hD hg.2 h⟩
  | created h =>
    exact ⟨(Calls.durable hD.durable hg.1 (.created h)).weaken, dfsCreate_noDirectory hD hg.2 h⟩
  | createFailed hr h =>
    exact ⟨(Calls.durable hD.durable hg.1 (.createFailed hr h)).weaken,
      dfsCreate_noDirectory hD hg.2 h⟩
  | read => exact hD
  | written hi hc hw =>
    rename_i i buf offset h w
    have hk : KeepsData cx (d, .empty) ⟨.write i buf offset, env⟩ := hg
    exact ⟨(Calls.durable hD.durable hk (.written hi hc hw)).weaken, dfsWrite_noDirectory hD hw⟩
  | notWritten _ => exact hD
  | released hi hr =>
    rename_i i h w
    have hk : KeepsData cx (d, .empty) ⟨.release i, env⟩ := hg
    exact ⟨(Calls.durable hD.durable hk (.released hi hr)).weaken, dfsRelease_noDirectory hD hr⟩
  | notReleased => exact hD
  | unlink h => exact hD.unlink hg h
  | rename h =>
    obtain ⟨htype, hold, hnew, -, -⟩ := hg
    rcases dfsRename_cases h with ⟨-, -, rfl⟩ | ⟨-, r, -, hfile⟩ | ⟨hdir, -⟩
    · exact hD
    · exact hD.renameFile hold hnew hfile
    · exact (htype hdir).elim
  | rmdir h => exact hD.rmdir h
  | mkdir => exact hD.mkdir hg
  | mknod => exact hD.mknod hg
  | gc => exact ⟨hD.durable.gc, gcCallback_all hD.plain⟩
  | _ => exact hg.elim

/-- One call is one act on plain files. -/
theorem Calls.acts (hD : d.Sound cx) (hg : KeepsFiles cx d ⟨op, env⟩)
    (h : Calls cx env d op ret d') :
    PlainFiles.Step 0 (d.world.file cx) (d.acted cx ⟨op, env⟩ ret) (d'.world.file cx) := by
  have hi := hD.durable.table
  -- an open, whether its handle is given out or not
  have hopen : ∀ {path flags r fh w}, KeepsFiles cx d ⟨.open path flags, env⟩ →
      dfsOpen cx env d.world path flags = .ok (r, fh, w) →
      PlainFiles.Step 0 (d.world.file cx) (d.acted cx ⟨.open path flags, env⟩ r)
        (w.file cx) := by
    intro path flags r fh w hk ho
    apply step_clear
    intro q
    simp only [dfsOpen_file q hD.durable hk.1.1 hk.2 ho, opensAnew_iff hi ho]
  have hcreate : ∀ {path mode flags r fh w}, KeepsFiles cx d ⟨.create path mode flags, env⟩ →
      dfsCreate cx env d.world path mode flags = .ok (r, fh, w) →
      PlainFiles.Step 0 (d.world.file cx) (d.acted cx ⟨.create path mode flags, env⟩ r)
        (w.file cx) := by
    intro path mode flags r fh w hk ho
    apply step_clear
    intro q
    simp only [dfsCreate_file q hD.durable hk.1.1 hk.2 ho, Bool.and_eq_true]
  cases h with
  | getattr h => exact step_idle fun q => dfsGetattr_file q hi h
  | opened h => exact hopen hg h
  | openFailed _ h => exact hopen hg h
  | created h => exact hcreate hg h
  | createFailed _ h => exact hcreate hg h
  | read =>
    rename_i i size offset
    unfold Daemon.acted
    dsimp only
    cases hh : d.handles[i]? with
    | none => exact .idle
    | some h =>
      dsimp only
      cases hr : dfsRead env d.world h.addr size offset with
      | error _ => exact .idle
      | ok r =>
        obtain ⟨got, buf⟩ := r
        dsimp only
        split_ifs with hgot
        · rw [Bool.and_eq_true, decide_eq_true_eq] at hgot
          obtain ⟨data, hdata, rfl⟩ :=
            dfsRead_file hD.durable (List.mem_of_getElem? hh) hr hgot.2
          exact .read hdata
        · exact .idle
  | written hh hc hw =>
    have hfile := dfsWrite_file hD.durable (List.mem_of_getElem? hh) hw
    unfold Daemon.acted
    dsimp only
    rw [hh]
    dsimp only
    split_ifs at hfile ⊢ with h0
    · obtain ⟨data, hdata, he⟩ := hfile
      change PlainFiles.Step 0 _ _ (World.file cx _)
      rw [he]
      exact .write hdata
    · rw [hfile]
      exact .idle
  | notWritten hr =>
    rename_i i buf offset
    unfold Daemon.acted
    dsimp only
    cases d.handles[i]? with
    | none => exact .idle
    | some h =>
      dsimp only
      rw [if_neg (by omega)]
      exact .idle
  | released hh hr =>
    exact step_idle fun q => dfsRelease_file q hD.durable (List.mem_of_getElem? hh)
      (fun pe hpe hx => hg _ _ hh hpe hx) hr
  | notReleased => exact .idle
  | unlink h => exact step_of_zero .remove (dfsUnlink_file hi h)
  | rename h =>
    obtain ⟨htype, hold, hnew, hne, hrm⟩ := hg
    rcases dfsRename_cases h with ⟨-, rfl, rfl⟩ | ⟨-, r, rfl, hfile⟩ | ⟨hdir, -⟩
    · exact .idle
    · apply step_of_zero .move
      rcases renameFile_file hi hold hnew hne hrm hfile with ⟨rfl, he⟩ | ⟨rfl, he⟩
      · exact he
      · exact he
    · exact (htype hdir).elim
  | rmdir h => exact step_idle fun q => dfsRmdir_file q hi h
  | mkdir => exact step_idle fun q => dfsMkdir_file q hi
  | mknod => exact step_of_zero .clear (dfsMknod_file hg)
  | gc => exact step_idle fun q => gcCallback_file q hD.durable hD.plain (.inl hg)
  | _ => exact hg.elim

theorem Daemon.sound_init {store : Store} {fs : LocalFs} {ring : Ring} (hw : fs.Wf) :
    (Daemon.init store fs ring).Sound cx :=
  ⟨Durable.init hw, fun a pe ha => by cases ha⟩

theorem Daemon.Sound.follows {calls : List Call} (hD : d.Sound cx)
    (hm : Transition.Meets (Daemon.step cx) (KeepsFiles cx) d calls)
    (hr : Transition.exec (Daemon.step cx) d calls = .ok d') :
    Transition.Follows (PlainFiles.Step 0) (d.world.file cx)
      (Transition.labels (Daemon.step cx) (Daemon.act cx) d calls) (d'.world.file cx) := by
  apply Transition.exec_simulates (I := Daemon.Sound cx) (f := fun d => d.world.file cx) _ _
    hD hm hr
  · rintro d ⟨op, env⟩ t hD hg ht
    obtain ⟨⟨ret, d'⟩, hc, rfl⟩ := Except.map_eq_ok.mp ht
    exact (Daemon.call_cases hc).sound hD hg
  · rintro d ⟨op, env⟩ t hD hg ht
    obtain ⟨⟨ret, d'⟩, hc, rfl⟩ := Except.map_eq_ok.mp ht
    have hact : d.act cx ⟨op, env⟩ = d.acted cx ⟨op, env⟩ ret := by
      rw [Daemon.act, hc]
    rw [hact]
    exact (Daemon.call_cases hc).acts hD hg

end Refinement

/-- In every run whose calls keep the files, what the clients are shown and have done to it is a
run of plain files, from the content of the objects at the mount. -/
theorem runs_plain_files (cx : Ctx) (store : Store) (fs : LocalFs) (ring : Ring)
    (calls : List Call) (d : Daemon) (hw : fs.Wf)
    (hm : Transition.Meets (Daemon.step cx) (KeepsFiles cx) (.init store fs ring) calls)
    (hr : Transition.exec (Daemon.step cx) (.init store fs ring) calls = .ok d) :
    Transition.Follows (PlainFiles.Step 0) (fun path => (store.lookup path).bind (fileOf cx))
      (Transition.labels (Daemon.step cx) (Daemon.act cx) (.init store fs ring) calls)
      (d.world.file cx) :=
  (Daemon.sound_init hw).follows hm hr

/-- A file is written, collected, fetched again and read; then it is moved and removed. -/
def writeCollectRead : List Call :=
  [Sample.call (.create ['/', 'f'] sIfreg ⟨.rdwr, false, true, false⟩),
    Sample.call (.write 0 [1, 2] 0), Sample.call (.release 0), Sample.late (.gc ['/', 'f']),
    Sample.call (.open ['/', 'f'] Sample.readOnly), Sample.call (.read 0 2 0),
    Sample.call (.release 0), Sample.late (.gc ['/', 'f']), Sample.call (.mknod ['/', 'g']),
    Sample.call (.rename ['/', 'f'] ['/', 'h']), Sample.call (.unlink ['/', 'h'])]

theorem writeCollectRead_keeps :
    Transition.Meets (Daemon.step Sample.plain) (KeepsFiles Sample.plain)
      (.init (Sample.store []) Sample.fs Sample.ring) writeCollectRead := by
  refine ⟨⟨⟨?_, fun h => (h rfl).elim⟩, ?_⟩, ?_, ?_, rfl, ⟨⟨?_, ?_⟩, ?_⟩, trivial, ?_, rfl, rfl,
    ⟨by decide, rfl, rfl, by decide, rfl⟩, ?_, trivial⟩
  -- the create, the write and its release
  · intro a pe fd i ha
    cases ha
  · intro o ho
    cases ho
  · intro h pe hh hpe _ _
    cases hh
    cases hpe
    rfl
  · intro h pe hh hpe _
    cases hh
    cases hpe
    exact ⟨fun _ => rfl, fun _ hz => (by cases hz), fun _ _ => rfl, fun _ _ => .inl ⟨⟨rfl, rfl, rfl,
      fun _ => rfl, fun _ => rfl, rfl⟩, by decide⟩⟩
  -- the open and its release
  · refine .inr ⟨?_, rfl, rfl, ?_⟩
    · intro a pe fd i ha
      cases a with
      | zero => cases ha
      | succ n => cases ha
    · intro o ho
      cases ho
      rfl
  · intro h
    cases h
  · intro o ho
    cases ho
    exact nofun
  · intro h pe hh _ _
    cases hh
    exact ⟨fun _ => rfl, fun hro => (hro rfl).elim, fun hro => (hro rfl).elim,
      fun hro => (hro rfl).elim⟩
  · intro _ h hh
    cases hh

theorem runs_plain_files_sample :
    ∃ d, Transition.exec (Daemon.step Sample.plain) (Sample.daemon []) writeCollectRead = .ok d ∧
      Transition.Follows (PlainFiles.Step 0) (fun _ => none)
        [.clear ['/', 'f'], .write ['/', 'f'] 0 [1, 2], .idle, .idle, .idle,
          .read ['/', 'f'] 0 2 [1, 2], .idle, .idle, .clear ['/', 'g'],
          .move ['/', 'f'] ['/', 'h'], .remove ['/', 'h']] (d.world.file Sample.plain) :=
  ⟨_, rfl, runs_plain_files Sample.plain _ _ _ _ _ Sample.fs_wf writeCollectRead_keeps rfl⟩

/-- What a client was told it had written is what is read there later, whatever happened to other
files in between, and wherever the file was kept. -/
theorem written_bytes_read (cx : Ctx) (store : Store) (fs : LocalFs) (ring : Ring)
    (calls : List Call) (d : Daemon) (hw : fs.Wf)
    (hm : Transition.Meets (Daemon.step cx) (KeepsFiles cx) (.init store fs ring) calls)
    (hr : Transition.exec (Daemon.step cx) (.init store fs ring) calls = .ok d)
    (pre mid post : List (PlainFiles.Act Path UInt8)) (path : Path) (offset : Nat)
    (buf got : Bytes)
    (hacts : Transition.labels (Daemon.step cx) (Daemon.act cx) (.init store fs ring) calls =
      pre ++ .write path offset buf :: (mid ++ .read path offset buf.length got :: post))
    (hmid : ∀ act ∈ mid, ¬act.Touches path) : got = buf := by
  have hrun := (Daemon.sound_init hw).follows hm hr
  rw [hacts] at hrun
  obtain ⟨F, -, hrun⟩ := Transition.follows_append.mp hrun
  exact PlainFiles.read_after_write hrun hmid

theorem written_bytes_read_sample :
    ∃ d got, Transition.exec (Daemon.step Sample.plain) (Sample.daemon []) writeCollectRead =
        .ok d ∧
      (Transition.labels (Daemon.step Sample.plain) (Daemon.act Sample.plain) (Sample.daemon [])
        writeCollectRead)[5]? = some (.read ['/', 'f'] 0 2 got) ∧ got = [1, 2] :=
  ⟨_, _, rfl, rfl, written_bytes_read Sample.plain _ _ _ writeCollectRead _ Sample.fs_wf
    writeCollectRead_keeps rfl [.clear ['/', 'f']] [.idle, .idle, .idle] _ ['/', 'f'] 0 [1, 2] _
    rfl (by simp [PlainFiles.Act.Touches])⟩

end DropletFs
