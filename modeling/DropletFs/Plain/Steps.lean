import DropletFs.Plain.Handles
import DropletFs.Rename.Handles

/-! What the content shown rests on, and that every callback keeps it. -/

namespace DropletFs

open CText LocalFs

/-- The object of an entry stands for the content of its cache file. -/
def InLine (cx : Ctx) (fs : LocalFs) (o : Option Obj) (pe : Entry) : Prop :=
  ∃ ob data, o = some ob ∧ decode cx ob = some data ∧ pe.fd.bind fs.content = some data

/-- What holds of one entry, with the cache files and the handles of `d`. -/
structure Settled (cx : Ctx) (d : Daemon) (a : Addr) (o : Option Obj) (pe : Entry) : Prop where
  excluded : pe.exclude = true → cx.conf.regex pe.path = true
  clean : cx.conf.regex pe.path = false → pe.flag = .clean → InLine cx d.world.fs o pe
  settled : cx.conf.regex pe.path = false → pe.ondisk = .loc →
    InLine cx d.world.fs o pe ∨ d.handlesOn a < pe.refcount ∨
      ∃ h ∈ d.handles, h.addr = a ∧ h.flags.acc ≠ .rdonly
  file : NoDirectory a o pe

/-- What the content shown rests on: the cache and the store in line, and no directory cached. -/
structure Daemon.Sound (cx : Ctx) (d : Daemon) : Prop where
  durable : Durable cx d .empty
  plain : d.world.All NoDirectory

/-- Files have been closed at most. -/
def LocalFs.Closes (fs fs' : LocalFs) : Prop :=
  fs'.inodes = fs.inodes ∧ ∀ fd f, fs'.fds.lookup fd = some f → fs.fds.lookup fd = some f

section Files

variable {cx : Ctx} {env : Env} {s t : World} {path : Path} {ret : Int} {fs fs' gs : LocalFs}

theorem LocalFs.Closes.refl (fs : LocalFs) : fs.Closes fs := ⟨rfl, fun _ _ hf => hf⟩

theorem LocalFs.Closes.trans (h : fs.Closes fs') (h' : fs'.Closes gs) : fs.Closes gs :=
  ⟨h'.1.trans h.1, fun fd f hf => h.2 fd f (h'.2 fd f hf)⟩

theorem LocalFs.closes_closeOpt (fs : LocalFs) (fd : Option Nat) : fs.Closes (fs.closeOpt fd) := by
  cases fd with
  | none => exact .refl fs
  | some gd =>
    refine ⟨rfl, fun fd f hf => ?_⟩
    change (fs.fds.erase gd).lookup fd = some f at hf
    by_cases he : fd = gd
    · rw [he, AList.lookup_erase] at hf
      cases hf
    · rwa [AList.lookup_erase_ne he] at hf

/-- A file that is still open is the file it was. -/
theorem LocalFs.Closes.same {fd : Nat} {f : OpenFile} (h : fs.Closes fs')
    (hf : fs'.fds.lookup fd = some f) :
    fs'.inodeOf fd = fs.inodeOf fd ∧ fs'.content fd = fs.content fd := by
  have hold := h.2 fd f hf
  simp [inodeOf, LocalFs.content, hf, hold, h.1]

theorem dfsUnlink_closes (h : dfsUnlink cx env s (.ext path) = .ok (ret, t)) :
    s.fs.Closes t.fs := by
  rcases dfsUnlink_cases h with ⟨-, -, rfl⟩ | ⟨store, u, -, -, hu, hcase⟩
  · exact .refl _
  have hfirst : s.fs.Closes u.fs := by
    rw [hu]
    exact ⟨by simp, fun fd f hf => by simpa using hf⟩
  rcases hcase with ⟨-, -, rfl⟩ | ⟨-, he⟩
  · exact hfirst
  · obtain ⟨-, freed, v, -, hv, ht⟩ := unlinkEntry_cases he
    have hlast : s.fs.Closes v.fs := by
      rw [hv]
      change s.fs.Closes (u.hashRemove _).fs
      rw [World.hashRemove_fs]
      exact hfirst.trans (closes_closeOpt _ _)
    rcases ht with ⟨-, rfl⟩ | ⟨parent, -, rfl⟩
    · exact hlast
    · rw [onEntry_fs]
      exact hlast

theorem renameFile_closes {a b : Path} (h : renameFile cx env s (.ext a) (.ext b) = .ok (ret, t)) :
    s.fs.Closes t.fs := by
  rcases renameFile_cases h with ⟨-, -, rfl⟩ | ⟨store, u, -, hu, ht⟩
  · exact .refl _
  have hfs : u.fs = s.fs := by
    rcases hu with rfl | ⟨dirname, -, rfl⟩
    · rfl
    · exact onEntry_fs _ _ _
  rw [← hfs]
  exact dfsUnlink_closes ht

end Files

section Sound

variable {cx : Ctx} {env : Env} {d d' : Daemon} {w : World} {path : Path} {ret : Int}

theorem Durable.weaken {E : Ledger} (hD : Durable cx d E) : Durable cx d .empty where
  table := hD.table
  live := hD.live
  apart := hD.apart
  excluded := hD.excluded
  entry a pe ha hx :=
    { clean := (hD.entry a pe ha hx).clean
      settled := (hD.entry a pe ha hx).settled
      cached := fun _ _ i b hb => by cases hb
      stored := fun _ i b hb => by cases hb }
  absent _ _ _ i b hb := by cases hb

theorem Settled.congr {a : Addr} {o : Option Obj} {pe pe' : Entry} (h : Settled cx d a o pe)
    (hp : pe'.path = pe.path) (hfd : pe'.fd = pe.fd) (hx : pe'.exclude = pe.exclude)
    (hc : pe'.flag = pe.flag) (hr : pe'.refcount = pe.refcount)
    (hl : pe'.ondisk = .loc → pe.ondisk = .loc) : Settled cx d a o pe' := by
  have hline : InLine cx d.world.fs o pe → InLine cx d.world.fs o pe' := by
    rintro ⟨ob, data, ho, hd, hcont⟩
    exact ⟨ob, data, ho, hd, hfd ▸ hcont⟩
  refine ⟨?_, ?_, ?_, ?_⟩
  · rw [hp, hx]
    exact h.excluded
  · rw [hp, hc]
    exact fun hreg hcl => hline (h.clean hreg hcl)
  · rw [hp, hr]
    exact fun hreg hloc => (h.settled hreg (hl hloc)).imp_left hline
  · unfold NoDirectory
    rw [hfd]
    exact h.file

theorem Settled.steady (cx : Ctx) (d : Daemon) : Steady (Settled cx d) where
  removed _ h := h.congr rfl rfl rfl rfl rfl id
  atime _ h := h.congr rfl rfl rfl rfl rfl id
  locked _ _ h := h.congr rfl rfl rfl rfl rfl id

theorem settled_new (a : Addr) (o : Option Obj) (p : Path) (type : TPathType) :
    Settled cx d a o (pentryNew env p type) := by
  refine ⟨?_, ?_, ?_, ?_⟩ <;> simp [pentryNew, NoDirectory]

/-- Of an entry without a cache file, the object does not count. -/
theorem Settled.uncached {a : Addr} {o o' : Option Obj} {pe : Entry} (h : Settled cx d a o pe)
    (hfd : pe.fd = none) : Settled cx d a o' pe := by
  have hno : ¬InLine cx d.world.fs o pe := by
    rintro ⟨ob, data, -, -, hcont⟩
    rw [hfd] at hcont
    cases hcont
  refine ⟨h.excluded, ?_, ?_, ?_⟩
  · exact fun hreg hcl => (hno (h.clean hreg hcl)).elim
  · exact fun hreg hloc => .inr ((h.settled hreg hloc).resolve_left hno)
  · intro hsome
    rw [hfd] at hsome
    cases hsome

namespace Daemon.Sound

theorem settled (hD : d.Sound cx) : d.world.All (Settled cx d) := by
  intro a pe ha
  refine ⟨hD.durable.excluded a pe ha, ?_, ?_, hD.plain a pe ha⟩
  · exact fun hreg => (hD.durable.entry a pe ha hreg).clean
  · exact fun hreg => (hD.durable.entry a pe ha hreg).settled

/-- The entry of the path, if it has one, holds no cache file. -/
theorem settledAt (hD : d.Sound cx) (hn : d.world.fdAt path = none) :
    d.world.All fun a o pe => Settled cx d a o pe ∧ (pe.path = path → pe.fd = none) := by
  intro a pe ha
  refine ⟨hD.settled a pe ha, ?_⟩
  rintro rfl
  rw [← hD.durable.table.fdAt_of_heap ha]
  exact hn

/-- Entries that hold the files they held, in line as they were. -/
theorem carried (hD : d.Sound cx) (hi : w.Inv) (hl : Daemon.Live ⟨w, d.handles⟩)
    (hsame : w.All (SameFd d.world)) (hcell : w.All (Settled cx d))
    (hfs : d.world.fs.Closes w.fs) : Daemon.Sound cx ⟨w, d.handles⟩ := by
  have hold : ∀ a pe fd, w.heap a = some pe → pe.fd = some fd →
      ∃ qe, d.world.heap a = some qe ∧ qe.fd = some fd := by
    intro a pe fd ha hfd
    have hs : pe.fd = (d.world.heap a).bind (·.fd) := hsame a pe ha
    exact Option.bind_eq_some_iff.mp (hs.symm.trans hfd)
  have hfile : ∀ a pe fd, w.heap a = some pe → pe.fd = some fd →
      w.fs.inodeOf fd = d.world.fs.inodeOf fd ∧ w.fs.content fd = d.world.fs.content fd := by
    intro a pe fd ha hfd
    obtain ⟨f, hf, -⟩ := hi.opened a pe fd ha hfd
    exact hfs.same hf
  have hsync : ∀ a pe, w.heap a = some pe →
      InLine cx d.world.fs (w.store.lookup pe.path) pe → w.Synced cx pe := by
    rintro a pe ha ⟨ob, data, ho, hd, hcont⟩
    obtain ⟨fd, hfd, hc⟩ := Option.bind_eq_some_iff.mp hcont
    refine ⟨ob, data, ho, hd, ?_⟩
    rw [hfd, Option.bind_some, (hfile a pe fd ha hfd).2]
    exact hc
  refine ⟨⟨hi, hl, ?_, ?_, ?_, ?_⟩, fun a pe ha => (hcell a pe ha).file⟩
  · intro a b pe qe fd gd i ha hb hfd hgd hi1 hi2
    obtain ⟨pe', ha', hfd'⟩ := hold a pe fd ha hfd
    obtain ⟨qe', hb', hgd'⟩ := hold b qe gd hb hgd
    apply hD.durable.apart a b pe' qe' fd gd i ha' hb' hfd' hgd'
    · exact (hfile a pe fd ha hfd).1.symm.trans hi1
    · exact (hfile b qe gd hb hgd).1.symm.trans hi2
  · exact fun a pe ha => (hcell a pe ha).excluded
  · intro a pe ha hreg
    have hc := hcell a pe ha
    refine ⟨fun hcl => hsync a pe ha (hc.clean hreg hcl), ?_, ?_, ?_⟩
    · exact fun hloc => (hc.settled hreg hloc).imp_left (hsync a pe ha)
    · intro _ _ i b hb
      cases hb
    · intro _ i b hb
      cases hb
  · intro _ _ _ i b hb
    cases hb

theorem getattr {st : Stat} (hD : d.Sound cx)
    (h : dfsGetattr env d.world path = .ok (ret, st, w)) : Daemon.Sound cx ⟨w, d.handles⟩ := by
  have hi := hD.durable.table
  obtain ⟨hiw, hk⟩ := dfsGetattr_inv hi h
  apply hD.carried hiw (hD.durable.live.of_keeps hk) (dfsGetattr_sameFd hi h)
  · apply dfsGetattr_all (Settled.steady cx d) hi hD.settled _ _ _ h
    · exact fun _ => settled_new _ _ _ _
    · intro a o dict _ _ _ hp
      exact hp.congr rfl rfl rfl rfl rfl fun he => by cases he
    · exact fun a o pe _ hp => hp.congr rfl rfl rfl rfl rfl id
  · rw [dfsGetattr_fs hi h]
    exact .refl _

theorem mkdir (hD : d.Sound cx) (hn : d.world.fdAt path = none) :
    Daemon.Sound cx ⟨(dfsMkdir env d.world path).2, d.handles⟩ := by
  have hi := hD.durable.table
  have hpair : (dfsMkdir env d.world path).2.Inv ∧
    d.world.Keeps (dfsMkdir env d.world path).2 := dfsMkdir_inv hi
  apply hD.carried hpair.1 (hD.durable.live.of_keeps hpair.2) (dfsMkdir_sameFd hi)
  · have hall : (dfsMkdir env d.world path).2.All fun a o pe =>
        Settled cx d a o pe ∧ (pe.path = path → pe.fd = none) := by
      apply dfsMkdir_all hi (hD.settledAt hn)
      · exact fun a pe hp _ hpe =>
          ⟨(hpe.1.uncached (hpe.2 hp)).congr rfl rfl rfl rfl rfl id, hpe.2⟩
      · exact fun _ => ⟨(settled_new _ _ _ _).congr rfl rfl rfl rfl rfl id, fun _ => rfl⟩
    exact fun a pe ha => (hall a pe ha).1
  · rw [dfsMkdir_fs]
    exact .refl _

theorem mknod (hD : d.Sound cx) (hn : d.world.fdAt path = none) :
    Daemon.Sound cx ⟨(dfsMknod env d.world path).2, d.handles⟩ := by
  have hi := hD.durable.table
  have hpair : (dfsMknod env d.world path).2.Inv ∧
    d.world.Keeps (dfsMknod env d.world path).2 := dfsMknod_inv hi
  obtain ⟨hiw, hk⟩ := hpair
  obtain ⟨hputs, hheap⟩ := dfsMknod_puts env d.world path
  apply hD.carried hiw (hD.durable.live.of_keeps hk)
  · exact (SameFd.start d.world).put hheap hputs fun _ _ _ _ _ hp => hp
  · have hall := (hD.settledAt hn).put hheap hputs
      fun a pe o hp _ hpe => ⟨hpe.1.uncached (hpe.2 hp), hpe.2⟩
    exact fun a pe ha => (hall a pe ha).1
  · have hfs : (dfsMknod env d.world path).2.fs = d.world.fs := by
      unfold dfsMknod
      split <;> rfl
    rw [hfs]
    exact .refl _

theorem rmdir (hD : d.Sound cx) (h : dfsRmdir cx env d.world (.ext path) = .ok (ret, w)) :
    Daemon.Sound cx ⟨w, d.handles⟩ := by
  have hi := hD.durable.table
  obtain ⟨hiw, hk⟩ := dfsRmdir_inv hi h
  apply hD.carried hiw (hD.durable.live.of_keeps hk) (dfsRmdir_sameFd h)
  · apply dfsRmdir_all (Settled.steady cx d).removable hD.settled _ h
    intro a pe o _ _ hs _ ho hpe
    -- a directory is not cached
    have htype : o.ftype = .dir := by
      rcases dplRmdir_cases env d.world.store path with ⟨hno, -⟩ | ⟨-, hroot, hdir, -, -⟩
      · exact (hno hs).elim
      · rw [Store.ftype?_of_ne hroot] at hdir
        obtain ⟨o', ho', htype⟩ := Option.map_eq_some_iff.mp hdir
        rw [← htype, Option.some.inj (ho.symm.trans ho')]
    apply hpe.uncached
    cases hfd : pe.fd with
    | none => rfl
    | some fd => exact (hpe.file (hfd ▸ rfl) o rfl htype).elim
  · rw [dfsRmdir_fs h]
    exact .refl _

theorem unlink (hD : d.Sound cx)
    (hno : (dplUnlink env d.world.store path).1 = .success → d.NoHandleOn path)
    (h : dfsUnlink cx env d.world (.ext path) = .ok (ret, w)) :
    Daemon.Sound cx ⟨w, d.handles⟩ := by
  have hi := hD.durable.table
  have hl := hD.durable.live
  apply hD.carried (dfsUnlink_inv hi h)
  · exact dfsUnlink_live hl h fun hs => (hno hs).hash hi hl
  · exact dfsUnlink_all (SameFd.steady _).removable hi (SameFd.start _) h
  · exact dfsUnlink_all (Settled.steady cx d).removable hi hD.settled h
  · exact dfsUnlink_closes h

theorem noHandleOn (hD : d.Sound cx) (hn : d.world.fdAt path = none) : d.NoHandleOn path := by
  rintro h hh rfl
  obtain ⟨pe, ha, hp, hfd⟩ := hD.durable.live.entry h hh
  rw [← hp, hD.durable.table.fdAt_of_heap ha] at hn
  rw [hn] at hfd
  cases hfd

theorem renameFile {a b : Path} (hD : d.Sound cx) (ha : d.world.fdAt a = none)
    (hb : d.world.fdAt b = none)
    (h : DropletFs.renameFile cx env d.world (.ext a) (.ext b) = .ok (ret, w)) :
    Daemon.Sound cx ⟨w, d.handles⟩ := by
  have hi := hD.durable.table
  have hl := hD.durable.live
  apply hD.carried (renameFile_inv hi h)
  · exact renameFile_live hi hl (fun _ _ => hD.noHandleOn ha) h
  · exact renameFile_all (SameFd.steady _).removable hi (SameFd.start _)
      (fun _ _ _ _ _ hp => hp) h
  · have hP : Removable fun c o pe =>
        Settled cx d c o pe ∧ (pe.path = b → pe.fd = none) :=
      fun _ _ _ name hpe => ⟨(Settled.steady cx d).removed name hpe.1, hpe.2⟩
    have hall : w.All fun c o pe => Settled cx d c o pe ∧ (pe.path = b → pe.fd = none) := by
      refine renameFile_all hP hi (hD.settledAt hb) ?_ h
      exact fun _ _ _ hp _ hpe => ⟨hpe.1.uncached (hpe.2 hp), hpe.2⟩
    exact fun c pe hc => (hall c pe hc).1
  · exact renameFile_closes h

end Daemon.Sound

section NoDirectory

theorem noDirectory_new (a : Addr) (o : Option Obj) (p : Path) (type : TPathType) :
    NoDirectory a o (pentryNew env p type) := by
  intro hfd
  cases hfd

theorem dfsOpen_noDirectory {flags : OpenFlags} {fh : Option Addr} (hD : d.Sound cx)
    (hdir : ∀ o, d.world.store.lookup path = some o → o.ftype ≠ .dir)
    (h : dfsOpen cx env d.world path flags = .ok (ret, fh, w)) : w.All NoDirectory := by
  refine (dfsOpen_all hD.durable.table hD.plain ?_ ?_ h).1
  · exact fun _ => noDirectory_new _ _ _ _
  · exact fun _ _ _ _ _ _ o ho => hdir o ho

theorem dfsCreate_noDirectory {mode : Nat} {flags : OpenFlags} {fh : Option Addr}
    (hD : d.Sound cx) (hdir : ∀ o, d.world.store.lookup path = some o → o.ftype ≠ .dir)
    (h : dfsCreate cx env d.world path mode flags = .ok (ret, fh, w)) : w.All NoDirectory := by
  refine dfsCreate_all hD.durable.table hD.plain ?_ ?_ ?_ h
  · exact fun _ => noDirectory_new _ _ _ _
  · exact fun _ _ _ _ _ _ o ho => hdir o ho
  · intro _ _ _ _ _ _ st _ _ hc _ _ o ho
    rcases (createOpened_effect hc).2.1 with rfl | ⟨-, rfl⟩
    · exact hdir o ho
    · rw [AList.lookup_insert, Option.some.injEq] at ho
      rw [← ho]
      exact nofun

theorem dfsRelease_noDirectory {flags : OpenFlags} {fh : Addr} (hD : d.Sound cx)
    (h : dfsRelease cx env d.world path flags fh = .ok (ret, w)) : w.All NoDirectory := by
  have hi := hD.durable.table
  refine dfsRelease_all hi hD.plain ?_ ?_ h
  · intro pe pe' fs st _ hr hp
    unfold NoDirectory
    rw [(releaseEntry_spec hi.wf hr).fd]
    exact hp
  · intro _ _ o _ hreg _ _ ob ho
    rw [← Option.some.inj ho, hreg]
    exact nofun

theorem dfsWrite_noDirectory {fh : Addr} {buf : Bytes} {offset : Nat} (hD : d.Sound cx)
    (h : dfsWrite env d.world fh buf offset = .ok (ret, w)) : w.All NoDirectory := by
  obtain ⟨pe, -, ⟨rfl, -⟩ | ⟨fd, f, -, -, -, -, rfl⟩⟩ := dfsWrite_cases h
  · exact hD.plain
  · exact hD.plain.of_eq rfl rfl

end NoDirectory

end Sound

end DropletFs
