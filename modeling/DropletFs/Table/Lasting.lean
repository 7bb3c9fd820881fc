import DropletFs.Table.Entries

/-! Properties of the fields of an entry that every callback leaves in place. -/

namespace DropletFs

open CText LocalFs

/-- What each callback does to the fields of an entry keeps the property. -/
structure Lasting (cx : Ctx) (env : Env) (Q : Entry → Prop) : Prop where
  new : ∀ path type, Q (pentryNew env path type)
  filetype : ∀ {pe} type, Q pe → Q { pe with filetype := type }
  dirent : ∀ {pe} l, Q pe → Q { pe with dirent := l }
  atime : ∀ {pe} n, Q pe → Q { pe with atime := n }
  locked : ∀ {pe} l, pe.ondisk = .remote → Q pe → Q { pe with mdLocked := l }
  stated : ∀ {pe} dict, Q pe → Q { pe with
    usermd := keptUsermd env dict, filetype := .reg, ondisk := .remote, mdLocked := false }
  opened : ∀ {st fs fs' path pe qe m ret}, fs.Wf →
    openMode cx env st fs path (pentryIncRefcount pe) m = .ok (ret, qe, fs') → Q pe →
    Q (if ret = -1 then qe else { qe with ondisk := .loc })
  created : ∀ {pe} x md l, pe.ondisk = .loc → Q pe →
    Q { pe with exclude := x, usermd := md, mdLocked := l }
  attributes : ∀ {pe} md, Q pe → Q { pe with usermd := some md, mdLocked := false }
  released : ∀ {pe} rc fl l, (pe.locked = false → l = false) → Q pe →
    Q { pe with refcount := rc, flag := fl, locked := l }

namespace Lasting

variable {cx : Ctx} {env : Env} {Q : Entry → Prop}

theorem steady (hQ : Lasting cx env Q) : Steady fun _ _ pe => Q pe :=
  ⟨fun _ h => hQ.dirent _ h, fun n h => hQ.atime n h, fun l ho h => hQ.locked l ho h⟩

theorem dfsRename {s t : World} {old new : Path} {ret : Int} (hQ : Lasting cx env Q) (hi : s.Inv)
    (hs : s.All fun _ _ pe => Q pe) (h : dfsRename cx env s old new = .ok (ret, t)) :
    t.All fun _ _ pe => Q pe := by
  have hboth : t.Inv ∧ t.All fun _ _ pe => Q pe := by
    apply dfsRename_keeps (I := fun t => t.Inv ∧ t.All fun _ _ pe => Q pe) ?_ ⟨hi, hs⟩ h
    refine ⟨?_, ?_, ?_, ?_⟩
    · intro s ring cwd trace ⟨hs, hall⟩
      exact ⟨hs.congr rfl rfl rfl rfl, hall.of_eq rfl rfl⟩
    · intro s path ⟨hs, hall⟩
      refine ⟨(dfsMkdir_inv hs).1, dfsMkdir_all hs hall ?_ ?_⟩
      · exact fun _ _ _ _ hpe => hQ.filetype .dir hpe
      · exact fun _ => hQ.new path .dir
    · intro s p q r t ⟨hs, hall⟩ hf
      exact ⟨renameFile_inv hs hf, renameFile_all hQ.steady.removable hs hall
        (fun _ _ _ _ _ hpe => hpe) hf⟩
    · intro s p r t ⟨hs, hall⟩ hr
      exact ⟨(dfsRmdir_inv hs hr).1,
        dfsRmdir_all hQ.steady.removable hall (fun _ _ _ _ _ _ _ _ hpe => hpe) hr⟩
  exact hboth.2

/-- One callback keeps a lasting property of every entry. -/
theorem calls {d d' : Daemon} {op : Op} {ret : Int} (hQ : Lasting cx env Q) (hi : d.world.Inv)
    (hs : d.world.All fun _ _ pe => Q pe) (h : Calls cx env d op ret d') :
    d'.world.All fun _ _ pe => Q pe := by
  have hopen : ∀ {path flags ret fh w},
      dfsOpen cx env d.world path flags = .ok (ret, fh, w) → w.All fun _ _ pe => Q pe := by
    intro path flags ret fh w ho
    refine (dfsOpen_all hi hs (fun _ => hQ.new path .reg) ?_ ho).1
    exact fun _ qe fs hm hpe => hQ.opened hi.wf hm hpe
  have hcreate : ∀ {path mode flags ret fh w},
      dfsCreate cx env d.world path mode flags = .ok (ret, fh, w) →
      w.All fun _ _ pe => Q pe := by
    intro path mode flags ret fh w hc
    refine dfsCreate_all hi hs (fun _ => hQ.new path .reg) ?_ ?_ hc
    · exact fun _ qe fs hm hpe => hQ.opened hi.wf hm hpe
    · intro a r qe fs pe' fs' st hr hm hcr hpe
      obtain ⟨md, l, rfl, _⟩ := createOpened_spec (openMode_spec hi.wf hm).update.wf hcr
      have hq := hQ.opened hi.wf hm hpe
      rw [if_neg hr] at hq
      exact hQ.created _ md l rfl hq
  have hattr : ∀ {path upd change call ret w},
      setAttributes env d.world path upd change call = .ok (ret, w) →
      w.All fun _ _ pe => Q pe := by
    intro path upd change call ret w ha
    exact setAttributes_all hi hs (fun _ _ md _ _ _ _ hpe => hQ.attributes md hpe) ha
  cases h with
  | getattr h =>
    exact dfsGetattr_all hQ.steady hi hs (fun _ => hQ.new _ _)
      (fun _ _ dict _ _ _ hpe => hQ.stated dict hpe)
      (fun _ _ _ _ hpe => hQ.dirent _ hpe) h
  | opened h => exact hopen h
  | openFailed _ h => exact hopen h
  | created h => exact hcreate h
  | createFailed _ h => exact hcreate h
  | read => exact hs
  | written _ _ h =>
    obtain ⟨_, _, ⟨rfl, _⟩ | ⟨_, _, _, _, _, _, rfl⟩⟩ := dfsWrite_cases h
    · exact hs
    · exact hs.of_eq rfl rfl
  | notWritten _ => exact hs
  | released _ h =>
    refine dfsRelease_all hi hs ?_ (fun _ _ _ _ _ hpe => hpe) h
    intro pe pe' fs st _ hr hpe
    have hrel := releaseEntry_spec hi.wf hr
    rw [hrel.fields]
    exact hQ.released _ _ _ hrel.unlocked hpe
  | notReleased => exact hs
  | unlink h => exact dfsUnlink_all hQ.steady.removable hi hs h
  | rename h => exact hQ.dfsRename hi hs h
  | rmdir h => exact dfsRmdir_all hQ.steady.removable hs (fun _ _ _ _ _ _ _ _ hpe => hpe) h
  | mkdir =>
    apply dfsMkdir_all hi hs
    · exact fun _ _ _ _ hpe => hQ.filetype .dir hpe
    · exact fun _ => hQ.new _ .dir
  | mknod =>
    obtain ⟨hp, hh⟩ := dfsMknod_puts env d.world _
    exact hs.put hh hp fun _ _ _ _ _ hpe => hpe
  | symlink h =>
    obtain ⟨hp, hh⟩ := dfsSymlink_puts h
    exact hs.put hh hp fun _ _ _ _ _ hpe => hpe
  | chmod h => exact hattr h
  | chown h => exact hattr h
  | gc => exact gcCallback_all hs

end Lasting

/-- A property that lasts whatever outcomes a callback meets holds of every entry of every
reachable table. -/
theorem Daemon.Reachable.lasting {cx : Ctx} {Q : Entry → Prop} {d : Daemon}
    (hQ : ∀ env, Lasting cx env Q) (h : d.Reachable cx) : d.world.All fun _ _ pe => Q pe := by
  obtain ⟨store, fs, ring, hw, hr⟩ := h
  have hboth : d.world.Inv ∧ d.world.All fun _ _ pe => Q pe := by
    apply Transition.Reachable.invariant
      (I := fun d => d.world.Inv ∧ d.world.All fun _ _ pe => Q pe) hr
    · exact ⟨Daemon.init_inv hw, fun a pe ha => by cases ha⟩
    · intro s e t ⟨hi, hs⟩ ht
      obtain ⟨ret, hc⟩ := Daemon.step_cases ht
      exact ⟨hc.inv hi, (hQ e.env).calls hi hs hc⟩
  exact hboth.2

end DropletFs
