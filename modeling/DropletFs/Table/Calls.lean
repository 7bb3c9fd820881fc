import DropletFs.Table.Removal

/-! What one callback can do to the daemon, and the invariant of the table in every
reachable state. -/

namespace DropletFs

open CText

/-- One callback that returned `ret`: each constructor is one way for it to return. -/
inductive Calls (cx : Ctx) (env : Env) (d : Daemon) : Op → Int → Daemon → Prop
  | getattr {path ret st w} (h : dfsGetattr env d.world path = .ok (ret, st, w)) :
      Calls cx env d (.getattr path) ret ⟨w, d.handles⟩
  | opened {path flags a w} (h : dfsOpen cx env d.world path flags = .ok (0, some a, w)) :
      Calls cx env d (.open path flags) 0 ⟨w, d.handles ++ [⟨a, path, flags⟩]⟩
  | openFailed {path flags ret fh w} (hr : ret ≠ 0 ∨ fh = none)
      (h : dfsOpen cx env d.world path flags = .ok (ret, fh, w)) :
      Calls cx env d (.open path flags) ret ⟨w, d.handles⟩
  | created {path mode flags a w}
      (h : dfsCreate cx env d.world path mode flags = .ok (0, some a, w)) :
      Calls cx env d (.create path mode flags) 0 ⟨w, d.handles ++ [⟨a, path, flags⟩]⟩
  | createFailed {path mode flags ret fh w} (hr : ret ≠ 0 ∨ fh = none)
      (h : dfsCreate cx env d.world path mode flags = .ok (ret, fh, w)) :
      Calls cx env d (.create path mode flags) ret ⟨w, d.handles⟩
  | read {i size offset ret} : Calls cx env d (.read i size offset) ret d
  | written {i buf offset h ret w} (hi : d.handles[i]? = some h)
      (hc : h.flags.acc.canWrite = true)
      (hw : dfsWrite env d.world h.addr buf offset = .ok (ret, w)) :
      Calls cx env d (.write i buf offset) ret ⟨w, d.handles⟩
  | notWritten {i buf offset ret} (hr : ret < 0) : Calls cx env d (.write i buf offset) ret d
  | released {i h ret w} (hi : d.handles[i]? = some h)
      (hr : dfsRelease cx env d.world h.path h.flags h.addr = .ok (ret, w)) :
      Calls cx env d (.release i) ret ⟨w, d.handles.eraseIdx i⟩
  | notReleased {i ret} : Calls cx env d (.release i) ret d
  | unlink {path ret w} (h : dfsUnlink cx env d.world (.ext path) = .ok (ret, w)) :
      Calls cx env d (.unlink path) ret ⟨w, d.handles⟩
  | rename {oldpath newpath ret w}
      (h : dfsRename cx env d.world oldpath newpath = .ok (ret, w)) :
      Calls cx env d (.rename oldpath newpath) ret ⟨w, d.handles⟩
  | rmdir {path ret w} (h : dfsRmdir cx env d.world (.ext path) = .ok (ret, w)) :
      Calls cx env d (.rmdir path) ret ⟨w, d.handles⟩
  | mkdir {path} : Calls cx env d (.mkdir path) (dfsMkdir env d.world path).1
      ⟨(dfsMkdir env d.world path).2, d.handles⟩
  | mknod {path} : Calls cx env d (.mknod path) (dfsMknod env d.world path).1
      ⟨(dfsMknod env d.world path).2, d.handles⟩
  | symlink {oldpath newpath ret w}
      (h : dfsSymlink cx env d.world oldpath newpath = .ok (ret, w)) :
      Calls cx env d (.symlink oldpath newpath) ret ⟨w, d.handles⟩
  | chmod {path mode ret w} (h : dfsChmod env d.world path mode = .ok (ret, w)) :
      Calls cx env d (.chmod path mode) ret ⟨w, d.handles⟩
  | chown {path uid gid ret w} (h : dfsChown env d.world path uid gid = .ok (ret, w)) :
      Calls cx env d (.chown path uid gid) ret ⟨w, d.handles⟩
  | gc {path} : Calls cx env d (.gc path) 0 ⟨gcCallback cx env d.world path, d.handles⟩

namespace Daemon

/-- Handing out a handle either adds it or leaves the handles as they are. -/
theorem opened_cases (d : Daemon) (path : Path) (flags : OpenFlags) (ret : Int)
    (fh : Option Addr) (w : World) :
    (∃ a, ret = 0 ∧ fh = some a ∧
      d.opened path flags (ret, fh, w) = (0, ⟨w, d.handles ++ [⟨a, path, flags⟩]⟩)) ∨
    (ret ≠ 0 ∨ fh = none) ∧ d.opened path flags (ret, fh, w) = (ret, ⟨w, d.handles⟩) := by
  unfold opened
  cases fh with
  | none => exact .inr ⟨.inr rfl, rfl⟩
  | some a =>
    by_cases hr : ret = 0
    · subst hr
      exact .inl ⟨a, rfl, rfl, rfl⟩
    · exact .inr ⟨.inl hr, by simp [hr]⟩

theorem withWorld_ok {d d' : Daemon} {x : Except Fault (Int × World)} {ret : Int}
    (h : x.map d.withWorld = .ok (ret, d')) : ∃ w, x = .ok (ret, w) ∧ d' = ⟨w, d.handles⟩ := by
  obtain ⟨⟨r, w⟩, hx, he⟩ := Except.map_eq_ok.mp h
  simp only [withWorld, Prod.mk.injEq] at he
  obtain ⟨rfl, rfl⟩ := he
  exact ⟨w, hx, rfl⟩

theorem call_cases {cx : Ctx} {d d' : Daemon} {op : Op} {env : Env} {ret : Int}
    (h : d.call cx ⟨op, env⟩ = .ok (ret, d')) : Calls cx env d op ret d' := by
  cases op with
  | getattr path =>
    obtain ⟨⟨r, st, w⟩, hg, he⟩ := Except.map_eq_ok.mp h
    simp only [Prod.mk.injEq] at he
    obtain ⟨rfl, rfl⟩ := he
    exact .getattr hg
  | «open» path flags =>
    obtain ⟨⟨r, fh, w⟩, ho, he⟩ := Except.map_eq_ok.mp h
    rcases opened_cases d path flags r fh w with ⟨a, rfl, rfl, hd⟩ | ⟨hr, hd⟩ <;>
      rw [hd, Prod.mk.injEq] at he <;> obtain ⟨rfl, rfl⟩ := he
    · exact .opened ho
    · exact .openFailed hr ho
  | create path mode flags =>
    obtain ⟨⟨r, fh, w⟩, ho, he⟩ := Except.map_eq_ok.mp h
    rcases opened_cases d path flags r fh w with ⟨a, rfl, rfl, hd⟩ | ⟨hr, hd⟩ <;>
      rw [hd, Prod.mk.injEq] at he <;> obtain ⟨rfl, rfl⟩ := he
    · exact .created ho
    · exact .createFailed hr ho
  | read i size offset =>
    have hd : d' = d := by
      unfold call at h
      dsimp only at h
      split at h
      · split_ifs at h
        · obtain ⟨⟨r, buf⟩, _, he⟩ := Except.map_eq_ok.mp h
          simp only [Prod.mk.injEq] at he
          exact he.2.symm
        · simp only [Except.ok.injEq, Prod.mk.injEq] at h
          exact h.2.symm
      · simp only [Except.ok.injEq, Prod.mk.injEq] at h
        exact h.2.symm
    rw [hd]
    exact .read
  | write i buf offset =>
    have hneg : -Errno.ebadf.num < 0 := by decide
    unfold call at h
    dsimp only at h
    split at h
    · rename_i hd hi
      split_ifs at h with hc
      · obtain ⟨w, hw, rfl⟩ := withWorld_ok h
        exact .written hi hc hw
      · simp only [Except.ok.injEq, Prod.mk.injEq] at h
        obtain ⟨rfl, rfl⟩ := h
        exact .notWritten hneg
    · simp only [Except.ok.injEq, Prod.mk.injEq] at h
      obtain ⟨rfl, rfl⟩ := h
      exact .notWritten hneg
  | release i =>
    unfold call at h
    dsimp only at h
    split at h
    · rename_i hd hi
      obtain ⟨⟨r, w⟩, hr, he⟩ := Except.map_eq_ok.mp h
      simp only [Prod.mk.injEq] at he
      obtain ⟨rfl, rfl⟩ := he
      exact .released hi hr
    · simp only [Except.ok.injEq, Prod.mk.injEq] at h
      obtain ⟨rfl, rfl⟩ := h
      exact .notReleased
  | unlink path =>
    obtain ⟨w, hw, rfl⟩ := withWorld_ok h
    exact .unlink hw
  | rename oldpath newpath =>
    obtain ⟨w, hw, rfl⟩ := withWorld_ok h
    exact .rename hw
  | rmdir path =>
    obtain ⟨w, hw, rfl⟩ := withWorld_ok h
    exact .rmdir hw
  | mkdir path =>
    simp only [call, withWorld, Except.ok.injEq, Prod.mk.injEq] at h
    obtain ⟨rfl, rfl⟩ := h
    exact .mkdir
  | mknod path =>
    simp only [call, withWorld, Except.ok.injEq, Prod.mk.injEq] at h
    obtain ⟨rfl, rfl⟩ := h
    exact .mknod
  | symlink oldpath newpath =>
    obtain ⟨w, hw, rfl⟩ := withWorld_ok h
    exact .symlink hw
  | chmod path mode =>
    obtain ⟨w, hw, rfl⟩ := withWorld_ok h
    exact .chmod hw
  | chown path uid gid =>
    obtain ⟨w, hw, rfl⟩ := withWorld_ok h
    exact .chown hw
  | gc path =>
    simp only [call, Except.ok.injEq, Prod.mk.injEq] at h
    obtain ⟨rfl, rfl⟩ := h
    exact .gc

/-- A step is one callback that returned. -/
theorem step_cases {cx : Ctx} {d d' : Daemon} {c : Call} (h : step cx d c = .ok d') :
    ∃ ret, Calls cx c.env d c.op ret d' := by
  obtain ⟨⟨ret, e⟩, hc, rfl⟩ := Except.map_eq_ok.mp h
  exact ⟨ret, call_cases hc⟩

end Daemon

/-- Every callback keeps the invariant of the table. -/
theorem Calls.inv {cx : Ctx} {env : Env} {d d' : Daemon} {op : Op} {ret : Int}
    (hi : d.world.Inv) (h : Calls cx env d op ret d') : d'.world.Inv := by
  cases h with
  | getattr h => exact (dfsGetattr_inv hi h).1
  | opened h => exact (dfsOpen_inv hi h).1
  | openFailed _ h => exact (dfsOpen_inv hi h).1
  | created h => exact (dfsCreate_inv hi h).1
  | createFailed _ h => exact (dfsCreate_inv hi h).1
  | read => exact hi
  | written _ _ h => exact (dfsWrite_inv hi h).1
  | notWritten _ => exact hi
  | released _ h => exact (dfsRelease_inv hi h).1
  | notReleased => exact hi
  | unlink h => exact dfsUnlink_inv hi h
  | rename h => exact dfsRename_inv hi h
  | rmdir h => exact (dfsRmdir_inv hi h).1
  | mkdir => exact (dfsMkdir_inv hi).1
  | mknod => exact (dfsMknod_inv hi).1
  | symlink h => exact (dfsSymlink_inv hi h).1
  | chmod h => exact (dfsChmod_inv hi h).1
  | chown h => exact (dfsChown_inv hi h).1
  | gc => exact gcCallback_inv cx env _ hi

theorem Daemon.init_inv {store : Store} {fs : LocalFs} {ring : Ring} (hw : fs.Wf) :
    (Daemon.init store fs ring).world.Inv := by
  refine ⟨hw, ?_, ?_, ?_, ?_, ?_, ?_⟩ <;> intros <;> simp_all [Daemon.init]

/-- Whatever callbacks have run, the table is well formed. -/
theorem Daemon.Reachable.inv {cx : Ctx} {d : Daemon} (h : d.Reachable cx) : d.world.Inv := by
  obtain ⟨store, fs, ring, hw, hr⟩ := h
  refine Transition.Reachable.invariant (I := fun d => d.world.Inv) hr (init_inv hw) ?_
  intro s e t hs ht
  obtain ⟨ret, hc⟩ := step_cases ht
  exact hc.inv hs

end DropletFs
