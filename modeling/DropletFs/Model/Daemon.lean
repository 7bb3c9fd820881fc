import DropletFs.Framework.Run
import DropletFs.Model.Getattr
import DropletFs.Model.Gc
import DropletFs.Model.Rename

/-! The daemon between callbacks: the shared state and the handles it has given out. One
step is one whole callback, or one call of the collector. -/

namespace DropletFs

open CText

/-- What `info->fh` refers to, with the arguments of the call that returned it. -/
structure Handle where
  addr : Addr
  path : Path
  flags : OpenFlags
  deriving DecidableEq

structure Daemon where
  world : World
  handles : List Handle

/-- The callbacks. Those on a file name its handle by the position in `handles`. -/
inductive Op
  | getattr (path : Path)
  | open (path : Path) (flags : OpenFlags)
  | create (path : Path) (mode : Nat) (flags : OpenFlags)
  | read (handle size offset : Nat)
  | write (handle : Nat) (buf : Bytes) (offset : Nat)
  | release (handle : Nat)
  | unlink (path : Path)
  | rename (oldpath newpath : Path)
  | rmdir (path : Path)
  | mkdir (path : Path)
  | mknod (path : Path)
  | symlink (oldpath newpath : Path)
  | chmod (path : Path) (mode : Nat)
  | chown (path : Path) (uid gid : Nat)
  | gc (path : Path)

/-- A callback and the outcomes it meets. -/
structure Call where
  op : Op
  env : Env

namespace Daemon

/-- A successful open or create hands out a new handle. -/
def opened (d : Daemon) (path : Path) (flags : OpenFlags) :
    Int × Option Addr × World → Int × Daemon
  | (ret, fh, w) =>
    match fh with
    | some a =>
      if ret = 0 then (ret, ⟨w, d.handles ++ [⟨a, path, flags⟩]⟩) else (ret, ⟨w, d.handles⟩)
    | none => (ret, ⟨w, d.handles⟩)

def withWorld (d : Daemon) : Int × World → Int × Daemon
  | (ret, w) => (ret, { d with world := w })

/-- One callback. The kernel passes a read or a write on only for a handle opened for
it. -/
def call (cx : Ctx) (d : Daemon) (c : Call) : Except Fault (Int × Daemon) :=
  let env := c.env
  let w := d.world
  match c.op with
  | .getattr path => (dfsGetattr env w path).map fun (ret, _, w) => (ret, { d with world := w })
  | .open path flags => (dfsOpen cx env w path flags).map (d.opened path flags)
  | .create path mode flags => (dfsCreate cx env w path mode flags).map (d.opened path flags)
  | .read i size offset =>
    match d.handles[i]? with
    | some h =>
      if h.flags.acc.canRead then (dfsRead env w h.addr size offset).map fun (ret, _) => (ret, d)
      else .ok (-Errno.ebadf.num, d)
    | none => .ok (-Errno.ebadf.num, d)
  | .write i buf offset =>
    match d.handles[i]? with
    | some h =>
      if h.flags.acc.canWrite then (dfsWrite env w h.addr buf offset).map d.withWorld
      else .ok (-Errno.ebadf.num, d)
    | none => .ok (-Errno.ebadf.num, d)
  | .release i =>
    match d.handles[i]? with
    | some h => (dfsRelease cx env w h.path h.flags h.addr).map fun (ret, w) =>
        (ret, ⟨w, d.handles.eraseIdx i⟩)
    | none => .ok (-Errno.ebadf.num, d)
  | .unlink path => (dfsUnlink cx env w (.ext path)).map d.withWorld
  | .rename oldpath newpath => (dfsRename cx env w oldpath newpath).map d.withWorld
  | .rmdir path => (dfsRmdir cx env w (.ext path)).map d.withWorld
  | .mkdir path => .ok (d.withWorld (dfsMkdir env w path))
  | .mknod path => .ok (d.withWorld (dfsMknod env w path))
  | .symlink oldpath newpath => (dfsSymlink cx env w oldpath newpath).map d.withWorld
  | .chmod path mode => (dfsChmod env w path mode).map d.withWorld
  | .chown path uid gid => (dfsChown env w path uid gid).map d.withWorld
  | .gc path => .ok (0, { d with world := gcCallback cx env w path })

def step (cx : Ctx) (d : Daemon) (c : Call) : Except Fault Daemon := (d.call cx c).map (·.2)

/-- The daemon after the mount: an empty table, and whatever files and descriptors were
there before. -/
def init (store : Store) (fs : LocalFs) (ring : Ring) : Daemon where
  world :=
    { store := store
      cwd := rootPath
      hash := fun _ => none
      heap := fun _ => none
      brk := 0
      fs := fs
      ring := ring
      trace := [] }
  handles := []

/-- Reachable from the mount by callbacks in any order, with any outcomes. -/
def Reachable (cx : Ctx) (d : Daemon) : Prop :=
  ∃ store fs ring, fs.Wf ∧ Transition.Reachable (step cx) (init store fs ring) d

end Daemon

end DropletFs
