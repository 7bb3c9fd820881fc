import DropletFs.Model.Conf
import DropletFs.Model.Daemon

/-! `cachedir.c`: the loop of `root_dir_preload` and the pool of threads it feeds, the pass over the
table, and the functions that refresh an entry. -/

namespace DropletFs

open CText

/-- The most threads the pool runs at a time. -/
def poolThreads : Nat := 50

/-- What is queued: a pointer to a slot of the ring. `index` is the place in the listing of the
entry it was queued for. -/
structure PoolItem where
  index : Nat
  slot : Fin tmpstrNb
  deriving DecidableEq

/-- `root_dir_preload` over a listing. `ring` belongs to its thread, `queued` counts the entries
read so far; `received` is what each call of `cb_get_md` has got, and `stated` what each call of
`dfs_getattr` then looks up. -/
structure Preload where
  listing : List CStr
  ring : Ring
  queued : Nat
  queue : List PoolItem
  running : List PoolItem
  received : List (Nat × CStr)
  stated : List (Nat × CStr)

/-- An entry is read and queued, a thread takes the oldest item, a thread looks its path up. -/
inductive PreloadStep
  | push
  | take
  | stat (k : Nat)
  deriving DecidableEq

namespace Preload

def start (listing : List CStr) (ring : Ring) : Preload := ⟨listing, ring, 0, [], [], [], []⟩

/-- The string behind an item. -/
def read (p : Preload) (item : PoolItem) : CStr := p.ring.slots item.slot

/-- A step that cannot be made does nothing. -/
def step (p : Preload) : PreloadStep → Preload
  | .push =>
    match p.listing[p.queued]? with
    | none => p
    | some name => { p with
        ring := p.ring.push (tmpstr (rootPath ++ name))
        queued := p.queued + 1
        queue := p.queue ++ [⟨p.queued, p.ring.next⟩] }
  | .take =>
    match p.queue with
    | [] => p
    | item :: rest =>
      if p.running.length < poolThreads then { p with
        queue := rest
        running := p.running ++ [item]
        received := p.received ++ [(item.index, p.read item)] }
      else p
  | .stat k =>
    match p.running[k]? with
    | none => p
    | some item => { p with
        running := p.running.eraseIdx k
        stated := p.stated ++ [(item.index, p.read item)] }

def run (p : Preload) (steps : List PreloadStep) : Preload := steps.foldl step p

/-- The listing is queued and every item looked up. -/
def Done (p : Preload) : Prop := p.listing.length ≤ p.queued ∧ p.queue = [] ∧ p.running = []

end Preload

/-- The end of `update_md` and `cb_map_dirents`: an entry whose lock is taken is left alone. -/
def refreshEntry (env : Env) (usermd : Option Dict) (pe : Entry) : Entry :=
  if pe.mdLocked then pe
  else
    let pe := { pe with mdLocked := true }
    let pe := match usermd with
      | some dict => (pentrySetUsermd env pe dict).2
      | none => pe
    pentryMdUnlock { pe with atime := env.now }

/-- `cb_map_dirents` for a path of the list of a directory. -/
def cbMapDirents (env : Env) (s : World) (path : Path) : Except Fault World :=
  match s.hash path with
  | none => .ok s
  | some a =>
    match dplNamei env s.store path with
    | (.success, _) =>
      match dplGetattr env s.store path with
      | (rc, usermd) =>
        if rc ≠ .success ∧ rc ≠ .eisdir then .ok s
        else do
          let pe ← s.deref a
          .ok (s.setEntry a (refreshEntry env usermd pe))
    | _ => .ok s

/-- The part of `update_md` for a directory. -/
def updateDirents (env : Env) (s : World) (type : Option FType) (pe : Entry) :
    Except Fault World :=
  if type = some .dir then pe.dirent.foldlM (cbMapDirents env) s else .ok s

def updateMd (env : Env) (s : World) (a : Addr) : Except Fault World := do
  let pe ← s.deref a
  match dplNamei env s.store pe.path with
  | (.success, type) =>
    match dplGetattr env s.store pe.path with
    | (rc, usermd) =>
      if rc ≠ .success ∧ rc ≠ .eisdir then .ok s
      else do
        let s ← updateDirents env s type pe
        let pe ← s.deref a
        .ok (s.setEntry a (refreshEntry env usermd pe))
  | _ => .ok s

/-- Whether `cachedir_callback` pushes the entry. `size` is `g_hash_table_size`, `entrySize` is
`sizeof *pe`. -/
def cachedirCallback (conf : Settings) (entrySize now size : Nat) (pe : Entry) : Bool :=
  let age : Int := now - pe.atime
  let totalSize := toI32 (size * (entrySize + 64))
  if totalSize > conf.cacheMaxSize then false
  else if age < conf.scAgeThreshold then false
  else true

/-- The bytes of `fd`, the first member of `tpath_entry`, lowest first. -/
def fdBytes (fd : Option Nat) : List Char :=
  let n := fd.getD (2 ^ 32 - 1)
  [n, n / 2 ^ 8, n / 2 ^ 16, n / 2 ^ 24].map fun b => Char.ofNat (b % 256)

/-- An entry read as a string. `behind` is the memory after its descriptor. -/
def entryText (behind : List Char) (pe : Entry) : CStr := cstr (fdBytes pe.fd ++ behind)

/-- `cb_get_md`, the function of the pool. -/
def cbGetMd (env : Env) (s : World) (path : CStr) : Except Fault World :=
  (dfsGetattr env s path).map fun (_, _, s) => s

/-- A task of the pool: the entry pushed, the outcomes it meets and the memory it finds behind the
descriptor. -/
structure PoolTask where
  entry : Addr
  env : Env
  behind : List Char

/-- The pool hands the entry to `cb_get_md`, which takes it for a path. -/
def PoolTask.run (s : World) (task : PoolTask) : Except Fault World := do
  let pe ← s.deref task.entry
  cbGetMd task.env s (entryText task.behind pe)

/-- `g_hash_table_foreach` with `cachedir_callback`: the entries pushed. `now` is the time of each
call. -/
def World.pushed (s : World) (conf : Settings) (entrySize : Nat) (now : Path → Nat)
    (keys : List Path) : List Addr :=
  keys.filterMap fun key => (s.hash key).filter fun a =>
    ((s.heap a).map (cachedirCallback conf entrySize (now key) keys.length)).getD false

/-- A callback, or what `cachedir.c` has to refresh an entry with. -/
inductive Task
  | callback (c : Call)
  | updateMd (env : Env) (a : Addr)
  | mapDirents (env : Env) (path : Path)

def Daemon.task (cx : Ctx) (d : Daemon) : Task → Except Fault Daemon
  | .callback c => d.step cx c
  | .updateMd env a => (DropletFs.updateMd env d.world a).map fun w => { d with world := w }
  | .mapDirents env path => (cbMapDirents env d.world path).map fun w => { d with world := w }

end DropletFs
