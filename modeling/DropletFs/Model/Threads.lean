import DropletFs.Framework.Run
import DropletFs.Model.Daemon

/-! The clients and the collector as threads. A callback is cut where the other threads can
see a difference: the lookup and the `sem_post` of an open, the `sem_wait`, the upload and
the unlock of a release, the four steps of `gc_callback`. -/

namespace DropletFs.Threads

open CText

/-- How far a client is from the lookup of its open to the end of its release. -/
inductive Phase
  | idle
  | looked (h : Handle)
  | posted (h : Handle)
  | opened (h : Handle)
  | waited (h : Handle) (stat : Stat)
  | uploaded (h : Handle)
  deriving DecidableEq

def Phase.handle? : Phase → Option Handle
  | idle => none
  | looked h | posted h | opened h | waited h _ | uploaded h => some h

/-- The client has an entry the semaphore does not count it on. -/
def Phase.window? : Phase → Option Handle
  | idle | posted _ | opened _ => none
  | looked h | waited h _ | uploaded h => some h

/-- The semaphore of the entry counts the client. -/
def Phase.counts (a : Addr) : Phase → Bool
  | posted h | opened h => h.addr = a
  | _ => false

/-- How far the collector is with the cell it looks at. -/
inductive Sweep
  | idle
  | counted (path : Path) (a : Addr)
  | locked (path : Path) (a : Addr)
  | condemned (path : Path) (a : Addr)
  deriving DecidableEq

def Sweep.cell? : Sweep → Option (Path × Addr)
  | idle => none
  | counted path a | locked path a | condemned path a => some (path, a)

structure State where
  world : World
  clients : List Phase
  collector : Sweep

def lookup (env : Env) (w : World) (path : Path) (flags : OpenFlags) : World × Phase :=
  match lookupOrPopulate env w path .reg with
  | some (a, w) => (w, .looked ⟨a, path, flags⟩)
  | none => (w, .idle)

def post (w : World) (h : Handle) : Except Fault (World × Phase) := do
  let pe ← w.deref h.addr
  .ok (w.setEntry h.addr (pentryIncRefcount pe), .posted h)

/-- The rest of `dfs_open`. After a failure no release follows. -/
def enter (cx : Ctx) (env : Env) (w : World) (h : Handle) : Except Fault (World × Phase) := do
  let pe ← w.deref h.addr
  let (ret, pe, fs) ← openMode cx env w.store w.fs h.path pe (getModeFromFlags h.flags)
  if ret = -1 then .ok ({ w.setEntry h.addr pe with fs := fs }, .idle)
  else .ok ({ w.setEntry h.addr { pe with ondisk := .loc } with fs := fs }, .opened h)

/-- `dfs_release` up to `sem_wait`. A handle opened read-only is done after it. -/
def wait (env : Env) (w : World) (h : Handle) : Except Fault (World × Phase) := do
  let pe ← w.deref h.addr
  match pe.fd with
  | none => .ok (w, .uploaded h)
  | some fd =>
    match env.sys .fstatRelease, w.fs.fstat fd env.times with
    | none, some stat => do
      let pe ← pentryDecRefcount pe
      let w := w.setEntry h.addr pe
      if h.flags.acc = .rdonly then .ok (w, .idle)
      else if pe.exclude then .ok (w, .uploaded h)
      else .ok (w, .waited h stat)
    | _, _ => .ok ({ w with fs := w.fs.setOffset fd 0 }, .uploaded h)

def upload (cx : Ctx) (env : Env) (w : World) (h : Handle) (stat : Stat) :
    Except Fault (World × Phase) := do
  let pe ← w.deref h.addr
  match pe.fd with
  | none => .ok (w, .uploaded h)
  | some fd =>
    match releaseUpload cx env w.store w.fs h.path fd stat with
    | (_, fs, st) => .ok ({ w with fs := fs.setOffset fd 0, store := st }, .uploaded h)

/-- The label `exc:`; the mutex is unlocked whoever holds it. -/
def unlock (w : World) (h : Handle) : Except Fault (World × Phase) := do
  let pe ← w.deref h.addr
  .ok (w.setEntry h.addr (releaseExc pe), .idle)

inductive ClientStep
  | lookup (path : Path) (flags : OpenFlags)
  | post
  | enter
  | wait
  | upload
  | unlock

/-- A step that is not the client's next one does nothing. -/
def clientStep (cx : Ctx) (env : Env) (w : World) : ClientStep → Phase →
    Except Fault (World × Phase)
  | .lookup path flags, .idle => .ok (lookup env w path flags)
  | .post, .looked h => post w h
  | .enter, .posted h => enter cx env w h
  | .wait, .opened h => wait env w h
  | .upload, .waited h stat => upload cx env w h stat
  | .unlock, .uploaded h => unlock w h
  | _, ph => .ok (w, ph)

def count (w : World) (path : Path) : Except Fault (World × Sweep) :=
  match w.hash path with
  | none => .ok (w, .idle)
  | some a => do
    let pe ← w.deref a
    if pe.refcount ≠ 0 then .ok (w, .idle) else .ok (w, .counted path a)

def trylock (w : World) (path : Path) (a : Addr) : Except Fault (World × Sweep) := do
  let pe ← w.deref a
  if pe.locked then .ok (w, .idle)
  else .ok (w.setEntry a { pe with locked := true }, .locked path a)

def ageDecision (cx : Ctx) (env : Env) (w : World) (path : Path) (a : Addr) :
    Except Fault (World × Sweep) := do
  let pe ← w.deref a
  if gcRemoves cx env w.fs pe then .ok (w, .condemned path a)
  else .ok (w.setEntry a (pentryUnlock pe), .idle)

inductive SweepStep
  | count (path : Path)
  | trylock
  | decide
  | remove

def sweepStep (cx : Ctx) (env : Env) (w : World) : SweepStep → Sweep →
    Except Fault (World × Sweep)
  | .count path, .idle => count w path
  | .trylock, .counted path a => trylock w path a
  | .decide, .locked path a => ageDecision cx env w path a
  | .remove, .condemned path _ => .ok (gcRemove cx env w path, .idle)
  | _, sw => .ok (w, sw)

inductive Act
  | client (i : Nat) (c : ClientStep)
  | collector (c : SweepStep)

/-- One step of one thread, and the outcomes it meets. -/
structure Move where
  act : Act
  env : Env

def step (cx : Ctx) (s : State) (m : Move) : Except Fault State :=
  match m.act with
  | .client i c =>
    match s.clients[i]? with
    | none => .ok s
    | some ph => (clientStep cx m.env s.world c ph).map fun (w, ph) =>
        { s with world := w, clients := s.clients.set i ph }
  | .collector c => (sweepStep cx m.env s.world c s.collector).map fun (w, sw) =>
      { s with world := w, collector := sw }

/-- `n` clients and the collector, none of them under way. -/
def State.init (w : World) (n : Nat) : State := ⟨w, List.replicate n .idle, .idle⟩

end DropletFs.Threads
