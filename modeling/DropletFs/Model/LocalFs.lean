import DropletFs.Model.Types

/-! The cache files: names, inodes and the descriptors open on them. Directories of
the cache tree are not part of the state; a missing one is an `open` that fails. -/

namespace DropletFs

open CText

structure Inode where
  data : Bytes
  mode : Nat
  uid : Nat
  gid : Nat

structure OpenFile where
  inode : Nat
  acc : AccMode
  offset : Nat
  deriving DecidableEq

/-- `files` maps the name a system call resolves to an inode, `fds` is the descriptor
table, `nextInode` is above every inode used so far. The umask is the one the process has been
started with. -/
structure LocalFs where
  files : Path → Option Nat
  inodes : Nat → Inode
  fds : AList (fun _ : Nat => OpenFile)
  nextInode : Nat
  umask : Nat

/-- The descriptor `open` returns: the lowest number not in use. -/
def lowestFree (used : List Nat) : Nat :=
  ((List.range (used.length + 1)).find? (fun n => n ∉ used)).getD 0

theorem lowestFree_notMem (used : List Nat) : lowestFree used ∉ used := by
  unfold lowestFree
  cases h : (List.range (used.length + 1)).find? (fun n => n ∉ used) with
  | some n => simpa using List.find?_some h
  | none =>
    have hall : List.range (used.length + 1) ⊆ used := by
      intro n hn
      simpa using List.find?_eq_none.mp h n hn
    have hlen := (List.subperm_of_subset List.nodup_range hall).length_le
    simp only [List.length_range] at hlen
    omega

namespace LocalFs

/-- Every name and every descriptor refers to an inode already used, and no two names
share one. -/
structure Wf (fs : LocalFs) : Prop where
  named : ∀ n i, fs.files n = some i → i < fs.nextInode
  opened : ∀ fd f, fs.fds.lookup fd = some f → f.inode < fs.nextInode
  inj : ∀ n m i, fs.files n = some i → fs.files m = some i → n = m

/-- The inode behind a descriptor. -/
def inodeOf (fs : LocalFs) (fd : Nat) : Option Nat := (fs.fds.lookup fd).map (·.inode)

/-- The bytes readable through a descriptor from offset zero. -/
def content (fs : LocalFs) (fd : Nat) : Option Bytes :=
  (fs.inodeOf fd).map (fun i => (fs.inodes i).data)

def fresh (fs : LocalFs) : Nat := lowestFree fs.fds.keys

/-- A new descriptor on an inode, at offset zero. -/
def install (fs : LocalFs) (inode : Nat) (acc : AccMode) : Nat × LocalFs :=
  (fs.fresh, { fs with fds := fs.fds.insert fs.fresh ⟨inode, acc, 0⟩ })

def writeInode (fs : LocalFs) (inode : Nat) (data : Bytes) : LocalFs :=
  { fs with inodes := Function.update fs.inodes inode { fs.inodes inode with data := data } }

/-- The mode of a file made with `mode`: without the bits of the umask. -/
def newMode (fs : LocalFs) (mode : Nat) : Nat := mode &&& (0o7777 ^^^ (fs.umask &&& 0o777))

/-- `open(name, flags, mode)`, `none` when the name is missing and not created. -/
def openFile (fs : LocalFs) (name : Path) (flags : OpenFlags) (mode : Nat) :
    Option (Nat × LocalFs) :=
  match fs.files (collapse name) with
  | some i =>
    let fs := if flags.trunc then fs.writeInode i [] else fs
    some (fs.install i flags.acc)
  | none =>
    if flags.creat then
      let i := fs.nextInode
      let fs := { fs with
        files := Function.update fs.files (collapse name) (some i)
        inodes := Function.update fs.inodes i ⟨[], fs.newMode mode, 0, 0⟩
        nextInode := i + 1 }
      some (fs.install i flags.acc)
    else none

/-- `fopen(name, "w")` up to `fclose`: the name holds exactly `data` afterwards. -/
def overwrite (fs : LocalFs) (name : Path) (data : Bytes) : LocalFs :=
  match fs.files (collapse name) with
  | some i => fs.writeInode i data
  | none =>
    let i := fs.nextInode
    { fs with
      files := Function.update fs.files (collapse name) (some i)
      inodes := Function.update fs.inodes i ⟨data, fs.newMode 0o666, 0, 0⟩
      nextInode := i + 1 }

/-- The content under a name. -/
def readName (fs : LocalFs) (name : Path) : Option Bytes :=
  (fs.files (collapse name)).map (fun i => (fs.inodes i).data)

def unlink (fs : LocalFs) (name : Path) : LocalFs :=
  { fs with files := Function.update fs.files (collapse name) none }

/-- An `unlink` whose failure is only logged. -/
def tryUnlink (env : Env) (call : SysCall) (fs : LocalFs) (name : Path) : LocalFs :=
  if env.sys call = none then fs.unlink name else fs

/-- `rename(old, new)`. -/
def rename (fs : LocalFs) (old new : Path) : LocalFs :=
  if collapse old = collapse new then fs
  else { fs with
    files := Function.update (Function.update fs.files (collapse new)
      (fs.files (collapse old))) (collapse old) none }

def close (fs : LocalFs) (fd : Nat) : LocalFs := { fs with fds := fs.fds.erase fd }

def closeOpt (fs : LocalFs) : Option Nat → LocalFs
  | some fd => fs.close fd
  | none => fs

def setOffset (fs : LocalFs) (fd offset : Nat) : LocalFs :=
  match fs.fds.lookup fd with
  | some f => { fs with fds := fs.fds.insert fd { f with offset := offset } }
  | none => fs

/-- The offset of a descriptor after `n` more bytes have been read through it. -/
def advance (fs : LocalFs) (fd n : Nat) : LocalFs :=
  match fs.fds.lookup fd with
  | some f => { fs with fds := fs.fds.insert fd { f with offset := f.offset + n } }
  | none => fs

def chmod (fs : LocalFs) (inode mode : Nat) : LocalFs :=
  { fs with inodes := Function.update fs.inodes inode { fs.inodes inode with mode := mode } }

def fchmod (fs : LocalFs) (fd mode : Nat) : LocalFs :=
  match fs.fds.lookup fd with
  | some f => fs.chmod f.inode mode
  | none => fs

/-- `st_mode` of a regular file: `S_IFREG` and the bits a `chmod` can set. -/
def regularMode (mode : Nat) : Nat := 0o100000 ||| (mode &&& 0o7777)

/-- `fstat`, with the times the environment reports. -/
def fstat (fs : LocalFs) (fd : Nat) (times : Int × Int × Int) : Option Stat :=
  (fs.inodeOf fd).map fun i =>
    ⟨regularMode (fs.inodes i).mode, (fs.inodes i).data.length, (fs.inodes i).uid,
      (fs.inodes i).gid, times.1, times.2.1, times.2.2, 1⟩

end LocalFs

/-- Bytes `off` to `off + buf.length` replaced by `buf`, zero filled up to `off`. Writing no byte
does not extend the file. -/
def pokeBytes (data : Bytes) (off : Nat) (buf : Bytes) : Bytes :=
  if buf.isEmpty then data
  else
    data.take off ++ List.replicate (off - data.length) 0 ++ buf ++ data.drop (off + buf.length)

end DropletFs
