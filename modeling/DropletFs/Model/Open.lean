import DropletFs.Model.File

/-! `open.c`, `create.c`, `read.c`, `write.c`. -/

namespace DropletFs

open CText

inductive StateMode
  | rdonly
  | wronly
  | rdwr
  | creat
  deriving DecidableEq, Repr

/-- `open_flags[]`. -/
def openFlags : StateMode → OpenFlags
  | .rdonly => ⟨.rdonly, false, false, false⟩
  | .wronly => ⟨.rdwr, false, false, false⟩
  | .rdwr => ⟨.rdwr, false, false, false⟩
  | .creat => ⟨.rdwr, false, true, true⟩

/-- `get_mode_from_flags`. -/
def getModeFromFlags (flags : OpenFlags) : StateMode :=
  if flags.append then .rdwr
  else if flags.creat then .creat
  else match flags.acc with
    | .rdonly => .rdonly
    | .wronly => .creat
    | .rdwr => .creat
    | .other => .rdwr

/-- The name `build_cache_tree` returns. -/
def buildCacheTree (cx : Ctx) (path : Path) : Path :=
  tmpstr (cx.conf.cacheDir ++ ['/'] ++ path.dropWhile (· = '/'))

def openCreat (cx : Ctx) (env : Env) (fs : LocalFs) (path : Path) (pe : Entry)
    (flags : OpenFlags) : Int × Entry × LocalFs :=
  match env.sys .openCache, fs.openFile (buildCacheTree cx path) flags 0o644 with
  | none, some (fd, fs) => (0, { pe with fd := some fd, flag := .dirty }, fs)
  | _, _ => (-1, pe, fs)

def openExisting (cx : Ctx) (env : Env) (st : Store) (fs : LocalFs) (path : Path) (pe : Entry)
    (flags : OpenFlags) : Except Fault (Int × Entry × LocalFs) :=
  match pe.fd with
  | some _ => .ok (0, pe, fs)
  | none => do
    let (fd, pe, fs) ← dfsGetLocalCopy cx env st fs pe path flags
    .ok (if fd.isNone then -1 else 0, { pe with fd := fd }, fs)

def openRdonly (cx : Ctx) (env : Env) (st : Store) (fs : LocalFs) (path : Path) (pe : Entry)
    (flags : OpenFlags) : Except Fault (Int × Entry × LocalFs) :=
  openExisting cx env st fs path pe flags

def openWronly (cx : Ctx) (env : Env) (st : Store) (fs : LocalFs) (path : Path) (pe : Entry)
    (flags : OpenFlags) : Except Fault (Int × Entry × LocalFs) := do
  let (ret, pe, fs) ← openExisting cx env st fs path pe flags
  .ok (ret, if ret = 0 then { pe with flag := .dirty } else pe, fs)

def openRdwr (cx : Ctx) (env : Env) (st : Store) (fs : LocalFs) (path : Path) (pe : Entry)
    (flags : OpenFlags) : Except Fault (Int × Entry × LocalFs) :=
  openWronly cx env st fs path pe flags

/-- The table `fn[]` of `dfs_open`. -/
def openMode (cx : Ctx) (env : Env) (st : Store) (fs : LocalFs) (path : Path) (pe : Entry)
    (smode : StateMode) : Except Fault (Int × Entry × LocalFs) :=
  match smode with
  | .rdonly => openRdonly cx env st fs path pe (openFlags smode)
  | .wronly => openWronly cx env st fs path pe (openFlags smode)
  | .rdwr => openRdwr cx env st fs path pe (openFlags smode)
  | .creat => .ok (openCreat cx env fs path pe (openFlags smode))

/-- The entry of a path, added to the table when it has none. -/
def lookupOrPopulate (env : Env) (s : World) (path : Path) (type : TPathType) :
    Option (Addr × World) :=
  match s.hash path with
  | some a => some (a, s)
  | none => populateHash env s path type

/-- `dfs_open`: return value, `info->fh` and the state afterwards. -/
def dfsOpen (cx : Ctx) (env : Env) (s : World) (path : Path) (flags : OpenFlags) :
    Except Fault (Int × Option Addr × World) :=
  match lookupOrPopulate env s path .reg with
  | none => .ok (-1, none, s)
  | some (a, s) => do
    let pe ← s.deref a
    let (ret, pe, fs) ← openMode cx env s.store s.fs path (pentryIncRefcount pe)
      (getModeFromFlags flags)
    let s := { s with fs := fs }
    if ret = -1 then .ok (-1, some a, s.setEntry a pe)
    else .ok (0, some a, s.setEntry a { pe with ondisk := .loc })

/-- `S_ISREG`. -/
def sIsreg (mode : Nat) : Bool := mode &&& 0o170000 = sIfreg

/-- `dfs_create` once `dfs_open` has returned the entry. The dictionary handed to
`pentry_set_usermd` is the entry's own when it has one: it is freed, then copied from,
then freed again. -/
def createOpened (env : Env) (st : Store) (fs : LocalFs) (path : Path) (mode : Nat)
    (exclude : Bool) (pe : Entry) : Except Fault (Int × Entry × LocalFs × Store) :=
  let pe := { pe with exclude := exclude }
  match pe.fd with
  | none => .ok (-1, pe, fs, st)
  | some fd =>
    match env.sys .fchmodCreate, (fs.fchmod fd mode).fstat fd env.times with
    | some e, _ => .ok (-e.num, pe, fs, st)
    | none, none => .ok (-Errno.ebadf.num, pe, fs, st)
    | none, some stat =>
      let fs := fs.fchmod fd mode
      match env.sys .fstatCreate with
      | some e => .ok (-e.num, pe, fs, st)
      | none =>
        if pe.usermd.isSome then .error .useAfterFree
        else if !env.lib .createDict then .ok (-1, pe, fs, st)
        else do
          let usermd := fillMetadataFromStat env Dict.empty stat
          let usermd := assignMetaToDict (env.lib .updateMode) usermd .mode mode
          let pe ← pentryMdLock pe
          let (_, pe) := pentrySetUsermd env pe usermd
          let pe := pentryMdUnlock pe
          if exclude then .ok (0, pe, fs, st)
          else
            match dplMknod env st path with
            | (.success, st) => .ok (0, pe, fs, st)
            | (_, st) => .ok (-1, pe, fs, st)

def dfsCreate (cx : Ctx) (env : Env) (s : World) (path : Path) (mode : Nat)
    (flags : OpenFlags) : Except Fault (Int × Option Addr × World) :=
  if !sIsreg mode then .ok (-1, none, s)
  else
    let exclude := cx.conf.regex path
    let rc := if exclude then .success else (dplNamei env s.store path).1
    if rc ≠ .success ∧ rc ≠ .enoent then .ok (-1, none, s)
    else do
      let (ret, fh, s) ← dfsOpen cx env s path flags
      match fh with
      | none => .ok (-1, fh, s)
      | some a =>
        if ret = -1 then .ok (-1, fh, s)
        else do
          let pe ← s.deref a
          let (ret, pe, fs, st) ← createOpened env s.store s.fs path mode exclude pe
          .ok (ret, fh, { s.setEntry a pe with fs := fs, store := st })

/-- `dfs_read`: return value and the bytes stored in the buffer. -/
def dfsRead (env : Env) (s : World) (fh : Addr) (size offset : Nat) :
    Except Fault (Int × Bytes) := do
  let pe ← s.deref fh
  match pe.fd with
  | none => .ok (-Errno.num (.other 67), [])
  | some fd =>
    match env.sys .pread, s.fs.fds.lookup fd with
    | none, some f =>
      if f.acc.canRead then
        let buf := ((s.fs.inodes f.inode).data.drop offset).take size
        .ok (buf.length, buf)
      else .ok (-Errno.ebadf.num, [])
    | some e, _ => .ok (-e.num, [])
    | none, none => .ok (-Errno.ebadf.num, [])

/-- `dfs_write`: return value and the state afterwards. -/
def dfsWrite (env : Env) (s : World) (fh : Addr) (buf : Bytes) (offset : Nat) :
    Except Fault (Int × World) := do
  let pe ← s.deref fh
  match pe.fd with
  | none => .ok (Errno.ebadf.num, s)
  | some fd =>
    match env.sys .pwrite, s.fs.fds.lookup fd with
    | none, some f =>
      if f.acc.canWrite then
        let part := env.written buf
        let data := pokeBytes (s.fs.inodes f.inode).data offset part
        .ok (part.length, { s with fs := s.fs.writeInode f.inode data })
      else .ok (-Errno.ebadf.num, s)
    | some e, _ => .ok (-e.num, s)
    | none, none => .ok (-Errno.ebadf.num, s)

end DropletFs
