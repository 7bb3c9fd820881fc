import DropletFs.Model.Open

/-! `getattr.c`, `chmod.c`, `chown.c`: attributes from the table, the cache file or the
store. -/

namespace DropletFs

open CText

def setDefaultStat (env : Env) (type : FType) : Stat :=
  let mode := match type with
    | .dir => sIfdir ||| sIrusr ||| sIxusr
    | .reg => sIfreg ||| sIrusr ||| sIwusr
    | .other => 0
  { Stat.zero with
    mode := mode
    uid := env.uid
    gid := env.gid
    atime := env.now
    mtime := env.now
    ctime := env.now }

/-- `set_filetype_from_stat`: the tests are `st_mode | S_IFREG`, never zero. -/
def setFiletypeFromStat (pe : Entry) (st : Stat) : Entry :=
  if st.mode ||| sIfreg ≠ 0 then { pe with filetype := .reg }
  else if st.mode ||| sIfdir ≠ 0 then { pe with filetype := .dir }
  else if st.mode ||| sIflnk ≠ 0 then { pe with filetype := .symlink }
  else pe

/-- `hash_fill_dirent`: the path is added to its parent's list, if the parent has an
entry. -/
def hashFillDirent (s : World) (path : Path) : World :=
  match beforeLastSlash path with
  | none => s
  | some d => s.onEntry (if d = [] then rootPath else d) (fun dir => pentryAddDirent dir path)

def getattrRemote (pe : Entry) (st : Stat) : Except Fault (Int × Stat × Entry) := do
  let pe ← pentryMdLock pe
  match pe.usermd with
  -- the lock stays taken on this branch
  | none => .ok (-1, st, pe)
  | some usermd => .ok (0, fillStatFromMetadata st usermd, pentryMdUnlock pe)

def getattrLocal (env : Env) (fs : LocalFs) (pe : Entry) (st : Stat) : Int × Stat :=
  match pe.fd with
  | none => (-1, st)
  | some fd =>
    match env.sys .fstatLocal, fs.fstat fd env.times with
    | none, some st => (0, st)
    | _, _ => (-1, st)

/-- The attributes the headers give, and the dictionary to keep: without a `size` key the
object was put by another program, and its `content-length` counts. -/
def statOfHeaders (env : Env) (st : Stat) (headers : Headers) : Except Fault (Stat × Dict) :=
  let dict := headers.userMeta
  match dict .size with
  | some _ => .ok (fillStatFromMetadata st dict, dict)
  | none =>
    match headers.contentLength with
    | none => .error .nullDeref
    | some length =>
      let dict := fillMetadataFromStat env dict st
      .ok ({ st with size := toI64 (strtoull length) },
        if env.lib .addSize then dict.set .size length else dict)

/-- `getattr_unset`: return value, attributes, the entry, and whether the path is to be
added to its directory. -/
def getattrUnset (env : Env) (store : Store) (pe : Entry) (path : Path) (st : Stat) :
    Except Fault (Int × Stat × Entry × Bool) :=
  match dplNamei env store path with
  | (.success, type) =>
    match dplGetattrRaw env store path with
    | (rc, headers) =>
      if rc ≠ .success ∧ rc ≠ .eisdir then .ok (-1, st, pe, false)
      else
        let st := { setDefaultStat env (type.getD .other) with nlink := 0 }
        if env.lib .getattrDict = false ∨ env.lib .filterPrefix = false then
          .ok (-1, st, pe, false)
        else match headers with
          | none => .error .nullDeref
          | some headers => do
            let (st, dict) ← statOfHeaders env st headers
            let pe ← pentryMdLock pe
            let pe := setFiletypeFromStat (pentrySetUsermd env pe dict).2 st
            .ok (0, st, pentryMdUnlock { pe with ondisk := .remote }, true)
  | (rc, _) => .ok (rc.code, st, pe, false)

/-- `dfs_getattr`: return value, attributes, and the state afterwards. -/
def dfsGetattr (env : Env) (s : World) (path : Path) : Except Fault (Int × Stat × World) :=
  let st := { Stat.zero with nlink := 1 }
  if path = rootPath then .ok (0, { st with mode := sIfdir }, s)
  else match lookupOrPopulate env s path (env.rawType path) with
    | none => .ok (-1, st, s)
    | some (a, s) => do
      let pe ← s.deref a
      match pe.ondisk with
      | .remote =>
        let (ret, st, pe) ← getattrRemote pe st
        .ok (ret, st, s.setEntry a { pe with atime := env.now })
      | .loc =>
        let (ret, st) := getattrLocal env s.fs pe st
        .ok (ret, st, s.setEntry a { pe with atime := env.now })
      | .unset =>
        let (ret, st, pe, fill) ← getattrUnset env s.store pe path st
        let s := s.setEntry a { pe with atime := env.now }
        .ok (ret, st, if fill then hashFillDirent s path else s)

/-- A change of the attributes of a cache file: `none` when it fails with anything but
`EPERM`. -/
def changeCacheFile (env : Env) (fs : LocalFs) (pe : Entry) (change : LocalFs → Nat → LocalFs)
    (call : SysCall) : Option LocalFs :=
  match pe.fd with
  | none => some fs
  | some fd =>
    if pe.ondisk ≠ .loc then some fs
    else match env.sys call with
      | none => some (change fs fd)
      | some .eperm => some fs
      | some _ => none

/-- The steps `dfs_chmod` and `dfs_chown` share: the table's dictionary, then the cache
file, then the store. -/
def setAttributes (env : Env) (s : World) (path : Path) (upd : Dict → Dict)
    (change : LocalFs → Nat → LocalFs) (call : SysCall) : Except Fault (Int × World) :=
  match s.hash path with
  | none => .ok (-1, s)
  | some a => do
    let pe ← s.deref a
    match pe.usermd with
    | none => .error .assertion
    | some usermd => do
      let pe ← pentryMdLock pe
      let pe := pentryMdUnlock { pe with usermd := some (upd usermd) }
      let s := s.setEntry a pe
      match changeCacheFile env s.fs pe change call with
      | none => .ok (-1, s)
      | some fs =>
        let res := dplSetattr env s.store path (upd usermd)
        .ok (if res.1 ≠ .success ∧ res.1 ≠ .eisdir then -1 else 0,
          { s with fs := fs, store := res.2 })

def dfsChmod (env : Env) (s : World) (path : Path) (mode : Nat) : Except Fault (Int × World) :=
  setAttributes env s path
    (fun d =>
      let d := assignMetaToDict (env.lib (.updateMeta .mode)) d .mode mode
      let d := assignMetaToDict (env.lib (.updateMeta .mtime)) d .mtime env.now
      assignMetaToDict (env.lib (.updateMeta .ctime)) d .ctime env.now)
    (fun fs fd => fs.fchmod fd mode) .fchmod

/-- `fchown`: an argument of `(uid_t)-1` or `(gid_t)-1` leaves the field alone. -/
def LocalFs.fchown (fs : LocalFs) (fd uid gid : Nat) : LocalFs :=
  match fs.fds.lookup fd with
  | some f =>
    let i := fs.inodes f.inode
    { fs with inodes := Function.update fs.inodes f.inode { i with
      uid := if uid = 2 ^ 32 - 1 then i.uid else uid
      gid := if gid = 2 ^ 32 - 1 then i.gid else gid } }
  | none => fs

def dfsChown (env : Env) (s : World) (path : Path) (uid gid : Nat) :
    Except Fault (Int × World) :=
  setAttributes env s path
    (fun d =>
      let d := assignMetaToDict (env.lib (.updateMeta .mtime)) d .mtime env.now
      let d := assignMetaToDict (env.lib (.updateMeta .ctime)) d .ctime env.now
      let d := assignMetaToDict (env.lib (.updateMeta .uid)) d .uid uid
      assignMetaToDict (env.lib (.updateMeta .gid)) d .gid gid)
    (fun fs fd => fs.fchown fd uid gid) .fchown

end DropletFs
