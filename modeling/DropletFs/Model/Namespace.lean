import DropletFs.Model.Open

/-! `mkdir.c`, `mknod.c`, `symlink.c`, `readlink.c`, `unlink.c`, `rmdir.c`. -/

namespace DropletFs

open CText

def dfsMkdir (env : Env) (s : World) (path : Path) : Int × World :=
  match dplMkdir env s.store path with
  | (.success, store) =>
    let s := { s with store := store }
    match s.hash path with
    | some _ => (0, s.onEntry path fun pe => { pe with filetype := .dir })
    | none =>
      match populateHash env s path .dir with
      | some (_, s) => (0, s)
      | none => (-1, s)
  | (_, store) => (-1, { s with store := store })

def dfsMknod (env : Env) (s : World) (path : Path) : Int × World :=
  match dplMknod env s.store path with
  | (.success, store) => (0, { s with store := store })
  | (_, store) => (-1, { s with store := store })

/-- `strstr(text, needle)`: the text from the first occurrence on. -/
def strstr (needle : CStr) : CStr → Option CStr
  | [] => if needle = [] then some [] else none
  | c :: cs => if needle.isPrefixOf (c :: cs) then some (c :: cs) else strstr needle cs

/-- The link text: what follows the mount point and one more character. -/
def symlinkTarget (cx : Ctx) (oldpath : Path) : Except Fault CStr :=
  match strstr cx.conf.rootDir oldpath with
  | none => .ok oldpath
  | some text =>
    if text.length ≤ cx.conf.rootDir.length then .error .outOfBounds
    else .ok (text.drop (cx.conf.rootDir.length + 1))

def dfsSymlink (cx : Ctx) (env : Env) (s : World) (oldpath newpath : Path) :
    Except Fault (Int × World) :=
  match dplMknod env s.store newpath with
  | (.success, store) =>
    let s := { s with store := store }
    -- `opath` is first read once there is a dictionary to put it in
    if !env.lib .symlinkDict then .ok (-1, s)
    else do
      let opath ← symlinkTarget cx oldpath
      if !env.lib .symlinkAdd || !env.lib .symlinkSize then .ok (-1, s)
      else
        let dict := (Dict.empty.set .symlink opath).set .size (ulongText opath.length)
        match dplSetattr env s.store newpath dict with
        | (.success, store) => .ok (0, { s with store := store })
        | (_, store) => .ok (-1, { s with store := store })
  | (rc, store) => .ok (rc.code, { s with store := store })

/-- `dfs_readlink` on a buffer of `bufsiz` bytes; what it returns is 0 on every path. -/
def dfsReadlink (env : Env) (s : World) (path : Path) (buf : List Char) : Int × List Char :=
  match dplGetattr env s.store path with
  | (.success, some dict) =>
    match dict .symlink with
    | none => (0, buf)
    | some dest => (0, strncpy buf dest (min dest.length buf.length))
  | _ => (0, buf)

/-- The end of `dfs_unlink`, when the table had an entry for the path: the entry is
freed, and then handed to `pentry_get_parent`, which reads its path field. -/
def unlinkEntry (env : Env) (s : World) (path : Str) : Except Fault (Int × World) := do
  let s := s.hashRemove (s.text path)
  match env.stale (s.text path) with
  | none => .error .useAfterFree
  | some freed =>
    let (buf, s) ← s.tmpstrPrintf [.ext freed]
    match ← pentryGetParent (s.text buf) with
    | none => .ok (0, s)
    | some parent => .ok (0, s.onEntry parent fun dir => pentryRemoveDirent dir (s.text path))

/-- `unlink` of the cache file, whose name takes a slot of the ring. -/
def World.unlinkCacheFile (cx : Ctx) (env : Env) (s : World) (path : Str) :
    Except Fault World := do
  let call := SysCall.unlinkCache (s.text path)
  let (localname, s) ← s.tmpstrPrintf [.ext cx.conf.cacheDir, .ext ['/'], path]
  .ok { s with fs := s.fs.tryUnlink env call (s.text localname) }

def dfsUnlink (cx : Ctx) (env : Env) (s : World) (path : Str) : Except Fault (Int × World) :=
  match dplUnlink env s.store (s.text path) with
  | (.success, store) => do
    let s ← { s with store := store }.unlinkCacheFile cx env path
    match s.hash (s.text path) with
    | none => .ok (0, s)
    | some _ => unlinkEntry env s path
  | (_, store) => .ok (1, { s with store := store })

def dfsRmdir (cx : Ctx) (env : Env) (s : World) (path : Str) : Except Fault (Int × World) :=
  let s := s.log (.rmdir (s.text path) (s.store.children (s.text path)))
  match dplRmdir env s.store (s.text path) with
  | (.success, store) => do
    let s := { s with store := store }
    let (_, s) ← s.tmpstrPrintf [.ext cx.conf.cacheDir, .ext ['/'], path]
    .ok (0, s.onEntry (s.text path) fun pe => pentryRemoveDirent pe (s.text path))
  | (_, store) => .ok (-1, { s with store := store })

end DropletFs
