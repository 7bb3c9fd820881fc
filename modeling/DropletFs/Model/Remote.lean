import DropletFs.Model.Types

/-! The remote store behind libdroplet. A call the environment lets through is
answered from the store; any other leaves it unchanged. The library is not part of the
sources: which calls it refuses, and with which status, is what this model takes it to do. -/

namespace DropletFs

open CText

def rootPath : Path := ['/']

/-- The text before the names of a directory's entries. -/
def dirPrefix (p : Path) : Path := if p = rootPath then rootPath else p ++ ['/']

def childPath (p : Path) (x : CStr) : Path := dirPrefix p ++ x

/-- The name of `key` in directory `p`, if `key` is an entry of it. -/
def childName (p key : Path) : Option CStr :=
  match key.dropPrefix? (dirPrefix p) with
  | some x => if x = [] ∨ '/' ∈ x then none else some x
  | none => none

namespace Store

def ftype? (st : Store) (p : Path) : Option FType :=
  if p = rootPath then some .dir else (st.lookup p).map (·.ftype)

/-- Names of the entries of a directory, in listing order. -/
def children (st : Store) (p : Path) : List CStr := st.keys.filterMap (childName p)

/-- The name as `dpl_readdir` spells it: directories carry a trailing slash. -/
def direntName (st : Store) (p : Path) (x : CStr) : CStr :=
  if st.ftype? (childPath p x) = some .dir then x ++ ['/'] else x

end Store

/-- What `dpl_getattr_raw` and `dpl_head_all` return. -/
structure Headers where
  userMeta : Dict
  contentLength : Option CStr
  etag : Option CStr

def Obj.headers (o : Obj) : Headers := ⟨o.userMeta, o.contentLength, o.etag⟩

def eexist : Status := .other 1
def enotdir : Status := .other 2
def enotempty : Status := .other 3

/-- On success the type of the object; nothing is written otherwise. -/
def dplNamei (env : Env) (st : Store) (p : Path) : Status × Option FType :=
  match env.remote (.namei p) with
  | .success =>
    match st.ftype? p with
    | some t => (.success, some t)
    | none => (.enoent, none)
  | rc => (rc, none)

/-- The metadata of the object's own keys. -/
def dplGetattr (env : Env) (st : Store) (p : Path) : Status × Option Dict :=
  match env.remote (.getattr p) with
  | .success =>
    match st.lookup p with
    | some o => (if o.ftype = .dir then .eisdir else .success, some o.userMeta)
    | none => (.enoent, none)
  | rc => (rc, none)

def dplGetattrRaw (env : Env) (st : Store) (p : Path) : Status × Option Headers :=
  match env.remote (.getattrRaw p) with
  | .success =>
    match st.lookup p with
    | some o => (if o.ftype = .dir then .eisdir else .success, some o.headers)
    | none => (.enoent, none)
  | rc => (rc, none)

def dplHeadAll (env : Env) (st : Store) (p : Path) : Status × Option Headers :=
  match env.remote (.headAll p) with
  | .success =>
    match st.lookup p with
    | some o => (.success, some o.headers)
    | none => (.enoent, none)
  | rc => (rc, none)

def dplSetattr (env : Env) (st : Store) (p : Path) (d : Dict) : Status × Store :=
  match env.remote (.setattr p) with
  | .success =>
    match st.lookup p with
    | some o => (if o.ftype = .dir then .eisdir else .success, st.insert p { o with userMeta := d })
    | none => (.enoent, st)
  | rc => (rc, st)

/-- The object an empty `PUT` leaves. -/
def emptyObj (ftype : FType) : Obj := ⟨ftype, [], Dict.empty, some (ulongZero), none⟩
where ulongZero : CStr := ['0']

def dplMknod (env : Env) (st : Store) (p : Path) : Status × Store :=
  match env.remote (.mknod p) with
  | .success =>
    if st.ftype? p = some .dir then (.eisdir, st) else (.success, st.insert p (emptyObj .reg))
  | rc => (rc, st)

def dplMkdir (env : Env) (st : Store) (p : Path) : Status × Store :=
  match env.remote (.mkdir p) with
  | .success =>
    if (st.ftype? p).isSome then (eexist, st) else (.success, st.insert p (emptyObj .dir))
  | rc => (rc, st)

def dplUnlink (env : Env) (st : Store) (p : Path) : Status × Store :=
  match env.remote (.unlink p) with
  | .success =>
    match st.ftype? p with
    | none => (.enoent, st)
    | some .dir => (.eisdir, st)
    | some _ => (.success, st.erase p)
  | rc => (rc, st)

def dplRmdir (env : Env) (st : Store) (p : Path) : Status × Store :=
  match env.remote (.rmdir p) with
  | .success =>
    if p = rootPath then (enotempty, st)
    else match st.ftype? p with
      | none => (.enoent, st)
      | some .dir => if st.children p = [] then (.success, st.erase p) else (enotempty, st)
      | some _ => (enotdir, st)
  | rc => (rc, st)

/-- The copy carries the metadata along. -/
def dplFcopy (env : Env) (st : Store) (oldpath newpath : Path) : Status × Store :=
  match env.remote (.fcopy oldpath newpath) with
  | .success =>
    if oldpath = rootPath ∨ st.ftype? newpath = some .dir then (.eisdir, st)
    else match st.lookup oldpath with
      | none => (.enoent, st)
      | some o => if o.ftype = .dir then (.eisdir, st) else (.success, st.insert newpath o)
  | rc => (rc, st)

/-- The new current directory on success. -/
def dplChdir (env : Env) (st : Store) (p : Path) : Status × Option Path :=
  match env.remote (.chdir p) with
  | .success =>
    match st.ftype? p with
    | none => (.enoent, none)
    | some .dir => (.success, some p)
    | some _ => (enotdir, none)
  | rc => (rc, none)

/-- `dpl_opendir(".")` and the names `dpl_readdir` then returns. -/
def dplOpendir (env : Env) (st : Store) (cwd : Path) : Status × List CStr :=
  match env.remote (.opendir cwd) with
  | .success =>
    (.success, ['.'] :: ['.', '.'] :: (st.children cwd).map (st.direntName cwd))
  | rc => (rc, [])

end DropletFs
