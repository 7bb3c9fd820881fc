import DropletFs.Framework.Program
import DropletFs.Model.Rename

/-! `readdir.c`, `root_dir_preload`, and `rename.c` again, as the calls they make to libdroplet.
All requests share one context with one current directory; the paths here are values. -/

namespace DropletFs

open CText

/-- The calls of a listing and of a rename. `opendir` is `dpl_opendir(".")`; its argument is
the directory it is made for, which the call does not get to see. -/
inductive DplCall
  | chdir (path : Path)
  | opendir (made : Path)
  | namei (path : Path)
  | mkdir (path : Path)
  | fcopy (oldpath newpath : Path)
  | unlink (path : Path)
  | rmdir (path : Path)

/-- Status, type of the object for `dpl_namei`, names for `dpl_opendir`. -/
structure Reply where
  status : Status
  type : Option FType
  names : List CStr

/-- What an `opendir` has listed, next to the entries of the directory it was made for. -/
structure Listing (ι : Type) where
  party : ι
  made : Path
  names : List CStr
  entries : List CStr

/-- The store, the current directory of the context, and the listings so far. -/
structure Session (ι : Type) where
  store : Store
  cwd : Path
  log : List (Listing ι)

/-- The entries of a directory as `dpl_readdir` returns them. -/
def dirEntries (st : Store) (path : Path) : List CStr := (dplOpendir Env.quiet st path).2

/-- One call to libdroplet. -/
def Session.handle {ι : Type} (i : ι) (env : Env) (s : Session ι) :
    DplCall → Reply × Session ι
  | .chdir path =>
    let res := dplChdir env s.store path
    (⟨res.1, none, []⟩, { s with cwd := res.2.getD s.cwd })
  | .opendir made =>
    match dplOpendir env s.store s.cwd with
    | (.success, names) =>
      (⟨.success, none, names⟩,
        { s with log := s.log ++ [⟨i, made, names, dirEntries s.store made⟩] })
    | (rc, _) => (⟨rc, none, []⟩, s)
  | .namei path =>
    let res := dplNamei env s.store path
    (⟨res.1, res.2, []⟩, s)
  | .mkdir path =>
    let res := dplMkdir env s.store path
    (⟨res.1, none, []⟩, { s with store := res.2 })
  | .fcopy oldpath newpath =>
    let res := dplFcopy env s.store oldpath newpath
    (⟨res.1, none, []⟩, { s with store := res.2 })
  | .unlink path =>
    let res := dplUnlink env s.store path
    (⟨res.1, none, []⟩, { s with store := res.2 })
  | .rmdir path =>
    let res := dplRmdir env s.store path
    (⟨res.1, none, []⟩, { s with store := res.2 })

/-- What a request meets outside libdroplet. -/
structure Locals where
  /-- `conf->max_retry`. -/
  maxRetry : Int
  /-- Whether `dfs_mkdir` finds or adds the table's entry. -/
  cell : Path → Bool
  /-- What the end of `dfs_unlink` comes to. -/
  dropEntry : Path → Except Fault Unit
  junk : Path → FType

abbrev Request (α : Type) := Program DplCall Reply Fault α

section Requests

variable (loc : Locals)

/-- A wrapper of `timeout.c`: the call is made again until it succeeds or returns `stop`. -/
def Locals.timeout (stop : Status) (c : DplCall) : Request Reply :=
  Program.retry (fun r => r.status = .success || r.status = stop) c loc.maxRetry.toNat

def Locals.chdirTimeout (path : Path) : Request Reply := loc.timeout .einval (.chdir path)
def Locals.opendirTimeout (made : Path) : Request Reply := loc.timeout .enoent (.opendir made)
def Locals.nameiTimeout (path : Path) : Request Reply := loc.timeout .enoent (.namei path)

/-- The loop of `dfs_readdir`: it ends when `fill` returns anything but 0. -/
def fillNames (fill : Nat → CStr → Int) : Nat → List CStr → List CStr
  | _, [] => []
  | k, name :: names => if fill k name ≠ 0 then [] else name :: fillNames fill (k + 1) names

/-- `dfs_readdir`: return value and the names in the buffer. -/
def readdirRequest (fill : Nat → CStr → Int) (path : Path) : Request (Int × List CStr) := do
  let r ← loc.chdirTimeout path
  if r.status ≠ .success then pure (r.status.code, [])
  else
    let r ← loc.opendirTimeout path
    if r.status ≠ .success then pure (r.status.code, [])
    else pure (0, fillNames fill 0 r.names)

/-- `root_dir_preload` of `cachedir.c`: the names it pushes to the pool. -/
def preloadRequest : Request (Int × List CStr) := do
  let r ← loc.chdirTimeout rootPath
  if r.status ≠ .success then pure (r.status.code, [])
  else
    let r ← loc.opendirTimeout rootPath
    if r.status ≠ .success then pure (r.status.code, [])
    else pure (0, r.names.map fun name => tmpstr (rootPath ++ name))

def mkdirRequest (path : Path) : Request Int := do
  let r ← loc.timeout .enoent (.mkdir path)
  if r.status ≠ .success then pure (-1) else pure (if loc.cell path then 0 else -1)

def unlinkRequest (path : Path) : Request Int := do
  let r ← loc.timeout .enoent (.unlink path)
  if r.status ≠ .success then pure 1
  else
    match loc.dropEntry path with
    | .ok () => pure 0
    | .error x => .fail x

def renameFileRequest (oldpath newpath : Path) : Request Int := do
  let r ← loc.timeout .enoent (.fcopy oldpath newpath)
  if r.status ≠ .success then pure (-1) else unlinkRequest loc oldpath

/-- The path of an entry of a directory. -/
def entryPath (dir : Path) (name : CStr) : Path := chopSlash (tmpstr (dir ++ ['/'] ++ name))

/-- The loop of `rename_directory`; `type` and `ret` keep their values from one iteration to
the next. -/
def entriesRequest (renameDir : Path → Path → Request Int) (oldpath newpath : Path) :
    List CStr → FType → Int → Request Int
  | [], _, ret => pure ret
  | name :: names, type, ret =>
    if name = ['.'] ∨ name = ['.', '.'] then
      entriesRequest renameDir oldpath newpath names type ret
    else do
      let src := entryPath oldpath name
      let dst := entryPath newpath name
      let r ← loc.nameiTimeout src
      if r.status ≠ .success ∧ r.status ≠ .enoent then pure (-1)
      else do
        let type := r.type.getD type
        let ret ← (if type = .dir then renameDir src dst else renameFileRequest loc src dst)
        entriesRequest renameDir oldpath newpath names type ret

/-- `rename_directory`; the first argument bounds the depth of the recursion. -/
def renameDirectoryRequest : Nat → Path → Path → Request Int
  | 0, _, _ => .fail .stackOverflow
  | depth + 1, oldpath, newpath => do
    let r ← loc.nameiTimeout newpath
    if r.status ≠ .success ∧ r.status ≠ .enoent then pure (-1)
    else do
      let made ← (if r.status = .enoent then mkdirRequest loc newpath else pure 0)
      if made ≠ 0 then pure (-1)
      else do
        let rc ← loc.chdirTimeout oldpath
        if rc.status ≠ .success then pure rc.status.code
        else do
          let rd ← loc.opendirTimeout oldpath
          if rd.status ≠ .success then pure rd.status.code
          else do
            let ret ← entriesRequest loc (renameDirectoryRequest depth) oldpath newpath rd.names
              (r.type.getD (loc.junk oldpath)) 0
            if ret = -1 then pure (-1)
            else do
              let _ ← loc.timeout .enoent (.rmdir oldpath)
              pure 0

/-- `dfs_rename`. -/
def renameRequest (depth : Nat) (oldpath newpath : Path) : Request (Int × List CStr) := do
  let newpath := renameTarget oldpath newpath
  let r ← loc.nameiTimeout oldpath
  let type := r.type.getD (loc.junk oldpath)
  if type = .other then pure (-1, [])
  else do
    let ret ← (if type = .dir then renameDirectoryRequest loc depth oldpath newpath
      else renameFileRequest loc oldpath newpath)
    pure (if ret = -1 then -1 else 0, [])

end Requests

/-- The requests that list directories. -/
inductive Job
  | readdir (fill : Nat → CStr → Int) (path : Path)
  | rename (depth : Nat) (oldpath newpath : Path)
  | preload

def Job.request (loc : Locals) : Job → Request (Int × List CStr)
  | readdir fill path => readdirRequest loc fill path
  | rename depth oldpath newpath => renameRequest loc depth oldpath newpath
  | preload => preloadRequest loc

/-- Requests on one context. -/
abbrev Context (ι : Type) := Parties (Session ι) ι DplCall Reply Fault (Int × List CStr)

/-- The context when the requests come in. -/
def Context.init {ι : Type} (store : Store) (cwd : Path) (loc : ι → Locals) (jobs : ι → Job) :
    Context ι :=
  ⟨⟨store, cwd, []⟩, fun i => (jobs i).request (loc i)⟩

/-- One request makes its next call. -/
def Context.step {ι : Type} [DecidableEq ι] (s : Context ι) (e : ι × Env) :
    Except Fault (Context ι) := Parties.step Session.handle s e

end DropletFs
