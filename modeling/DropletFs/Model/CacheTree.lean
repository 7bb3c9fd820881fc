import DropletFs.Framework.DirTree
import DropletFs.Framework.Paths
import DropletFs.Model.Open
import DropletFs.Model.Conf

/-! `build_cache_tree` and `mkdir_tree` with the local directories they look at and make. -/

namespace DropletFs

open CText

abbrev LocalDirs := DirTree.Tree CStr

/-- `.`, `..`, or a name. -/
def pathStep (x : CStr) : DirTree.Step CStr :=
  if x = ['.'] then .stay else if x = ['.', '.'] then .up else .down x

def pathSteps (path : CStr) : List (DirTree.Step CStr) := (segments path).map pathStep

/-- Where the resolution of a path starts. -/
def pathStart (cwd : List CStr) (path : CStr) : List CStr :=
  if path.head? = some '/' then [] else cwd

def sysStat (t : LocalDirs) (cwd : List CStr) (path : CStr) : DirTree.Answer :=
  if path = [] then .enoent else t.stat (pathStart cwd path) (pathSteps path)

/-- `mkdir`: the directories afterwards, and the one it made. -/
def sysMkdir (allow : List CStr → Bool) (t : LocalDirs) (cwd : List CStr) (path : CStr) :
    LocalDirs × List (List CStr) :=
  t.mkdir allow (pathStart cwd path) (pathSteps path)

/-- `dirname`. -/
def dirname (path : CStr) : CStr :=
  match beforeLastSlash (stripSlashes path) with
  | none => if path.head? = some '/' then ['/'] else ['.']
  | some dir => if stripSlashes dir = [] then ['/'] else stripSlashes dir

/-- The directories, and those made so far. -/
structure Making where
  dirs : LocalDirs
  made : List (List CStr)

/-- `MKDIR`, which logs a failure and goes on. -/
def Making.mkdir (m : Making) (allow : List CStr → Bool) (cwd : List CStr) (path : CStr) :
    Making :=
  let res := sysMkdir allow m.dirs cwd path
  ⟨res.1, m.made ++ res.2⟩

/-- The loop of `mkdir_tree` with `p` at an offset of the buffer: the buffer and the directories
when it ends. -/
def mkdirTreeLoop (allow : List CStr → Bool) (cwd : List CStr) :
    Nat → Nat → List Char → Making → List Char × Making
  | 0, _, tmp, m => (tmp, m)
  | fuel + 1, p, tmp, m =>
    if tmp[p]? = none ∨ tmp[p]? = some nul then (tmp, m)
    else if tmp[p]? = some '/' then
      let cut := tmp.set p nul
      mkdirTreeLoop allow cwd fuel (p + 1) (cut.set p '/') (m.mkdir allow cwd (cstr cut))
    else mkdirTreeLoop allow cwd fuel (p + 1) tmp m

def mkdirTree (allow : List CStr → Bool) (cwd : List CStr) (t : LocalDirs) (dir : CStr) : Making :=
  let tmp := tmpstr dir ++ [nul]
  let res := mkdirTreeLoop allow cwd tmp.length 1 tmp ⟨t, []⟩
  res.2.mkdir allow cwd (cstr res.1)

/-- `build_cache_tree`: the name it returns, unless `strdup` fails, and the directories. -/
def buildCacheTreeDirs (cx : Ctx) (strdup : Bool) (allow : List CStr → Bool) (cwd : List CStr)
    (t : LocalDirs) (path : Path) : Option Path × Making :=
  let name := buildCacheTree cx path
  if strdup then
    let dir := tmpstr (dirname name)
    (some name, if sysStat t cwd dir = .enoent then mkdirTree allow cwd t dir else ⟨t, []⟩)
  else (none, ⟨t, []⟩)

end DropletFs
