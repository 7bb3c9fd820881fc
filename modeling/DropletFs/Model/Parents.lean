import DropletFs.Model.Getattr
import DropletFs.Model.Rename

/-! The three functions that look for the parent of a path, with the keys they look up and the
bytes they leave of the string they cut. -/

namespace DropletFs

open CText

/-- `hash_fill_dirent` on the bytes of its path. Without an entry for the directory it returns
with the path cut. -/
def hashFillDirentBytes (s : World) (path : CStr) : List (Option CStr) × World × CStr :=
  match strrchr path with
  | none => ([], s, path)
  | some p =>
    let path := if p = 0 then path else path.set p nul
    let dirname := if p = 0 then rootPath else cstr path
    match s.hash dirname with
    | none => ([some dirname], s, path)
    | some _ =>
      let path := if path[p]? = some nul then path.set p '/' else path
      ([some dirname], s.onEntry dirname fun dir => pentryAddDirent dir (cstr path), path)

/-- `pentry_get_parent` on an entry of the path: the key it looks up, `NULL` being `none`, and
the entry found. -/
def pentryGetParentBytes (s : World) (path : CStr) :
    List (Option CStr) × Except Fault (Option Addr) :=
  match strrchr (tmpstr path) with
  | none => ([], .ok none)
  | some p =>
    -- the other branch cuts the copy and leaves `dirname` as it is
    if p = 0 then ([some rootPath], .ok (s.hash rootPath)) else ([none], .error .nullDeref)

/-- `rename_file` on the bytes of its second path. -/
def renameFileBytes (cx : Ctx) (env : Env) (s : World) (oldpath newpath : CStr) :
    List (Option CStr) × Except Fault (Int × World) × CStr :=
  match dplFcopy env s.store oldpath newpath with
  | (.success, store) =>
    let s := { s with store := store }
    match strrchr newpath with
    | none => ([], dfsUnlink cx env s (.ext oldpath), newpath)
    | some p =>
      if p = 0 then ([], dfsUnlink cx env s (.ext oldpath), newpath)
      else
        let cut := newpath.set p nul
        let t := s.onEntry (cstr cut) fun dir => pentryRemoveDirent dir oldpath
        ([some (cstr cut)], dfsUnlink cx env t (.ext oldpath), cut.set p '/')
  | (_, store) => ([], .ok (-1, { s with store := store }), newpath)

end DropletFs
