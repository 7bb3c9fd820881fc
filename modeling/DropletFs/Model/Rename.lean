import DropletFs.Model.Namespace

/-! `rename.c`. -/

namespace DropletFs

open CText

/-- The directory part of `newpath`, unless the last slash is its first character. -/
def renameDirname (newpath : CStr) : Option Path :=
  match beforeLastSlash newpath with
  | none => none
  | some [] => none
  | some dirname => some dirname

/-- The entry looked up is the one of `newpath`'s directory; `oldpath` goes from its
list. -/
def renameFile (cx : Ctx) (env : Env) (s : World) (oldpath newpath : Str) :
    Except Fault (Int × World) :=
  match dplFcopy env s.store (s.text oldpath) (s.text newpath) with
  | (.success, store) =>
    let s := { s with store := store }
    let s := match renameDirname (s.text newpath) with
      | some dirname => s.onEntry dirname fun dir => pentryRemoveDirent dir (s.text oldpath)
      | none => s
    dfsUnlink cx env s oldpath
  | (_, store) => .ok (-1, { s with store := store })

/-- Overwrite a string in place. -/
def World.poke (s : World) (p : Str) (text : CStr) : World :=
  match p with
  | .ext _ => s
  | .tmp slot => { s with ring := s.ring.set slot text }

/-- `if ('/' == p[strlen(p) - 1]) p[strlen(p) - 1] = 0`. -/
def chopSlash (text : CStr) : CStr :=
  if text.getLast? = some '/' then text.dropLast else text

/-- The two paths of an entry, without the slash that ends a directory's name. -/
def World.entryPaths (s : World) (oldpath newpath : Str) (name : CStr) :
    Except Fault (Str × Str × World) := do
  let (src, s) ← s.tmpstrPrintf [oldpath, .ext ['/'], .ext name]
  let (dst, s) ← s.tmpstrPrintf [newpath, .ext ['/'], .ext name]
  let s := s.poke src (chopSlash (s.text src))
  let s := s.poke dst (chopSlash (s.text dst))
  .ok (src, dst, s)

/-- The file or directory branch of the loop body. -/
abbrev Rename := World → Str → Str → Except Fault (Int × World)

/-- The loop of `rename_directory` over the entries not read yet. `type` and `ret` keep
their values from one iteration to the next. -/
def renameEntries (cx : Ctx) (env : Env) (renameDir : Rename) (oldpath newpath : Str) :
    List CStr → World → FType → Int → Except Fault (Int × World)
  | [], s, _, ret => .ok (ret, s.log (.iter (s.text oldpath) (s.text newpath)))
  | name :: names, s, type, ret =>
    let s := s.log (.iter (s.text oldpath) (s.text newpath))
    if name = ['.'] ∨ name = ['.', '.'] then
      renameEntries cx env renameDir oldpath newpath names s type ret
    else do
      let (src, dst, s) ← s.entryPaths oldpath newpath name
      let (rc, found) := dplNamei env s.store (s.text src)
      if rc ≠ .success ∧ rc ≠ .enoent then .ok (-1, s)
      else do
        let type := found.getD type
        let s := s.log (.pass (s.text src) (s.text dst))
        let (ret, s) ← if type = .dir then renameDir s src dst else renameFile cx env s src dst
        renameEntries cx env renameDir oldpath newpath names s type ret

/-- `rename_directory` up to its loop: the value it returns when it goes to `err`, else
`type` and the names to read. -/
def renameSetup (env : Env) (s : World) (oldpath newpath : Path) :
    Except Int (FType × List CStr) × World :=
  let (rc, found) := dplNamei env s.store newpath
  if rc ≠ .success ∧ rc ≠ .enoent then (.error (-1), s)
  else
    let (made, s) := if rc = .enoent then dfsMkdir env s newpath else (0, s)
    if made ≠ 0 then (.error (-1), s)
    else match dplChdir env s.store oldpath with
      | (.success, cwd) =>
        let s := { s with cwd := cwd.getD s.cwd }
        match dplOpendir env s.store s.cwd with
        | (.success, names) => (.ok (found.getD (env.junk oldpath), names), s)
        | (rc, _) => (.error rc.code, s)
      | (rc, _) => (.error rc.code, s)

/-- `rename_directory`; the first argument bounds the depth of the recursion. -/
def renameDirectory (cx : Ctx) (env : Env) : Nat → Rename
  | 0, _, _, _ => .error .stackOverflow
  | depth + 1, s, oldpath, newpath =>
    let s := s.log (.enter (s.text oldpath) (s.text newpath))
    match renameSetup env s (s.text oldpath) (s.text newpath) with
    | (.error ret, s) => .ok (ret, s)
    | (.ok (type, names), s) => do
      let (ret, s) ← renameEntries cx env (renameDirectory cx env depth) oldpath newpath names s
        type 0
      if ret = -1 then .ok (-1, s)
      else do
        let (_, s) ← dfsRmdir cx env s oldpath
        .ok (0, s)

/-- `newpath` when it is `"."`. -/
def renameTarget (oldpath newpath : Path) : Path :=
  if newpath = ['.'] then
    match beforeLastSlash oldpath with
    | some dirname => oldpath.drop (dirname.length + 1)
    | none => oldpath
  else newpath

/-- `dfs_rename`. `! DPL_SUCCESS == rc` is `rc == 1`, so no failure of the lookup is
seen, and of the handler's return values only `-1` is passed on. -/
def dfsRename (cx : Ctx) (env : Env) (s : World) (oldpath newpath : Path) :
    Except Fault (Int × World) := do
  let newpath := renameTarget oldpath newpath
  let (_, found) := dplNamei env s.store oldpath
  match found.getD (env.junk oldpath) with
  | .other => .ok (-1, s)
  | type =>
    let (ret, s) ← if type = .dir
      then renameDirectory cx env env.stack s (.ext oldpath) (.ext newpath)
      else renameFile cx env s (.ext oldpath) (.ext newpath)
    .ok (if ret = -1 then -1 else 0, s)

end DropletFs
