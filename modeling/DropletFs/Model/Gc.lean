import DropletFs.Model.Release

/-! `gc.c`. -/

namespace DropletFs

open CText

/-- The age test: the file stays when all three of its times are recent enough. -/
def gcKeeps (cx : Ctx) (env : Env) (pe : Entry) (st : Stat) : Bool :=
  let threshold := if pe.exclude then cx.conf.gcAgeThreshold * 10 else cx.conf.gcAgeThreshold
  decide ((env.now : Int) < st.atime + threshold) &&
    decide ((env.now : Int) < st.mtime + threshold) &&
    decide ((env.now : Int) < st.ctime + threshold)

/-- Whether `gc_callback` goes to `remove:` for an entry whose lock it has taken. -/
def gcRemoves (cx : Ctx) (env : Env) (fs : LocalFs) (pe : Entry) : Bool :=
  match pe.fd with
  | none => false
  | some fd =>
    match env.sys .fstatGc, fs.fstat fd env.times with
    | none, some st => !gcKeeps cx env pe st
    | _, _ => true

/-- The label `remove:` of `gc_callback`: the entry goes even if its cache file stays. -/
def gcRemove (cx : Ctx) (env : Env) (s : World) (path : Path) : World :=
  let localname := tmpstr (cx.conf.cacheDir ++ ['/'] ++ path)
  { s with fs := s.fs.tryUnlink env .unlinkGc localname }.hashRemove path

/-- `gc_callback` for the cell of a path. -/
def gcCallback (cx : Ctx) (env : Env) (s : World) (path : Path) : World :=
  match s.entry path with
  | none => s
  | some pe =>
    if pe.refcount ≠ 0 then s
    else if pe.locked then s
    else if gcRemoves cx env s.fs pe then gcRemove cx env s path
    else s

end DropletFs
