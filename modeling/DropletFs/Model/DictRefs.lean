import DropletFs.Framework.RefStore
import DropletFs.Model.Open

/-! The dictionaries of entries behind pointers: `pentry_set_usermd`, and `dfs_create` from the
point where the file is open, with the dictionaries they read and free. -/

namespace DropletFs

open CText

abbrev DictStore := RefStore.Store Dict

/-- An access to freed memory in the terms of the callbacks. -/
def memFault : RefStore.MemFault → Fault
  | .freed => .useAfterFree
  | .null => .nullDeref
  | .unfinished => .stackOverflow

/-- `pentry_set_usermd` on an entry with this dictionary: the return value, and the dictionary of
the entry afterwards. -/
def pentrySetUsermdRefs (env : Env) (ds : DictStore) (usermd : Option RefStore.Ref)
    (dict : RefStore.Ref) : Except RefStore.MemFault (Int × Option RefStore.Ref × DictStore) := do
  let ds ← ds.freeOpt usermd
  if !env.lib .usermdDict then .ok (-1, none, ds)
  else
    let (r, ds) := ds.alloc Dict.empty
    let src ← ds.read dict
    if !env.lib .usermdCopy then .ok (-1, some r, ds)
    else
      let ds ← ds.write r src
      .ok (0, some r, ds)

/-- `dfs_create` from `fill_metadata_from_stat` up to `pentry_set_usermd`, with the dictionary
`usermd` points to. -/
def createFill (env : Env) (mode : Nat) (stat : Stat) (own : Option RefStore.Ref)
    (usermd : RefStore.Ref) (ds : DictStore) :
    Except RefStore.MemFault (Option RefStore.Ref × DictStore) := do
  let md ← ds.read usermd
  let md := fillMetadataFromStat env md stat
  let ds ← ds.write usermd (assignMetaToDict (env.lib .updateMode) md .mode mode)
  let (_, own, ds) ← pentrySetUsermdRefs env ds own usermd
  .ok (own, ds)

/-- `dfs_create` from there on: `own` is the dictionary of the entry, and `usermd` the one that is
freed at the end. -/
def createStore (env : Env) (st : Store) (fs : LocalFs) (path : Path) (mode : Nat)
    (exclude : Bool) (pe : Entry) (stat : Stat) (own : Option RefStore.Ref)
    (usermd : RefStore.Ref) (ds : DictStore) :
    Except Fault (Int × Entry × LocalFs × Store × Option RefStore.Ref × DictStore) := do
  let pe ← pentryMdLock pe
  let (own, ds) ← (createFill env mode stat own usermd ds).mapError memFault
  let pe := pentryMdUnlock pe
  let res := if exclude then (.success, st) else dplMknod env st path
  let ds ← (ds.free usermd).mapError memFault
  .ok (if res.1 = .success then 0 else -1, pe, fs, res.2, own, ds)

/-- `dfs_create` on the entry `dfs_open` has handed over, with `own` its dictionary. -/
def createOpenedRefs (env : Env) (st : Store) (fs : LocalFs) (path : Path) (mode : Nat)
    (exclude : Bool) (pe : Entry) (own : Option RefStore.Ref) (ds : DictStore) :
    Except Fault (Int × Entry × LocalFs × Store × Option RefStore.Ref × DictStore) :=
  let pe := { pe with exclude := exclude }
  match pe.fd with
  | none => .ok (-1, pe, fs, st, own, ds)
  | some fd =>
    match env.sys .fchmodCreate, (fs.fchmod fd mode).fstat fd env.times with
    | some e, _ => .ok (-e.num, pe, fs, st, own, ds)
    | none, none => .ok (-Errno.ebadf.num, pe, fs, st, own, ds)
    | none, some stat =>
      let fs := fs.fchmod fd mode
      match env.sys .fstatCreate with
      | some e => .ok (-e.num, pe, fs, st, own, ds)
      | none =>
        match own with
        | some usermd => createStore env st fs path mode exclude pe stat own usermd ds
        | none =>
          if !env.lib .createDict then .ok (-1, pe, fs, st, own, ds)
          else
            let (usermd, ds) := ds.alloc Dict.empty
            createStore env st fs path mode exclude pe stat own usermd ds

end DropletFs
