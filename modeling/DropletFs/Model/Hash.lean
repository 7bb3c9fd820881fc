import DropletFs.Framework.Ring
import DropletFs.Model.Remote
import DropletFs.Model.LocalFs
import DropletFs.Model.Metadata

/-! `hash.c`, `tmpstr.c`: path entries, the table of entries and the ring of temporary
strings. -/

namespace DropletFs

open CText

/-- `tpath_entry`. A `fd` of `-1` is `none`; the mutexes are their locked bits. -/
structure Entry where
  fd : Option Nat
  path : Path
  digest : CStr
  usermd : Option Dict
  mdLocked : Bool
  locked : Bool
  refcount : Nat
  flag : Flag
  exclude : Bool
  filetype : TPathType
  dirent : List Path
  ondisk : OnDisk
  atime : Int

/-- `pentry_new` and `pentry_set_path`, and the type the entry is given or left with. Its digest
and its time are not set. -/
def pentryNew (env : Env) (path : Path) (type : TPathType) : Entry where
  fd := none
  path := path
  digest := (env.raw path).digest
  usermd := none
  mdLocked := false
  locked := false
  refcount := 0
  flag := .dirty
  exclude := false
  filetype := type
  dirent := []
  ondisk := .unset
  atime := (env.raw path).atime

/-- A string the program holds a pointer to: memory of the caller, or a slot of the
ring. -/
inductive Str
  | ext (text : CStr)
  | tmp (slot : Fin tmpstrNb)
  deriving DecidableEq

instance : NeZero tmpstrNb := ⟨by decide⟩

abbrev Ring := RingBuffer tmpstrNb CStr

def Str.read (r : Ring) : Str → CStr
  | ext text => text
  | tmp slot => r.slots slot

/-- What an observer of a rename sees: the texts of the two paths when an activation of
`rename_directory` starts and at each evaluation of its loop condition, the pair passed
down for an entry, and the directory a `dfs_rmdir` is called on with the entries the
store holds below it at that moment. -/
inductive Event
  | enter (oldpath newpath : Path)
  | iter (oldpath newpath : Path)
  | pass (src dst : Path)
  | rmdir (path : Path) (left : List CStr)
  deriving DecidableEq

/-- The state the callbacks share. `hash` maps a path to the address of its entry,
`heap` holds the entries not freed, and `brk` is above every address used so far. -/
structure World where
  store : Store
  cwd : Path
  hash : Path → Option Addr
  heap : Addr → Option Entry
  brk : Addr
  fs : LocalFs
  ring : Ring
  trace : List Event

/-- The entry behind a pointer. -/
def World.deref (s : World) (a : Addr) : Except Fault Entry :=
  match s.heap a with
  | some pe => .ok pe
  | none => .error .useAfterFree

def World.setEntry (s : World) (a : Addr) (pe : Entry) : World :=
  { s with heap := Function.update s.heap a (some pe) }

/-- The entry the table holds for a path. -/
def World.entry (s : World) (p : Path) : Option Entry := (s.hash p).bind s.heap

/-- Insert a new entry for `path`. -/
def World.insertEntry (s : World) (path : Path) (pe : Entry) : World :=
  { s with
    hash := Function.update s.hash path (some s.brk)
    heap := Function.update s.heap s.brk (some pe)
    brk := s.brk + 1 }

def World.log (s : World) (e : Event) : World := { s with trace := s.trace ++ [e] }

def World.text (s : World) (p : Str) : CStr := p.read s.ring

/-- `tmpstr_printf` of the concatenated arguments. Formatting a string into its own
buffer is undefined. -/
def World.tmpstrPrintf (s : World) (args : List Str) : Except Fault (Str × World) :=
  if .tmp s.ring.next ∈ args then .error .overlap
  else
    let text := snprintf tmpstrMax (args.flatMap s.text)
    .ok (.tmp s.ring.next, { s with ring := s.ring.push text })

/-- `tmpstr_printf` of a string used before the ring comes round to its slot again. -/
def tmpstr (text : CStr) : CStr := snprintf tmpstrMax text

/-- `pentry_unlink_cache_file`. -/
def World.pentryUnlinkCacheFile (cx : Ctx) (env : Env) (s : World) (pe : Entry) : World :=
  { s with
    fs := s.fs.tryUnlink env (.unlinkDestroy pe.path)
      (tmpstr (cx.conf.cacheDir ++ ['/'] ++ pe.path)) }

/-- `cb_hash_unlink` of `dfs_destroy`. -/
def World.cbHashUnlink (cx : Ctx) (env : Env) (s : World) (pe : Entry) : World :=
  if pe.ondisk = .loc then s.pentryUnlinkCacheFile cx env pe else s

/-- `populate_hash`, and the same steps written out in `dfs_getattr`, where the type is left as
it is in the memory. -/
def populateHash (env : Env) (s : World) (path : Path) (type : TPathType) :
    Option (Addr × World) :=
  if env.lib .pentryNew && env.lib .strdupKey then
    some (s.brk, s.insertEntry path (pentryNew env path type))
  else none

/-- `pentry_free`: the descriptor is closed and the memory given back. -/
def World.pentryFree (s : World) (a : Addr) : World :=
  match s.heap a with
  | some pe => { s with heap := Function.update s.heap a none, fs := s.fs.closeOpt pe.fd }
  | none => s

/-- `g_hash_table_remove`. -/
def World.hashRemove (s : World) (path : Path) : World :=
  match s.hash path with
  | some a => { s.pentryFree a with hash := Function.update s.hash path none }
  | none => s

/-- `list_remove` with string comparison: the first equal element goes. -/
def pentryRemoveDirent (pe : Entry) (path : Path) : Entry :=
  if pe.filetype = .dir then { pe with dirent := pe.dirent.erase path } else pe

def pentryAddDirent (pe : Entry) (path : Path) : Entry :=
  { pe with dirent := path :: pe.dirent }

/-- Update the entry of a path, if the table has one. -/
def World.onEntry (s : World) (path : Path) (f : Entry → Entry) : World :=
  match s.hash path with
  | some a =>
    match s.heap a with
    | some pe => s.setEntry a (f pe)
    | none => s
  | none => s

/-- `pentry_get_parent` on an entry whose path field reads as `path`: the key it looks
up. `dirname` is assigned for an entry of the root only; everywhere else it is still
`NULL` when it reaches the hash function. -/
def pentryGetParent (path : CStr) : Except Fault (Option Path) :=
  match beforeLastSlash path with
  | none => .ok none
  | some [] => .ok (some rootPath)
  | some _ => .error .nullDeref

def pentryMdLock (pe : Entry) : Except Fault Entry :=
  if pe.mdLocked then .error .blocked else .ok { pe with mdLocked := true }

def pentryMdUnlock (pe : Entry) : Entry := { pe with mdLocked := false }

def pentryUnlock (pe : Entry) : Entry := { pe with locked := false }

def pentryIncRefcount (pe : Entry) : Entry := { pe with refcount := pe.refcount + 1 }

/-- `sem_wait`. -/
def pentryDecRefcount (pe : Entry) : Except Fault Entry :=
  if pe.refcount = 0 then .error .blocked else .ok { pe with refcount := pe.refcount - 1 }

/-- `pentry_set_usermd` with a dictionary other than the entry's own. -/
def pentrySetUsermd (env : Env) (pe : Entry) (dict : Dict) : Int × Entry :=
  if !env.lib .usermdDict then (-1, { pe with usermd := none })
  else if !env.lib .usermdCopy then (-1, { pe with usermd := some Dict.empty })
  else (0, { pe with usermd := some dict })

end DropletFs
