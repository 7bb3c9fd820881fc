import Mathlib.Algebra.Group.Int.Defs
import Mathlib.Algebra.GroupWithZero.Nat
import Mathlib.Data.List.AList
import DropletFs.Framework.Text

/-! Data shared by the callbacks: statuses, dictionaries, objects, configuration, and
the replies the environment gives to the calls a callback makes. -/

namespace DropletFs

open CText

abbrev Path := CStr
abbrev Bytes := List UInt8
abbrev Addr := Nat

/-- `dpl_status_t`. Zero is success and every failure is negative; `failure` is the
only one whose code is `-1`. -/
inductive Status
  | success
  | failure
  | enoent
  | einval
  | eisdir
  | other (n : Nat)
  deriving DecidableEq, Repr

def Status.code : Status → Int
  | success => 0
  | failure => -1
  | enoent => -2
  | einval => -3
  | eisdir => -12
  | other n => -(n : Int) - 13

theorem Status.code_eq_zero {rc : Status} : rc.code = 0 ↔ rc = .success := by
  cases rc <;> simp [Status.code]
  omega

theorem Status.code_nonpos (rc : Status) : rc.code ≤ 0 := by
  cases rc <;> simp only [Status.code] <;> omega

/-- `dpl_ftype_t`. -/
inductive FType
  | reg
  | dir
  | other
  deriving DecidableEq, Repr

/-- `tpath_type`, and what memory that was not set holds beside its values. -/
inductive TPathType
  | reg
  | dir
  | symlink
  | unnamed
  deriving DecidableEq, Repr

/-- The `ondisk` field. -/
inductive OnDisk
  | loc
  | remote
  | unset
  deriving DecidableEq, Repr

/-- The `flag` field. -/
inductive Flag
  | clean
  | dirty
  deriving DecidableEq, Repr

/-- `flags & O_ACCMODE`; `other` is the fourth value of the two bits. -/
inductive AccMode
  | rdonly
  | wronly
  | rdwr
  | other
  deriving DecidableEq, Repr

def AccMode.canRead : AccMode → Bool
  | rdonly | rdwr => true
  | wronly | other => false

def AccMode.canWrite : AccMode → Bool
  | wronly | rdwr => true
  | rdonly | other => false

/-- The bits of `open(2)` flags the program looks at. -/
structure OpenFlags where
  acc : AccMode
  append : Bool
  creat : Bool
  trunc : Bool
  deriving DecidableEq, Repr

inductive Errno
  | eperm
  | enoent
  | ebadf
  | other (n : Nat)
  deriving DecidableEq, Repr

def Errno.num : Errno → Int
  | eperm => 1
  | enoent => 2
  | ebadf => 9
  | other n => n + 10

theorem Errno.neg_num_lt (e : Errno) : -e.num < 0 := by
  cases e <;> simp [Errno.num]
  omega

/-- Keys of the metadata dictionaries; `other` is any key the program never names. -/
inductive MdKey
  | mode | size | uid | gid | atime | mtime | ctime
  | symlink | compression | cipher | cipherType
  | other (name : CStr)
  deriving DecidableEq, Repr

/-- `dpl_dict_t`: the value last stored for each key. -/
abbrev Dict := MdKey → Option CStr

def Dict.empty : Dict := fun _ => none

/-- `dpl_dict_update_value`. -/
def Dict.set (d : Dict) (k : MdKey) (v : CStr) : Dict := Function.update d k (some v)

/-- What the store keeps under a key. `meta` is the part of the headers under the
`x-amz-meta-` prefix. -/
structure Obj where
  ftype : FType
  data : Bytes
  userMeta : Dict
  contentLength : Option CStr
  etag : Option CStr

/-- The remote bucket, in listing order. -/
abbrev Store := AList (fun _ : Path => Obj)

/-- `struct stat`, without the fields the program never sets. -/
structure Stat where
  mode : Nat
  size : Int
  uid : Nat
  gid : Nat
  atime : Int
  mtime : Int
  ctime : Int
  nlink : Nat
  deriving DecidableEq, Repr

/-- `memset(st, 0, sizeof *st)`. -/
def Stat.zero : Stat := ⟨0, 0, 0, 0, 0, 0, 0, 0⟩

/-- The fields of `struct conf` the file system callbacks read; `regex` is the
compiled exclusion pattern, matching nothing when it is not set. -/
structure Conf where
  cacheDir : Path
  rootDir : Path
  compressionMethod : CStr
  zlibLevel : Int
  encryptionMethod : CStr
  gcAgeThreshold : Int
  regex : Path → Bool

/-- zlib and the cipher of libdroplet. Decompression undoes compression and rejects
an empty stream; decryption undoes encryption. -/
structure Codec where
  zip : Int → Bytes → Option Bytes
  unzip : Bytes → Option Bytes
  encrypt : Bytes → Bytes
  decrypt : Bytes → Bytes
  md5 : Bytes → CStr
  unzip_zip : ∀ level b z, zip level b = some z → unzip z = some b
  unzip_nil : unzip [] = none
  decrypt_encrypt : ∀ b, decrypt (encrypt b) = b

/-- What every callback reads and none writes. -/
structure Ctx where
  conf : Conf
  codec : Codec

/-- Calls to the remote side, each with the arguments that tell it from the others of
the same callback. -/
inductive RemoteCall
  | namei (path : Path)
  | getattr (path : Path)
  | getattrRaw (path : Path)
  | headAll (path : Path)
  | setattr (path : Path)
  | mknod (path : Path)
  | mkdir (path : Path)
  | unlink (path : Path)
  | rmdir (path : Path)
  | fcopy (oldpath newpath : Path)
  | chdir (path : Path)
  | opendir (path : Path)
  | openread (path : Path)
  | openwrite (path : Path)
  | write (path : Path) (block : Nat)
  | close (path : Path)
  deriving DecidableEq

/-- System calls and stdio calls, one constructor for each place that makes one. An `lseek` back
to the start of an open regular file has none: it cannot fail. -/
inductive SysCall
  | openCache
  | unlinkOld | openDownload | fchmodDownload | writeDownload
  | fopenCompressed | fopenScratch | unzip | renameScratch | reopenDownload
  | fcloseScratch | closeDownload | openLocal
  | fstatRelease | fopenSource | fopenZipped | zip | fflushZipped | fileno | fstatZipped
  | readBlock (block : Nat)
  | unlinkScratch
  | unlinkCache (path : Path)
  | fchmodCreate | fstatCreate | fstatLocal
  | fstatGc | unlinkGc
  | unlinkDestroy (path : Path)
  | pread | pwrite | fchmod | fchown
  deriving DecidableEq

/-- Allocations and dictionary operations that can fail, by place. -/
inductive LibCall
  | pentryNew | strdupKey
  | metadataDict | metadataFromHeaders | usermdDict | usermdCopy
  | markUncompressed | releaseDict | markCompressed
  | createDict | getattrDict | filterPrefix
  | symlinkDict | symlinkAdd | symlinkSize
  | updateMeta (key : MdKey) | updateMode | addSize
  deriving DecidableEq

/-- The memory of a new entry, where `pentry_new` sets nothing. -/
structure RawEntry where
  filetype : TPathType
  digest : CStr
  atime : Int

/-- The outcomes one callback meets. A remote call answered `success` is carried out
by the store; any other status leaves the store as it is. -/
structure Env where
  remote : RemoteCall → Status
  sys : SysCall → Option Errno
  lib : LibCall → Bool
  /-- What the path field of a freed entry reads as; `none` when the access traps. -/
  stale : Path → Option CStr
  /-- An uninitialised `dpl_ftype_t`. -/
  junk : Path → FType
  /-- The memory that `malloc` hands out for the entry of a path. -/
  raw : Path → RawEntry
  now : Nat
  /-- `st_atime`, `st_mtime` and `st_ctime` of the cache file looked at. -/
  times : Int × Int × Int
  /-- How much of a write goes through; all of it when `none`. -/
  cut : Option Nat
  uid : Nat
  gid : Nat
  /-- How many nested activations of a callback's recursion the stack holds. -/
  stack : Nat

/-- The type that an entry has when nothing sets it. -/
abbrev Env.rawType (env : Env) (path : Path) : TPathType := (env.raw path).filetype

/-- Every call goes through. -/
def Env.quiet : Env where
  remote _ := .success
  sys _ := none
  lib _ := true
  stale _ := none
  junk _ := .other
  raw _ := ⟨.unnamed, [], 0⟩
  now := 0
  times := (0, 0, 0)
  cut := none
  uid := 0
  gid := 0
  stack := 64

structure Env.RemoteOk (env : Env) : Prop where
  remote : ∀ c, env.remote c = .success

structure Env.AllOk (env : Env) : Prop extends Env.RemoteOk env where
  sys : ∀ c, env.sys c = none
  lib : ∀ c, env.lib c = true
  cut : env.cut = none

theorem Env.quiet_allOk : Env.quiet.AllOk :=
  ⟨⟨fun _ => rfl⟩, fun _ => rfl, fun _ => rfl, rfl⟩

/-- The part of a write that goes through. -/
def Env.written (env : Env) (buf : Bytes) : Bytes :=
  match env.cut with
  | none => buf
  | some n => buf.take n

/-- Undefined or fatal behaviour that ends a callback without a return value. -/
inductive Fault
  | useAfterFree
  | nullDeref
  | blocked
  | overlap
  | assertion
  | outOfBounds
  | stackOverflow
  deriving DecidableEq, Repr

/-- `TMPSTR_MAX` and `TMPSTR_NB`. -/
def tmpstrMax : Nat := 2048
def tmpstrNb : Nat := 32

end DropletFs
