import DropletFs.Model.Hash

/-! `file.c`: moving file data between the cache and the remote store. -/

namespace DropletFs

open CText

/-- `strncasecmp(s, lit, strlen(lit)) == 0` for a lower case `lit`. -/
def startsWithNoCase (s lit : CStr) : Bool := (s.take lit.length).map Char.toLower = lit

/-- `strncmp(s, lit, strlen(lit)) == 0`. -/
def startsWith (s lit : CStr) : Bool := s.take lit.length = lit

def textZlib : CStr := ['z', 'l', 'i', 'b']
def textNone : CStr := ['n', 'o', 'n', 'e']
def textAes : CStr := ['a', 'e', 's']
def textYes : CStr := ['y', 'e', 's']
def textAes256Cfb : CStr := ['a', 'e', 's', '-', '2', '5', '6', '-', 'c', 'f', 'b']
def tmpSuffix : CStr := ['.', 't', 'm', 'p']

/-- `download_headers`. A failed `HEAD` is reported as `1`, which no caller tests for. -/
def downloadHeaders (env : Env) (st : Store) (remote : Path) : Int × Option Headers :=
  match (dplNamei env st remote).1 with
  | .success =>
    match dplHeadAll env st remote with
    | (.success, h) => (0, h)
    | _ => (1, none)
  | _ => (-1, none)

def md5DigestLength : Nat := 16

def compareDigests (pe : Entry) (headers : Headers) : Int × Entry :=
  if pe.ondisk ≠ .loc then (-1, pe)
  else match headers.etag with
    | none => (-1, pe)
    | some remote =>
      if pe.digest.take md5DigestLength = remote.take md5DigestLength then (0, pe)
      else (-1, { pe with digest := remote.take md5DigestLength })

/-- `check_encryption_flag`: whether `DPL_VFILE_FLAG_ENCRYPT` is returned. -/
def checkEncryptionFlag (metadata : Dict) : Bool :=
  match metadata .cipher, metadata .cipherType with
  | some cipher, some _ =>
    -- only `ret = 0` depends on the comparison: the `goto end` below it is always taken
    let ret := if startsWithNoCase cipher textYes then false else false
    ret
  | _, _ => false

@[simp] theorem checkEncryptionFlag_eq_false (metadata : Dict) :
    checkEncryptionFlag metadata = false := by
  unfold checkEncryptionFlag
  cases metadata .cipher <;> cases metadata .cipherType <;> simp

/-- `dpl_openread`: status, bytes handed to the callback, metadata. -/
def dplOpenread (cx : Ctx) (env : Env) (st : Store) (p : Path) (encryption : Bool) :
    Status × Bytes × Dict :=
  match env.remote (.openread p) with
  | .success =>
    match st.lookup p with
    | none => (.enoent, [], Dict.empty)
    | some o =>
      if o.ftype = .dir then (.eisdir, [], Dict.empty)
      else (.success, if encryption then cx.codec.decrypt o.data else o.data, o.userMeta)
  | rc => (rc, [], Dict.empty)

/-- The end of `handle_compression`: the scratch file takes the place of the cache file,
which is opened again. -/
def adoptScratch (env : Env) (fs : LocalFs) (uzlocal locname : Path) (fd : Option Nat) :
    Int × Option Nat × LocalFs :=
  if env.lib .markUncompressed = false then (-1, fd, fs)
  else if env.sys .renameScratch ≠ none then (1, fd, fs)
  else
    let fs := (fs.rename uzlocal locname).closeOpt fd
    match env.sys .reopenDownload, fs.openFile locname ⟨.rdonly, false, false, false⟩ 0 with
    | none, some (fd, fs) => (0, some fd, fs)
    | _, _ => (-1, none, fs)

/-- The middle of `handle_compression`: `src` is decompressed into the scratch file. The
last buffer reaches that file when it is closed. -/
def unzipScratch (cx : Ctx) (env : Env) (fs : LocalFs) (src : Nat) (uzlocal locname : Path)
    (fd : Option Nat) : Int × Option Nat × LocalFs :=
  if env.sys .unzip ≠ none then (-1, fd, fs)
  else match cx.codec.unzip (fs.inodes src).data with
    | none => (-1, fd, fs)
    | some plain =>
      let flushed := if env.sys .fcloseScratch = none then plain else env.written plain
      adoptScratch env (fs.overwrite uzlocal flushed) uzlocal locname fd

/-- The file a cached object is decompressed into. -/
def scratchName (locname : Path) : Path := tmpstr (locname ++ tmpSuffix)

/-- `handle_compression`: return value, `get_data->fd` and the cache afterwards. -/
def handleCompression (cx : Ctx) (env : Env) (fs : LocalFs) (locname : Path)
    (fd : Option Nat) (metadata : Dict) : Int × Option Nat × LocalFs :=
  match metadata .compression with
  | none => (0, fd, fs)
  | some compressed =>
    if startsWith compressed textNone then (0, fd, fs)
    else if startsWith compressed textZlib = false then (-1, fd, fs)
    else match env.sys .fopenCompressed, fs.files (collapse locname) with
      | none, some src =>
        if env.sys .fopenScratch ≠ none then (-1, fd, fs)
        else unzipScratch cx env (fs.overwrite (scratchName locname) []) src
          (scratchName locname) locname fd
      | _, _ => (-1, fd, fs)

def rdwrCreatTrunc : OpenFlags := ⟨.rdwr, false, true, true⟩

/-- The end of `dfs_get_local_copy`: the file is opened again with the caller's flags. -/
def reopenLocal (env : Env) (fs : LocalFs) (locname : Path) (fd : Option Nat)
    (flags : OpenFlags) : Option Nat × LocalFs :=
  let fs := fs.closeOpt fd
  if env.sys .closeDownload ≠ none then (none, fs)
  else match env.sys .openLocal, fs.openFile locname flags 0o600 with
    | none, some (fd, fs) => (some fd, fs)
    | _, _ => (none, fs)

/-- `dpl_openread` into `fd`, and what follows it. -/
def receiveObject (cx : Ctx) (env : Env) (st : Store) (fs : LocalFs) (remote locname : Path)
    (encryption : Bool) (fd : Nat) (flags : OpenFlags) : Option Nat × LocalFs :=
  match dplOpenread cx env st remote encryption with
  | (.success, data, metadata) =>
    match env.sys .writeDownload, fs.inodeOf fd with
    | none, some i =>
      let res := handleCompression cx env (fs.writeInode i data) locname (some fd) metadata
      if res.1 = -1 then (none, res.2.2) else reopenLocal env res.2.2 locname res.2.1 flags
    | _, _ => (none, fs.close fd)
  | _ => (none, fs.close fd)

/-- A cache file that is there is removed; a failure to do so is only logged. -/
def removeOld (env : Env) (fs : LocalFs) (locname : Path) : LocalFs :=
  if (fs.files (collapse locname)).isSome ∧ env.sys .unlinkOld = none then fs.unlink locname
  else fs

/-- `dfs_get_local_copy` from the point where the old cache file is removed. -/
def fetchObject (cx : Ctx) (env : Env) (st : Store) (fs : LocalFs) (remote locname : Path)
    (metadata : Dict) (flags : OpenFlags) : Option Nat × LocalFs :=
  let fs := removeOld env fs locname
  match env.sys .openDownload, fs.openFile locname rdwrCreatTrunc 0o644 with
  | none, some (fd, fs) =>
    match metadata .mode with
    | some text =>
      if env.sys .fchmodDownload ≠ none then (none, fs.close fd)
      else receiveObject cx env st (fs.fchmod fd (toU32 (strtoull text))) remote locname
        (checkEncryptionFlag metadata) fd flags
    | none => receiveObject cx env st fs remote locname (checkEncryptionFlag metadata) fd flags
  | _, _ => (none, fs)

/-- The cache file of a path, as `dfs_get_local_copy` spells it. -/
def localName (cx : Ctx) (remote : Path) : Path := tmpstr (cx.conf.cacheDir ++ remote)

/-- `dfs_get_local_copy` once the headers are there. -/
def localCopy (cx : Ctx) (env : Env) (st : Store) (fs : LocalFs) (pe : Entry)
    (remote : Path) (flags : OpenFlags) (headers : Headers) :
    Except Fault (Option Nat × Entry × LocalFs) := do
  let pe ← pentryMdLock pe
  let (rc, pe) := pentrySetUsermd env pe headers.userMeta
  let pe := pentryMdUnlock pe
  if rc = -1 then .ok (none, pe, fs)
  else match compareDigests pe headers with
    | (0, pe) => .ok (pe.fd, pe, fs)
    | (_, pe) =>
      let res := fetchObject cx env st fs remote (localName cx remote) headers.userMeta flags
      .ok (res.1, pe, res.2)

/-- `dfs_get_local_copy`: the descriptor, and the entry and the cache afterwards. -/
def dfsGetLocalCopy (cx : Ctx) (env : Env) (st : Store) (fs : LocalFs) (pe : Entry)
    (remote : Path) (flags : OpenFlags) : Except Fault (Option Nat × Entry × LocalFs) :=
  match downloadHeaders env st remote with
  | (rc, headers) =>
    if rc = -1 ∨ env.lib .metadataDict = false then .ok (none, pe, fs)
    else match headers with
      | none => .error .nullDeref
      | some headers =>
        if env.lib .metadataFromHeaders = false then .ok (none, pe, fs)
        else localCopy cx env st fs pe remote flags headers

def writeBlockSize : Nat := 1000 * 1000

/-- `read_write_all_vfile` from block `k` on: whether it returns 0, and the bytes it has read
and passed to `dpl_write`, by which the offset of the descriptor has moved. -/
def readWriteAllVfile (env : Env) (path : Path) : Nat → Nat → Bytes → Bool × Bytes
  | 0, _, _ => (true, [])
  | fuel + 1, k, data =>
    if env.sys (.readBlock k) ≠ none then (false, [])
    else if data = [] then (true, [])
    else if env.remote (.write path k) ≠ .success then (false, data.take writeBlockSize)
    else
      match readWriteAllVfile env path fuel (k + 1) (data.drop writeBlockSize) with
      | (ok, sent) => (ok, data.take writeBlockSize ++ sent)

/-- Returning 0 means that everything up to the end of the file was passed on. -/
theorem readWriteAllVfile_ok (env : Env) (path : Path) (fuel k : Nat) (data : Bytes)
    (hf : data.length < fuel) (h : (readWriteAllVfile env path fuel k data).1 = true) :
    (readWriteAllVfile env path fuel k data).2 = data := by
  induction fuel generalizing k data with
  | zero => omega
  | succ fuel ih =>
    rw [readWriteAllVfile] at h ⊢
    split_ifs at h ⊢ with hr hd hw
    · exact hd.symm
    · have hlen : (data.drop writeBlockSize).length < fuel := by
        have : 0 < data.length := List.length_pos_iff.mpr hd
        rw [List.length_drop, writeBlockSize]
        omega
      have hi := ih (k + 1) (data.drop writeBlockSize) hlen h
      simp only [hi, List.take_append_drop]

end DropletFs
