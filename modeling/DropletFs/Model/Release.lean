import DropletFs.Model.Open

/-! `release.c`: the upload of a written cache file. -/

namespace DropletFs

open CText

/-- `compress_before_sending` on the bytes of the source: the return value, the
dictionary, and what the destination file holds. Whether `fflush` fails is not looked at. -/
def compressBeforeSending (cx : Ctx) (env : Env) (zfd : Nat) (src : Bytes) (dict : Dict) :
    Int × Dict × Bytes :=
  match env.sys .zip, cx.codec.zip cx.conf.zlibLevel src with
  | none, some zout =>
    let z := if env.sys .fflushZipped = none then zout else env.written zout
    if env.sys .fileno ≠ none then (0, dict, z)
    else if env.sys .fstatZipped ≠ none then (0, dict, z)
    else if !env.lib .markCompressed then (0, dict, z)
    else (zfd, dict.set .compression textZlib, z)
  | _, _ => (0, dict, [])

/-- What `dfs_release` has ready for `dpl_openwrite`: the bytes behind `fd_tosend`, and whether
that is the descriptor of the entry. -/
structure Upload where
  payload : Bytes
  own : Bool
  size : Nat
  dict : Dict

/-- The bytes from the offset of a descriptor to the end of its file. -/
def LocalFs.remaining (fs : LocalFs) (fd : Nat) : Bytes :=
  match fs.fds.lookup fd with
  | some f => (fs.inodes f.inode).data.drop f.offset
  | none => []

/-- The compression branch of `dfs_release`: no upload when the source cannot be
opened, the file itself when it cannot be compressed. -/
def zipUpload (cx : Ctx) (env : Env) (fs : LocalFs) (fd : Nat) (locname zlocal : Path)
    (size : Nat) (dict : Dict) : Option Upload × LocalFs :=
  match env.sys .fopenSource, fs.files (collapse locname) with
  | none, some src =>
    if env.sys .fopenZipped ≠ none then (some ⟨fs.remaining fd, true, size, dict⟩, fs)
    else
      let fs := fs.overwrite zlocal []
      -- the source is open already, so the scratch file never gets descriptor 0
      let zfd := lowestFree (fs.fresh :: fs.fds.keys)
      let (ret, dict, z) := compressBeforeSending cx env zfd (fs.inodes src).data dict
      let fs := fs.overwrite zlocal z
      if ret > 0 then (some ⟨z, false, z.length, dict⟩, fs)
      else (some ⟨fs.remaining fd, true, size, dict⟩, fs)
  | _, _ => (none, fs)

/-- The object a completed `dpl_openwrite`, `dpl_write`, `dpl_close` sequence leaves. -/
def putObj (cx : Ctx) (encrypted : Bool) (up : Upload) : Obj :=
  let data := if encrypted then cx.codec.encrypt up.payload else up.payload
  { ftype := .reg
    data := data
    userMeta := if encrypted then (up.dict.set .cipher textYes).set .cipherType textAes256Cfb
      else up.dict
    contentLength := some (ulongText data.length)
    etag := some (cx.codec.md5 data) }

/-- `dpl_openwrite`, `read_write_all_vfile` and `dpl_close`: the return value, the store, which
an incomplete upload leaves as it was, and how many bytes have been read. -/
def sendUpload (cx : Ctx) (env : Env) (st : Store) (path : Path) (up : Upload) :
    Int × Store × Nat :=
  let encrypted := startsWithNoCase cx.conf.encryptionMethod textAes
  if env.remote (.openwrite path) ≠ .success ∨ st.ftype? path = some .dir then (-1, st, 0)
  else
    match readWriteAllVfile env path (up.payload.length + 1) 0 up.payload with
    | (false, sent) => (-1, st, sent.length)
    | (true, sent) =>
      if env.remote (.close path) ≠ .success then (-1, st, sent.length)
      else (0, st.insert path (putObj cx encrypted { up with payload := sent }), sent.length)

/-- The files once `n` bytes have been read through `fd_tosend`. -/
def LocalFs.sentFrom (fs : LocalFs) (fd : Nat) (up : Upload) (n : Nat) : LocalFs :=
  if up.own then fs.advance fd n else fs

/-- The upload in `dfs_release`, up to and including the removal of the scratch file. -/
def releaseUpload (cx : Ctx) (env : Env) (st : Store) (fs : LocalFs) (path : Path) (fd : Nat)
    (stat : Stat) : Int × LocalFs × Store :=
  let size := (toU64 stat.size)
  if !env.lib .releaseDict then (-1, fs, st)
  else
    let dict := fillMetadataFromStat env Dict.empty stat
    let locname := tmpstr (cx.conf.cacheDir ++ ['/'] ++ path)
    if startsWithNoCase cx.conf.compressionMethod textZlib then
      let zlocal := scratchName locname
      match zipUpload cx env fs fd locname zlocal size dict with
      | (none, fs) => (-1, fs.tryUnlink env .unlinkScratch zlocal, st)
      | (some up, fs) =>
        match sendUpload cx env st path up with
        | (ret, st, n) =>
          (ret, (fs.sentFrom fd up n).tryUnlink env .unlinkScratch zlocal, st)
    else
      let up : Upload := ⟨fs.remaining fd, true, size, dict⟩
      match sendUpload cx env st path up with
      | (ret, st, n) => (ret, fs.sentFrom fd up n, st)

/-- The label `exc:` of `dfs_release`. -/
def releaseExc (pe : Entry) : Entry := pentryUnlock { pe with flag := .clean }

/-- `dfs_release` on the entry behind the handle. -/
def releaseEntry (cx : Ctx) (env : Env) (st : Store) (fs : LocalFs) (path : Path)
    (flags : OpenFlags) (pe : Entry) : Except Fault (Int × Entry × LocalFs × Store) :=
  match pe.fd with
  | none => .ok (-1, releaseExc pe, fs, st)
  | some fd =>
    match env.sys .fstatRelease, fs.fstat fd env.times with
    | none, some stat => do
      let pe ← pentryDecRefcount pe
      if flags.acc = .rdonly then .ok (0, pe, fs, st)
      else if pe.exclude then .ok (0, releaseExc pe, fs, st)
      else
        match releaseUpload cx env st fs path fd stat with
        | (ret, fs, st) => .ok (ret, releaseExc pe, fs.setOffset fd 0, st)
    | _, _ => .ok (-1, releaseExc pe, fs.setOffset fd 0, st)

def dfsRelease (cx : Ctx) (env : Env) (s : World) (path : Path) (flags : OpenFlags)
    (fh : Addr) : Except Fault (Int × World) := do
  let pe ← s.deref fh
  let (ret, pe, fs, st) ← releaseEntry cx env s.store s.fs path flags pe
  .ok (ret, { s.setEntry fh pe with fs := fs, store := st })

end DropletFs
