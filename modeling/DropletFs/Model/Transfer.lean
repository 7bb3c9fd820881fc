import DropletFs.Model.Release
import DropletFs.Model.Conf

/-! The loops of `file.c` that move file data, call by call: `write_all`, `cb_get_buffered` and
`read_write_all_vfile` with the answers of `write(2)` and `read(2)`. -/

namespace DropletFs

open CText

/-- An answer of `write(2)` or `read(2)`: `count k` moves `k + 1` bytes, or all that are asked for
or there if these are fewer. -/
inductive IoAnswer
  | eintr
  | error
  | count (k : Nat)
  deriving DecidableEq

inductive IoError
  | eintr
  | other
  deriving DecidableEq

/-- The bytes of a file with others from an offset on. A gap in front of them reads as zero. -/
def spliceAt (data : Bytes) (offset : Nat) (bytes : Bytes) : Bytes :=
  (data ++ List.replicate (offset - data.length) 0).take offset ++ bytes ++
    data.drop (offset + bytes.length)

/-- Bytes written at the offset of a descriptor. -/
def LocalFs.writeFd (fs : LocalFs) (fd : Nat) (bytes : Bytes) : LocalFs :=
  match fs.fds.lookup fd with
  | none => fs
  | some f =>
    if bytes = [] then fs
    else
      { fs.writeInode f.inode (spliceAt (fs.inodes f.inode).data f.offset bytes) with
        fds := fs.fds.insert fd { f with offset := f.offset + bytes.length } }

/-- `write(fd, buf, count)` for an `int` count: a negative one is over `SSIZE_MAX` as a `size_t`. -/
def sysWrite (answer : IoAnswer) (fs : LocalFs) (fd : Nat) (buf : Bytes) (count : Int) :
    Except IoError (Nat × LocalFs) :=
  match fs.fds.lookup fd with
  | none => .error .other
  | some f =>
    if f.acc = .rdonly ∨ count < 0 then .error .other
    else
      match answer with
      | .eintr => .error .eintr
      | .error => .error .other
      | .count k =>
        let cc := min count.toNat (k + 1)
        .ok (cc, fs.writeFd fd (buf.take cc))

/-- `read(fd, buf, count)`. -/
def sysRead (answer : IoAnswer) (fs : LocalFs) (fd : Nat) (count : Nat) :
    Except IoError (Bytes × LocalFs) :=
  match fs.fds.lookup fd with
  | none => .error .other
  | some f =>
    if f.acc = .wronly then .error .other
    else
      match answer with
      | .eintr => .error .eintr
      | .error => .error .other
      | .count k =>
        let buf := (fs.remaining fd).take (min count (k + 1))
        .ok (buf, fs.setOffset fd (f.offset + buf.length))

/-- `write_all` from the `k`-th call of `write` on: the return value, the number of the next call,
and the files. `none` when the fuel is used up. -/
def writeAll (answers : Nat → IoAnswer) (fd : Nat) :
    Nat → Nat → LocalFs → Bytes → Int → Option (Int × Nat × LocalFs)
  | 0, _, _, _, _ => none
  | fuel + 1, k, fs, buf, remain =>
    match sysWrite (answers k) fs fd buf remain with
    | .error .eintr => writeAll answers fd fuel (k + 1) fs buf remain
    | .error .other => some (-1, k + 1, fs)
    | .ok (cc, fs) =>
      if remain - cc = 0 then some (0, k + 1, fs)
      else writeAll answers fd fuel (k + 1) fs (buf.drop cc) (remain - cc)

/-- `cb_get_buffered`: the length is an `unsigned`, and an `int` for `write_all`. -/
def cbGetBuffered (answers : Nat → IoAnswer) (fd fuel k : Nat) (fs : LocalFs) (buf : Bytes) :
    Option (Int × Nat × LocalFs) :=
  match writeAll answers fd fuel k fs buf (toI32 buf.length) with
  | none => none
  | some (ret, k, fs) => some (if ret ≠ 0 then -1 else 0, k, fs)

/-- The calls of `cb_get_buffered` in one download: chunk after chunk, up to the first that fails.
Whether all of them return 0. -/
def getBuffered (answers : Nat → IoAnswer) (fd fuel : Nat) :
    Nat → LocalFs → List Bytes → Option (Bool × LocalFs)
  | _, fs, [] => some (true, fs)
  | k, fs, chunk :: chunks =>
    match cbGetBuffered answers fd fuel k fs chunk with
    | none => none
    | some (ret, k, fs) =>
      if ret = 0 then getBuffered answers fd fuel k fs chunks else some (false, fs)

/-- `read_write_all_vfile` with reads that may be short: the return value, the bytes passed to
`dpl_write`, and the files. -/
def readWriteAllVfileShort (reads : Nat → IoAnswer) (sends : Nat → Status) (fd : Nat) :
    Nat → Nat → LocalFs → Option (Int × Bytes × LocalFs)
  | 0, _, _ => none
  | fuel + 1, k, fs =>
    match sysRead (reads k) fs fd writeBlockSize with
    | .error _ => some (-1, [], fs)
    | .ok (buf, fs) =>
      if buf = [] then some (0, [], fs)
      else if sends k ≠ .success then some (-1, buf, fs)
      else
        match readWriteAllVfileShort reads sends fd fuel (k + 1) fs with
        | none => none
        | some (ret, sent, fs) => some (ret, buf ++ sent, fs)

end DropletFs
