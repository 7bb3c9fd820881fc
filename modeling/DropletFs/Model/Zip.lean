import DropletFs.Framework.Stream
import DropletFs.Model.Types

/-! `zip.c`: the loops around `deflate` and `inflate`. -/

namespace DropletFs

open CText Stream

/-- The return values of zlib, and `Z_ERRNO` of the loops. -/
inductive ZCode
  | ok
  | streamEnd
  | needDict
  | errno
  | streamError
  | dataError
  | memError
  | bufError
  | versionError
  deriving DecidableEq

def ZCode.verdict : ZCode → Verdict
  | ok | bufError => .more
  | streamEnd => .last
  | needDict | dataError => .corrupt
  | memError => .noMemory
  | errno | streamError | versionError => .misuse

/-- The four functions of zlib that the loops call. `deflate` is told whether `flush` is
`Z_FINISH`. -/
structure Zlib (τ δ : Type) where
  deflateInit : Int → ZCode × τ
  deflate : Bool → τ → Bytes → Nat → Turn τ UInt8 ZCode
  inflateInit : ZCode × δ
  inflate : δ → Bytes → Nat → Turn δ UInt8 ZCode

/-- `#define CHUNK 16384`. -/
def chunk : Nat := 16384

/-- The state behind `strm`, and what is left at `next_in`. -/
structure ZStream (τ : Type) where
  state : τ
  input : Bytes

/-- What `dest` holds, and how often `fwrite` has been called for it. -/
structure Dest where
  written : Bytes
  calls : Nat
  deriving DecidableEq

def Dest.empty : Dest := ⟨[], 0⟩

/-- The answers of stdio: whether a read fails, and how much of a write goes through (all of it when
`none`), each by the number of the call. -/
structure Stdio where
  reads : Nat → Bool
  writes : Nat → Option Nat

def Stdio.quiet : Stdio := ⟨fun _ => false, fun _ => none⟩

/-- `fwrite`, and whether it took everything. -/
def fwrite (io : Stdio) (dest : Dest) (out : Bytes) : Bool × Dest :=
  match io.writes dest.calls with
  | none => (true, ⟨dest.written ++ out, dest.calls + 1⟩)
  | some n => (decide (out.length ≤ n), ⟨dest.written ++ out.take n, dest.calls + 1⟩)

/-- Why a loop stops before its end: no fuel, a failed assertion, or a `return` in its middle. -/
inductive ZExit
  | unfinished
  | assertion
  | returns (ret : ZCode) (dest : Dest)
  deriving DecidableEq

section

variable {τ δ : Type} (z : Zlib τ δ) (io : Stdio)

/-- The inner loop of `zip`. -/
def zipDrain (flush : Bool) : Nat → ZStream τ → Dest → Except ZExit (ZStream τ × ZCode × Dest)
  | 0, _, _ => .error .unfinished
  | fuel + 1, strm, dest =>
    let r := z.deflate flush strm.state strm.input chunk
    if r.code = .streamError then .error .assertion
    else
      match fwrite io dest r.out with
      | (false, dest) => .error (.returns .errno dest)
      | (true, dest) =>
        let strm := ⟨r.state, strm.input.drop r.used⟩
        if r.out.length = chunk then zipDrain flush fuel strm dest else .ok (strm, r.code, dest)

/-- The outer loop of `zip` from the `k`-th `fread` on; `source` is what has not been read. -/
def zipLoop : Nat → Nat → τ → Bytes → Dest → Except ZExit (ZCode × Dest)
  | 0, _, _, _, _ => .error .unfinished
  | fuel + 1, k, state, source, dest =>
    if io.reads k then .error (.returns .errno dest)
    else
      -- `feof` is set by a read that comes up short
      let flush := decide (source.length < chunk)
      match zipDrain z io flush fuel ⟨state, source.take chunk⟩ dest with
      | .error e => .error e
      | .ok (strm, ret, dest) =>
        if strm.input ≠ [] then .error .assertion
        else if flush then if ret = .streamEnd then .ok (.ok, dest) else .error .assertion
        else zipLoop fuel (k + 1) strm.state (source.drop chunk) dest

/-- The inner loop of `unzip`. -/
def unzipDrain : Nat → ZStream δ → Dest → Except ZExit (ZStream δ × ZCode × Dest)
  | 0, _, _ => .error .unfinished
  | fuel + 1, strm, dest =>
    let r := z.inflate strm.state strm.input chunk
    match r.code with
    | .streamError => .error .assertion
    | .needDict | .dataError => .error (.returns .dataError dest)
    | .memError => .error (.returns .memError dest)
    | ret =>
      match fwrite io dest r.out with
      | (false, dest) => .error (.returns .errno dest)
      | (true, dest) =>
        let strm := ⟨r.state, strm.input.drop r.used⟩
        if r.out.length = chunk then unzipDrain fuel strm dest else .ok (strm, ret, dest)

/-- The outer loop of `unzip`; `ret` is what the last call returned. -/
def unzipLoop : Nat → Nat → δ → Bytes → ZCode → Dest → Except ZExit (ZCode × Dest)
  | 0, _, _, _, _, _ => .error .unfinished
  | fuel + 1, k, state, source, ret, dest =>
    if io.reads k then .error (.returns .errno dest)
    else if source.take chunk = [] then
      .ok (if ret = .streamEnd then .ok else .dataError, dest)
    else
      match unzipDrain z io fuel ⟨state, source.take chunk⟩ dest with
      | .error e => .error e
      | .ok (strm, ret, dest) =>
        if ret = .streamEnd then .ok (.ok, dest)
        else unzipLoop fuel (k + 1) strm.state (source.drop chunk) ret dest

/-- A `return` in the middle ends the function like one at its end. -/
def ZExit.collect : Except ZExit (ZCode × Dest) → Except ZExit (ZCode × Dest)
  | .error (.returns ret dest) => .ok (ret, dest)
  | res => res

/-- `zip`. -/
def zip (fuel : Nat) (source : Bytes) (level : Int) : Except ZExit (ZCode × Dest) :=
  match z.deflateInit level with
  | (.ok, state) => ZExit.collect (zipLoop z io fuel 0 state source Dest.empty)
  | (ret, _) => .ok (ret, Dest.empty)

/-- `unzip`. -/
def unzip (fuel : Nat) (source : Bytes) : Except ZExit (ZCode × Dest) :=
  match z.inflateInit with
  | (.ok, state) => ZExit.collect (unzipLoop z io fuel 0 state source .ok Dest.empty)
  | (ret, _) => .ok (ret, Dest.empty)

end

/-- `zerr_to_str`; `none` when its assertion fails. -/
def zerrToStr : ZCode → Option CStr
  | .errno => some "read/write error".toList
  | .streamError => some "invalid compression level".toList
  | .dataError => some "invalid or incomplete deflate data".toList
  | .memError => some "out of memory".toList
  | .versionError => some "zlib version mismatch".toList
  | _ => none

end DropletFs
