import DropletFs.Model.Daemon

/-! A small configuration and small stores to run the model on. -/

namespace DropletFs.Sample

open CText

/-- A stream of a 1 in front of each byte and a 0 at the end. -/
def pack : Bytes → Bytes
  | [] => [0]
  | b :: rest => 1 :: b :: pack rest

/-- The bytes of a stream. What follows the stream is left over. -/
def unpack : Bytes → Option Bytes
  | [] => none
  | [t] => if t = 0 then some [] else none
  | t :: b :: rest =>
    if t = 0 then some []
    else if t = 1 then (unpack rest).map (b :: ·)
    else none

theorem unpack_pack (b : Bytes) : unpack (pack b) = some b := by
  induction b with
  | nil => rfl
  | cons b rest ih => simp [pack, unpack, ih]

/-- Compression marks each byte; encryption turns the bytes round and puts a salt in front. -/
def codec : Codec where
  zip _ b := some (pack b)
  unzip := unpack
  encrypt b := 83 :: b.reverse
  decrypt b := b.tail.reverse
  md5 _ := []
  unzip_zip := by
    rintro _ b _ ⟨⟩
    exact unpack_pack b
  unzip_nil := rfl
  decrypt_encrypt b := by simp

/-- A cache under `/c`, no exclusion, and the two methods given. -/
def ctx (compression encryption : CStr) : Ctx where
  conf :=
    { cacheDir := ['/', 'c']
      rootDir := ['/', 'm']
      compressionMethod := compression
      zlibLevel := 6
      encryptionMethod := encryption
      gcAgeThreshold := 100
      regex := fun _ => false }
  codec := codec

def plain : Ctx := ctx textNone textNone

def fs : LocalFs := ⟨fun _ => none, fun _ => ⟨[], 0, 0, 0⟩, ∅, 0, 0o022⟩

/-- A cache file open as descriptor 3. -/
def oneOpen : LocalFs :=
  ⟨fun _ => none, fun _ => ⟨[], 0o644, 0, 0⟩, AList.singleton 3 ⟨0, .rdwr, 0⟩, 1, 0o022⟩

theorem fs_wf : fs.Wf := by
  refine ⟨?_, ?_, ?_⟩ <;> intros <;> simp_all [fs]

def ring : Ring := ⟨fun _ => [], 0⟩

/-- A regular object put by another program. -/
def file (data : Bytes) : Obj := ⟨.reg, data, Dict.empty, some (ulongText data.length), none⟩

def dir : Obj := emptyObj .dir

/-- A store of the objects listed; of two under one name the first counts. -/
def store : List (Path × Obj) → Store
  | [] => ∅
  | (p, o) :: rest => (store rest).insert p o

def daemon (objects : List (Path × Obj)) : Daemon := .init (store objects) fs ring

def readOnly : OpenFlags := ⟨.rdonly, false, false, false⟩
def writeAppend : OpenFlags := ⟨.wronly, true, false, false⟩
def writeOnly : OpenFlags := ⟨.wronly, false, false, false⟩

/-- A callback with every call going through. -/
def call (op : Op) : Call := ⟨op, Env.quiet⟩

theorem daemon_reachable (cx : Ctx) (objects : List (Path × Obj)) :
    (daemon objects).Reachable cx :=
  ⟨store objects, fs, ring, fs_wf, .refl _⟩

end DropletFs.Sample
