import DropletFs.Model.Hash

/-! `tmpstr.c` with the bytes of its buffers. -/

namespace DropletFs

open CText

/-- One of the `strings`. -/
abbrev Buffer := { bytes : List Char // bytes.length = tmpstrMax }

/-- What `vsnprintf` makes of a format and its arguments: a text that depends on the buffers the
arguments are stored in. -/
structure Format where
  stored : List (Fin tmpstrNb)
  text : List Buffer → CStr

/-- The variables of a thread. -/
structure Tmpstr where
  strings : Fin tmpstrNb → Buffer
  current : Nat
  bounded : current < tmpstrNb

theorem tmpstrNb_pos : 0 < tmpstrNb := by decide

namespace Tmpstr

/-- `tmpstr_new`. -/
def new (t : Tmpstr) : Fin tmpstrNb × Tmpstr :=
  if h : t.current + 1 ≥ tmpstrNb then (⟨0, tmpstrNb_pos⟩, ⟨t.strings, 0, tmpstrNb_pos⟩)
  else (⟨t.current + 1, by omega⟩, ⟨t.strings, t.current + 1, by omega⟩)

def write (t : Tmpstr) (slot : Fin tmpstrNb) (buf : Buffer) : Tmpstr :=
  { t with strings := Function.update t.strings slot buf }

end Tmpstr

/-- `vsnprintf` into a whole buffer. -/
def vsnprintf (buf : Buffer) (text : CStr) : Buffer where
  val := snprintf tmpstrMax text ++ nul :: buf.val.drop ((snprintf tmpstrMax text).length + 1)
  property := by
    have hlt := snprintf_length_lt (show 0 < tmpstrMax by decide) text
    have hbuf := buf.property
    simp only [List.length_append, List.length_cons, List.length_drop]
    omega

namespace Tmpstr

def formatted (t : Tmpstr) (fmt : Format) : CStr := fmt.text (fmt.stored.map t.strings)

/-- What `vsnprintf` leaves in a buffer. For an argument stored in that buffer this is not defined;
it is `overlapped` here. -/
def filled (t : Tmpstr) (fmt : Format) (overlapped : Buffer) (buf : Fin tmpstrNb) : Buffer :=
  if buf ∈ fmt.stored then overlapped else vsnprintf (t.strings buf) (t.formatted fmt)

/-- `tmpstr_printf`. -/
def printf (t : Tmpstr) (fmt : Format) (overlapped : Buffer) : Fin tmpstrNb × Tmpstr :=
  let buf := t.new
  (buf.1, buf.2.write buf.1 (buf.2.filled fmt overlapped buf.1))

end Tmpstr

/-- The slot a string is stored in. -/
def Str.slot? : Str → Option (Fin tmpstrNb)
  | .ext _ => none
  | .tmp slot => some slot

/-- The texts of arguments one after the other, with the buffers of those in the ring. -/
def joinArgs : List Str → List Buffer → CStr
  | [], _ => []
  | .ext text :: args, bufs => text ++ joinArgs args bufs
  | .tmp _ :: args, bufs => cstr (bufs.head?.elim [] (·.val)) ++ joinArgs args bufs.tail

/-- A format that only joins its arguments. -/
def Format.join (args : List Str) : Format := ⟨args.filterMap Str.slot?, joinArgs args⟩

/-- What a thread does to its strings: the two calls, and writes of its own into a buffer. -/
inductive TmpstrStep
  | new
  | printf (fmt : Format) (overlapped : Buffer)
  | write (slot : Fin tmpstrNb) (buf : Buffer)

/-- A step, and the buffer it returns when it is a call. -/
def TmpstrStep.exec (t : Tmpstr) : TmpstrStep → Option (Fin tmpstrNb) × Tmpstr
  | .new => (some t.new.1, t.new.2)
  | .printf fmt overlapped => (some (t.printf fmt overlapped).1, (t.printf fmt overlapped).2)
  | .write slot buf => (none, t.write slot buf)

def TmpstrStep.isCall : TmpstrStep → Bool
  | .write _ _ => false
  | _ => true

/-- The buffers that the calls of a run return. -/
def Tmpstr.returned : Tmpstr → List TmpstrStep → List (Fin tmpstrNb)
  | _, [] => []
  | t, c :: cs => (c.exec t).1.toList ++ Tmpstr.returned (c.exec t).2 cs

def Tmpstr.run (t : Tmpstr) (cs : List TmpstrStep) : Tmpstr :=
  cs.foldl (fun t c => (c.exec t).2) t

end DropletFs
