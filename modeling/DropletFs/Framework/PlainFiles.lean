import DropletFs.Framework.Run
import Mathlib.Data.List.Basic
import Mathlib.Logic.Function.Basic

/-! Files as byte sequences by name, and what a plain file system does to them. -/

namespace PlainFiles

variable {κ β : Type*}

/-- The content of each file there is. -/
abbrev Files (κ β : Type*) := κ → Option (List β)

/-- What a read of `size` bytes at `off` returns. -/
def slice (data : List β) (off size : Nat) : List β := (data.drop off).take size

/-- What a write of `buf` at `off` leaves; a gap before `off` is filled. Writing nothing does not
extend the file. -/
def splice (fill : β) (data : List β) (off : Nat) (buf : List β) : List β :=
  if buf.isEmpty then data
  else
    data.take off ++ List.replicate (off - data.length) fill ++ buf ++
      data.drop (off + buf.length)

/-- What a client does to the files, and what it sees of them. -/
inductive Act (κ β : Type*)
  | idle
  | clear (k : κ)
  | read (k : κ) (off size : Nat) (got : List β)
  | write (k : κ) (off : Nat) (buf : List β)
  | remove (k : κ)
  | move (k l : κ)

/-- The names an act changes the files of. -/
def Act.Touches (q : κ) : Act κ β → Prop
  | idle | read .. => False
  | clear k | write k .. | remove k => q = k
  | move k l => q = k ∨ q = l

/-- The act of a plain file system that takes the files `F` to `F'`. -/
inductive Step [DecidableEq κ] (fill : β) : Files κ β → Act κ β → Files κ β → Prop
  | idle {F} : Step fill F .idle F
  | clear {F k} : Step fill F (.clear k) (Function.update F k (some []))
  | read {F k off size data} (h : F k = some data) :
      Step fill F (.read k off size (slice data off size)) F
  | write {F k off buf data} (h : F k = some data) :
      Step fill F (.write k off buf) (Function.update F k (some (splice fill data off buf)))
  | remove {F k} : Step fill F (.remove k) (Function.update F k none)
  | move {F k l} : Step fill F (.move k l) (Function.update (Function.update F k none) l (F k))

section Step

variable [DecidableEq κ] {fill : β} {F F' : Files κ β} {act : Act κ β}

theorem Step.other (h : Step fill F act F') {q : κ} (hq : ¬act.Touches q) : F' q = F q := by
  cases h with
  | idle => rfl
  | clear => exact Function.update_of_ne hq _ _
  | read _ => rfl
  | write _ => exact Function.update_of_ne hq _ _
  | remove => exact Function.update_of_ne hq _ _
  | move =>
    obtain ⟨hk, hl⟩ := not_or.mp hq
    rw [Function.update_of_ne hl, Function.update_of_ne hk]

/-- What was written is read back. -/
theorem slice_splice (data : List β) (off : Nat) (buf : List β) :
    slice (splice fill data off buf) off buf.length = buf := by
  have hlen : (data.take off ++ List.replicate (off - data.length) fill).length = off := by
    rw [List.length_append, List.length_take, List.length_replicate]
    omega
  unfold slice splice
  split_ifs with hb
  · rw [List.isEmpty_iff.mp hb, List.length_nil, List.take_zero]
  · rw [List.append_assoc, List.drop_left' hlen]
    exact List.take_left' rfl

/-- A file that no act of a run touches stays as it is. -/
theorem follows_other {acts : List (Act κ β)} (h : Transition.Follows (Step fill) F acts F')
    {q : κ} (hq : ∀ act ∈ acts, ¬act.Touches q) : F' q = F q := by
  induction h with
  | nil => rfl
  | cons h _ ih =>
    obtain ⟨hfirst, hrest⟩ := List.forall_mem_cons.mp hq
    rw [ih hrest, h.other hfirst]

theorem read_after_write {k : κ} {off : Nat} {buf got : List β} {mid post : List (Act κ β)}
    (h : Transition.Follows (Step fill) F
      (.write k off buf :: (mid ++ .read k off buf.length got :: post)) F')
    (hmid : ∀ act ∈ mid, ¬act.Touches k) : got = buf := by
  obtain ⟨G, hwrite, h⟩ := Transition.follows_cons.mp h
  obtain ⟨H, hbetween, h⟩ := Transition.follows_append.mp h
  obtain ⟨_, hread, -⟩ := Transition.follows_cons.mp h
  have hkeep := follows_other hbetween hmid
  cases hwrite with
  | write hdata =>
    rw [Function.update_self] at hkeep
    cases hread with
    | read hread =>
      rw [hkeep, Option.some.injEq] at hread
      rw [← hread]
      exact slice_splice _ off buf

end Step

end PlainFiles
