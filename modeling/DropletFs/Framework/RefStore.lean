import Mathlib.Data.List.Nodup
import Mathlib.Logic.Function.Basic
import Mathlib.Tactic.SplitIfs

/-! Memory as a store of live blocks behind references, in which access to a block that was freed is
an error, and singly linked segments of such blocks. -/

namespace RefStore

abbrev Ref := Nat

inductive MemFault
  | freed
  | null
  | unfinished
  deriving DecidableEq

/-- The live blocks. A reference is given out once. -/
structure Store (α : Type) where
  cell : Ref → Option α
  next : Ref
  bounded : ∀ r, next ≤ r → cell r = none

namespace Store

variable {α : Type} {s : Store α} {r : Ref} {a b : α}

def empty : Store α := ⟨fun _ => none, 0, fun _ _ => rfl⟩

/-- `malloc`. -/
def alloc (s : Store α) (a : α) : Ref × Store α :=
  (s.next, ⟨Function.update s.cell s.next (some a), s.next + 1, fun r hr => by
    rw [Function.update_of_ne (Nat.ne_of_gt hr)]
    exact s.bounded r (Nat.le_of_succ_le hr)⟩)

def read (s : Store α) (r : Ref) : Except MemFault α :=
  match s.cell r with
  | some a => .ok a
  | none => .error .freed

/-- A live block replaced, or freed. -/
def put (s : Store α) (r : Ref) (block : Option α) (h : s.cell r ≠ none) : Store α :=
  ⟨Function.update s.cell r block, s.next, fun q hq => by
    have hne : q ≠ r := by
      rintro rfl
      exact h (s.bounded q hq)
    rw [Function.update_of_ne hne]
    exact s.bounded q hq⟩

def write (s : Store α) (r : Ref) (a : α) : Except MemFault (Store α) :=
  if h : s.cell r = none then .error .freed else .ok (s.put r (some a) h)

def free (s : Store α) (r : Ref) : Except MemFault (Store α) :=
  if h : s.cell r = none then .error .freed else .ok (s.put r none h)

/-- `free` of a pointer that may be null. -/
def freeOpt (s : Store α) : Option Ref → Except MemFault (Store α)
  | none => .ok s
  | some r => s.free r

theorem read_live (h : s.cell r = some a) : s.read r = .ok a := by
  rw [read, h]

theorem read_freed (h : s.cell r = none) : s.read r = .error .freed := by
  rw [read, h]

theorem write_live (h : s.cell r = some b) :
    ∃ t, s.write r a = .ok t ∧ t.cell = Function.update s.cell r (some a) := by
  have hlive : s.cell r ≠ none := by simp [h]
  exact ⟨s.put r (some a) hlive, dif_neg hlive, rfl⟩

theorem cell_of_write {t : Store α} (h : s.write r a = .ok t) : t.cell r = some a := by
  unfold write at h
  split_ifs at h
  rw [← Except.ok.inj h]
  exact Function.update_self ..

theorem free_live (h : s.cell r = some b) :
    ∃ t, s.free r = .ok t ∧ t.cell = Function.update s.cell r none ∧ t.next = s.next := by
  have hlive : s.cell r ≠ none := by simp [h]
  exact ⟨s.put r none hlive, dif_neg hlive, rfl, rfl⟩

theorem lt_next (h : s.cell r = some a) : r < s.next := by
  apply Nat.lt_of_not_le
  intro hle
  rw [s.bounded r hle] at h
  cases h

theorem free_freed (h : s.cell r = none) : s.free r = .error .freed := dif_pos h

theorem alloc_fresh (s : Store α) (a : α) : s.cell (s.alloc a).1 = none :=
  s.bounded s.next (Nat.le_refl _)

theorem alloc_cell (s : Store α) (a : α) : (s.alloc a).2.cell (s.alloc a).1 = some a :=
  Function.update_self ..

theorem alloc_ne (s : Store α) (a : α) (hr : r ≠ (s.alloc a).1) :
    (s.alloc a).2.cell r = s.cell r :=
  Function.update_of_ne hr ..

end Store

/-- A block with a pointer to the next one. -/
structure Node (α : Type) where
  val : α
  next : Option Ref

/-- The blocks of a list, from one pointer to another. -/
def Segment {α : Type} (cell : Ref → Option (Node α)) :
    Option Ref → List (Ref × α) → Option Ref → Prop
  | p, [], q => p = q
  | p, (r, a) :: xs, q => p = some r ∧ ∃ n, cell r = some ⟨a, n⟩ ∧ Segment cell n xs q

section Segment

variable {α : Type} {cell cell' : Ref → Option (Node α)} {p q m : Option Ref}
  {xs ys : List (Ref × α)} {r : Ref} {a : α}

/-- A segment does not depend on other blocks. -/
theorem Segment.congr (h : Segment cell p xs q) (hsame : ∀ e ∈ xs, cell' e.1 = cell e.1) :
    Segment cell' p xs q := by
  induction xs generalizing p with
  | nil => exact h
  | cons e xs ih =>
    obtain ⟨hp, n, hn, hrest⟩ := h
    refine ⟨hp, n, ?_, ih hrest fun e' he' => hsame e' (List.mem_cons_of_mem e he')⟩
    rw [hsame e (List.mem_cons_self ..)]
    exact hn

theorem Segment.append_iff :
    Segment cell p (xs ++ ys) q ↔ ∃ m, Segment cell p xs m ∧ Segment cell m ys q := by
  induction xs generalizing p with
  | nil =>
    constructor
    · intro h
      exact ⟨p, rfl, h⟩
    · intro ⟨m, hm, h⟩
      rw [← show p = m from hm] at h
      exact h
  | cons e xs ih =>
    constructor
    · intro ⟨hp, n, hn, h⟩
      obtain ⟨m, h1, h2⟩ := ih.mp h
      exact ⟨m, ⟨hp, n, hn, h1⟩, h2⟩
    · intro ⟨m, ⟨hp, n, hn, h1⟩, h2⟩
      exact ⟨hp, n, hn, ih.mpr ⟨m, h1, h2⟩⟩

theorem Segment.live (h : Segment cell p xs q) {e : Ref × α} (he : e ∈ xs) :
    ∃ n, cell e.1 = some ⟨e.2, n⟩ := by
  induction xs generalizing p with
  | nil => cases he
  | cons e' xs ih =>
    obtain ⟨_, n, hn, hrest⟩ := h
    rcases List.mem_cons.mp he with rfl | he
    · exact ⟨n, hn⟩
    · exact ih hrest he

/-- The last block is given another successor. -/
theorem Segment.relink (h : Segment cell p (xs ++ [(r, a)]) q)
    (hnd : ((xs ++ [(r, a)]).map Prod.fst).Nodup) (q' : Option Ref) :
    Segment (Function.update cell r (some ⟨a, q'⟩)) p (xs ++ [(r, a)]) q' := by
  obtain ⟨m, hxs, hm, _⟩ := append_iff.mp h
  apply append_iff.mpr
  refine ⟨m, hxs.congr fun e he => ?_, hm, q', Function.update_self .., rfl⟩
  rw [List.map_append, List.nodup_append] at hnd
  apply Function.update_of_ne
  exact hnd.2.2 e.1 (List.mem_map_of_mem he) r (by simp)

end Segment

end RefStore
