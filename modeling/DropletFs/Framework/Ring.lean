import Mathlib.Algebra.Group.Fin.Basic
import Mathlib.Algebra.GroupWithZero.Nat
import Mathlib.Data.List.Induction
import Mathlib.Data.List.Nodup
import Mathlib.Logic.Function.Basic

/-! A ring of `n` buffers filled one after the other: the newest value goes to the
slot after the last one used, and the slot that follows the last is the first. -/

/-- `cur` is the slot used last. -/
structure RingBuffer (n : Nat) (α : Type*) where
  slots : Fin n → α
  cur : Fin n

namespace RingBuffer

variable {n : Nat} [NeZero n] {α : Type*}

/-- The slot the next value goes to. -/
def next (r : RingBuffer n α) : Fin n := r.cur + 1

def push (r : RingBuffer n α) (a : α) : RingBuffer n α :=
  ⟨Function.update r.slots r.next a, r.next⟩

/-- Overwrite a slot without moving the ring. -/
def set (r : RingBuffer n α) (j : Fin n) (a : α) : RingBuffer n α :=
  { r with slots := Function.update r.slots j a }

/-- How many further pushes leave slot `j` alone. -/
def room (r : RingBuffer n α) (j : Fin n) : Nat := (j - r.next).val

theorem room_eq_zero {r : RingBuffer n α} {j : Fin n} : r.room j = 0 ↔ j = r.next := by
  rw [room, Fin.val_eq_zero_iff, sub_eq_zero]

@[simp] theorem push_slots_next (r : RingBuffer n α) (a : α) :
    (r.push a).slots r.next = a := by simp [push]

theorem push_slots_of_room {r : RingBuffer n α} {j : Fin n} (h : r.room j ≠ 0) (a : α) :
    (r.push a).slots j = r.slots j := by
  have hj : j ≠ r.next := fun e => h (room_eq_zero.mpr e)
  simp [push, hj]

theorem push_room {r : RingBuffer n α} {j : Fin n} (h : r.room j ≠ 0) (a : α) :
    (r.push a).room j = r.room j - 1 := by
  have hne : j - r.next ≠ 0 := fun e => h (by rw [room, e]; rfl)
  have he : j - (r.push a).next = j - r.next - 1 := by
    change j - (r.next + 1) = j - r.next - 1
    rw [sub_add_eq_sub_sub]
  rw [room, he, Fin.val_sub_one_of_ne_zero hne, room]

/-- A slot just written survives `n - 1` further pushes. -/
theorem push_room_next (r : RingBuffer n α) (a : α) : (r.push a).room r.next = n - 1 := by
  have he : r.next - (r.push a).next = -1 := by
    change r.next - (r.next + 1) = -1
    rw [sub_add_cancel_left]
  rw [room, he]
  cases n with
  | zero => exact (NeZero.ne 0 rfl).elim
  | succ m => exact Fin.coe_neg_one

@[simp] theorem set_room (r : RingBuffer n α) (j k : Fin n) (a : α) :
    (r.set j a).room k = r.room k := rfl

omit [NeZero n] in
@[simp] theorem set_slots_self (r : RingBuffer n α) (j : Fin n) (a : α) :
    (r.set j a).slots j = a := by simp [set]

omit [NeZero n] in
theorem set_slots_of_ne {r : RingBuffer n α} {j k : Fin n} (h : k ≠ j) (a : α) :
    (r.set j a).slots k = r.slots k := by simp [set, h]

@[simp] theorem push_next (r : RingBuffer n α) (a : α) : (r.push a).next = r.next + 1 := rfl

/-- A slot is pushed to and then written over. -/
theorem push_set_next (r : RingBuffer n α) (a b : α) : (r.push a).set r.next b = r.push b := by
  unfold push set
  congr 1
  exact Function.update_idem ..

def map {β : Type*} (f : α → β) (r : RingBuffer n α) : RingBuffer n β := ⟨f ∘ r.slots, r.cur⟩

theorem map_push {β : Type*} (f : α → β) (r : RingBuffer n α) (a : α) :
    (r.push a).map f = (r.map f).push (f a) := by
  unfold map push
  congr 1
  exact Function.comp_update ..

theorem next_add_one_ne (hn : 1 < n) (r : RingBuffer n α) : r.next + 1 ≠ r.next := by
  intro h
  have h1 : (1 : Fin n) = 0 := by simpa using h
  have h2 := congrArg Fin.val h1
  rw [Fin.val_one', Fin.val_zero, Nat.mod_eq_of_lt hn] at h2
  cases h2

theorem push_push_slots_next (hn : 1 < n) (r : RingBuffer n α) (a b : α) :
    ((r.push a).push b).slots r.next = a := by
  have hne : r.next ≠ (r.push a).next := Ne.symm (next_add_one_ne hn r)
  change Function.update (r.push a).slots (r.push a).next b r.next = a
  rw [Function.update_of_ne hne, push_slots_next]

/-- Rewriting the two newest slots in place is the same as having pushed the new values. -/
theorem set_push_push (hn : 1 < n) (r : RingBuffer n α) (a b a' b' : α) :
    (((r.push a).push b).set r.next a').set (r.next + 1) b' = (r.push a').push b' := by
  have hne := next_add_one_ne hn r
  have hne' : r.cur + 1 ≠ r.cur + 1 + 1 := Ne.symm hne
  unfold set push next
  congr 1
  funext j
  by_cases h1 : j = r.cur + 1 + 1
  · simp [h1]
  by_cases h2 : j = r.cur + 1
  · simp [h2, hne']
  · simp [h1, h2]

/-- Values pushed one after the other. -/
def pushAll (r : RingBuffer n α) (xs : List α) : RingBuffer n α := xs.foldl push r

@[simp] theorem pushAll_nil (r : RingBuffer n α) : r.pushAll [] = r := rfl

@[simp] theorem pushAll_cons (r : RingBuffer n α) (x : α) (xs : List α) :
    r.pushAll (x :: xs) = (r.push x).pushAll xs := rfl

theorem pushAll_append (r : RingBuffer n α) (xs ys : List α) :
    r.pushAll (xs ++ ys) = (r.pushAll xs).pushAll ys := List.foldl_append

/-- A slot outlives as many pushes as it has room for. -/
theorem pushAll_of_le_room {r : RingBuffer n α} {j : Fin n} {xs : List α}
    (h : xs.length ≤ r.room j) :
    (r.pushAll xs).slots j = r.slots j ∧ (r.pushAll xs).room j = r.room j - xs.length := by
  induction xs generalizing r with
  | nil => exact ⟨rfl, rfl⟩
  | cons x xs ih =>
    rw [List.length_cons] at h
    have hroom : r.room j ≠ 0 := by omega
    have hpush := push_room hroom x
    have hrest : xs.length ≤ (r.push x).room j := by omega
    obtain ⟨hslot, hleft⟩ := ih hrest
    refine ⟨hslot.trans (push_slots_of_room hroom x), ?_⟩
    rw [pushAll_cons, hleft, hpush, List.length_cons]
    omega

theorem push_slots (r : RingBuffer n α) (j : Fin n) (a : α) :
    (r.push a).slots j = a ∨ (r.push a).slots j = r.slots j := by
  by_cases h : j = r.next
  · exact .inl (h ▸ push_slots_next r a)
  · exact .inr (push_slots_of_room (fun e => h (room_eq_zero.mp e)) a)

/-- Whatever is pushed, a slot holds one of the new values or what it held before. -/
theorem pushAll_slots (r : RingBuffer n α) (j : Fin n) (xs : List α) :
    (r.pushAll xs).slots j ∈ xs ∨ (r.pushAll xs).slots j = r.slots j := by
  induction xs generalizing r with
  | nil => exact .inr rfl
  | cons x xs ih =>
    rw [pushAll_cons]
    rcases ih (r.push x) with h | h
    · exact .inl (List.mem_cons_of_mem x h)
    · rcases push_slots r j x with hx | hx
      · rw [h, hx]
        exact .inl (List.mem_cons_self ..)
      · exact .inr (h.trans hx)

/-- The slot of the value that comes `i` values after the next one. -/
def slotAt (r : RingBuffer n α) (i : Nat) : Fin n := r.next + Fin.ofNat n i

theorem slotAt_succ (r : RingBuffer n α) (i : Nat) : r.slotAt (i + 1) = r.slotAt i + 1 := by
  have hcast : Fin.ofNat n (i + 1) = Fin.ofNat n i + 1 := by
    ext
    simp [Fin.val_add, Fin.ofNat]
  rw [slotAt, hcast, ← add_assoc]
  rfl

theorem push_slotAt (r : RingBuffer n α) (a : α) (i : Nat) :
    (r.push a).slotAt i = r.slotAt (i + 1) := by
  rw [slotAt_succ, slotAt, slotAt, push_next, add_right_comm]

@[simp] theorem set_slotAt (r : RingBuffer n α) (j : Fin n) (a : α) (i : Nat) :
    (r.set j a).slotAt i = r.slotAt i := rfl

/-- Two values share a slot when the ring has come round between them. -/
theorem slotAt_eq_iff (r : RingBuffer n α) {i j : Nat} (h : i ≤ j) :
    r.slotAt i = r.slotAt j ↔ (j - i) % n = 0 := by
  rw [slotAt, slotAt, add_right_inj, Fin.ext_iff]
  show i % n = j % n ↔ _
  constructor
  · intro he
    exact Nat.sub_mod_eq_zero_of_mod_eq he.symm
  · intro he
    obtain ⟨k, hk⟩ := Nat.dvd_of_mod_eq_zero he
    have hj : j = i + n * k := by omega
    rw [hj, Nat.add_mul_mod_self_left]

theorem slotAt_inj (r : RingBuffer n α) {i j : Nat} (hij : i < j + n) (hji : j < i + n)
    (h : r.slotAt i = r.slotAt j) : i = j := by
  rcases Nat.le_total i j with hle | hle
  · have hmod := (slotAt_eq_iff r hle).mp h
    rw [Nat.mod_eq_of_lt (by omega)] at hmod
    omega
  · have hmod := (slotAt_eq_iff r hle).mp h.symm
    rw [Nat.mod_eq_of_lt (by omega)] at hmod
    omega

/-- As many values in a row as there are slots come to different ones. -/
theorem slotAt_nodup (r : RingBuffer n α) (m i : Nat) :
    ((((List.range m).map r.slotAt).drop i).take n).Nodup := by
  rw [← List.map_drop, ← List.map_take, List.range_eq_range', List.drop_range', Nat.zero_add,
    Nat.mul_one]
  have hwindow : ∀ x ∈ (List.range' i (m - i)).take n, i ≤ x ∧ x < i + n := by
    intro x hx
    rcases Nat.le_total n (m - i) with hle | hle
    · rw [List.take_range'_of_length_ge hle] at hx
      exact List.mem_range'_1.mp hx
    · rw [List.take_range'_of_length_le hle] at hx
      have hmem := List.mem_range'_1.mp hx
      omega
  apply List.Nodup.map_on
  · intro x hx y hy heq
    have hxw := hwindow x hx
    have hyw := hwindow y hy
    exact slotAt_inj r (by omega) (by omega) heq
  · exact (List.nodup_range' ..).sublist (List.take_sublist ..)

theorem pushAll_next (r : RingBuffer n α) (xs : List α) :
    (r.pushAll xs).next = r.slotAt xs.length := by
  induction xs using List.reverseRecOn with
  | nil => simp [slotAt, Fin.ofNat]
  | append_singleton xs x ih =>
    rw [pushAll_append, List.length_append, List.length_singleton, slotAt_succ, ← ih]
    rfl

/-- The last of `m` values to come to the slot of value `i`. -/
def latest (n i m : Nat) : Nat := i + n * ((m - 1 - i) / n)

omit [NeZero n] in
theorem latest_lt {i m : Nat} (h : i < m) : latest n i m < m := by
  have hle := Nat.mul_div_le (m - 1 - i) n
  rw [latest]
  omega

/-- Whatever was pushed, a slot holds the last value to come to it. -/
theorem pushAll_latest (r : RingBuffer n α) (xs : List α) {i : Nat} (h : i < xs.length) :
    xs[latest n i xs.length]? = some ((r.pushAll xs).slots (r.slotAt i)) := by
  induction xs using List.reverseRecOn with
  | nil => cases h
  | append_singleton xs x ih =>
    rw [List.length_append, List.length_singleton] at h ⊢
    have hpush : r.pushAll (xs ++ [x]) = (r.pushAll xs).push x := by
      rw [pushAll_append]
      rfl
    rw [hpush, latest, Nat.add_sub_cancel]
    by_cases hround : (xs.length - i) % n = 0
    · have hslot : r.slotAt i = (r.pushAll xs).next := by
        rw [pushAll_next]
        exact (slotAt_eq_iff r (by omega)).mpr hround
      have hlast : i + n * ((xs.length - i) / n) = xs.length := by
        have hmul := Nat.mul_div_cancel' (Nat.dvd_of_mod_eq_zero hround)
        omega
      rw [hslot, push_slots_next, hlast, List.getElem?_concat_length]
    · have hlt : i < xs.length := by
        by_contra hge
        have hzero : xs.length - i = 0 := by omega
        exact hround (by rw [hzero, Nat.zero_mod])
      have hslot : r.slotAt i ≠ (r.pushAll xs).next := by
        rw [pushAll_next]
        exact fun he => hround ((slotAt_eq_iff r hlt.le).mp he)
      have hdiv : (xs.length - i) / n = (xs.length - 1 - i) / n := by
        obtain ⟨k, hk⟩ : ∃ k, xs.length - i = k + 1 := ⟨xs.length - i - 1, by omega⟩
        have hk' : xs.length - 1 - i = k := by omega
        rw [hk] at hround
        rw [hk, hk', Nat.succ_div_of_mod_ne_zero hround]
      have hroom : (r.pushAll xs).room (r.slotAt i) ≠ 0 := fun he => hslot (room_eq_zero.mp he)
      rw [push_slots_of_room hroom, hdiv, ← ih hlt]
      exact List.getElem?_append_left (latest_lt hlt)

end RingBuffer
