import DropletFs.Model.Tmpstr

/-! How long a temporary string lasts. Every call moves the ring of buffers by one. -/

namespace DropletFs

open CText

namespace Tmpstr

variable {t : Tmpstr} {slot : Fin tmpstrNb} {c : TmpstrStep}

/-- The buffers as a ring. -/
def ring (t : Tmpstr) : RingBuffer tmpstrNb Buffer := ⟨t.strings, ⟨t.current, t.bounded⟩⟩

theorem new_fst (t : Tmpstr) : t.new.1 = t.ring.next := by
  have hlt := t.bounded
  apply Fin.ext
  show t.new.1.val = (t.current + 1 % tmpstrNb) % tmpstrNb
  by_cases h : t.current + 1 ≥ tmpstrNb
  · have hone : t.current + 1 % tmpstrNb = tmpstrNb := by
      rw [show 1 % tmpstrNb = 1 from rfl]
      omega
    rw [new, dif_pos h, hone, Nat.mod_self]
  · rw [new, dif_neg h, show 1 % tmpstrNb = 1 from rfl, Nat.mod_eq_of_lt (by omega)]

theorem new_strings (t : Tmpstr) : t.new.2.strings = t.strings := by
  unfold new
  split
  · rfl
  · rfl

theorem new_current (t : Tmpstr) : t.new.2.current = t.new.1.val := by
  unfold new
  split
  · rfl
  · rfl

/-- `tmpstr_new` leaves the bytes of the buffer that it returns. -/
theorem new_ring (t : Tmpstr) : t.new.2.ring = t.ring.push (t.ring.slots t.ring.next) := by
  have hcur : t.new.2.ring.cur = t.ring.next := by
    rw [← new_fst]
    exact Fin.ext (new_current t)
  have hslots : t.new.2.ring.slots = t.ring.slots := new_strings t
  rw [RingBuffer.push, Function.update_eq_self, ← hcur, ← hslots]

theorem write_ring (t : Tmpstr) (slot : Fin tmpstrNb) (buf : Buffer) :
    (t.write slot buf).ring = t.ring.set slot buf := rfl

theorem printf_ring (fmt : Format) (overlapped : Buffer) :
    (t.printf fmt overlapped).2.ring = t.ring.push (t.filled fmt overlapped t.ring.next) := by
  have hfilled : t.new.2.filled fmt overlapped t.new.1 = t.filled fmt overlapped t.new.1 := by
    rw [filled, filled, formatted, formatted, new_strings]
  rw [printf, write_ring, hfilled, new_ring, new_fst, RingBuffer.push_set_next]

/-- Both calls take the next buffer of the ring. -/
theorem exec_call (t : Tmpstr) (hc : c.isCall = true) :
    (c.exec t).1 = some t.ring.next ∧ ∃ buf, (c.exec t).2.ring = t.ring.push buf := by
  cases c with
  | new => exact ⟨congrArg some (new_fst t), _, new_ring t⟩
  | printf fmt overlapped => exact ⟨congrArg some (new_fst t), _, printf_ring fmt overlapped⟩
  | write slot buf => cases hc

def calls (cs : List TmpstrStep) : Nat := cs.countP TmpstrStep.isCall

theorem calls_call (cs : List TmpstrStep) (hc : c.isCall = true) :
    calls (c :: cs) = calls cs + 1 := List.countP_cons_of_pos hc

theorem calls_write (cs : List TmpstrStep) (buf : Buffer) :
    calls (.write slot buf :: cs) = calls cs :=
  List.countP_cons_of_neg (by simp [TmpstrStep.isCall])

theorem calls_append (cs ds : List TmpstrStep) : calls (cs ++ ds) = calls cs + calls ds :=
  List.countP_append

/-- A step is a call or a write. -/
theorem isCall_or_write (c : TmpstrStep) :
    c.isCall = true ∨ ∃ slot buf, c = .write slot buf := by
  cases c with
  | write slot buf => exact .inr ⟨slot, buf, rfl⟩
  | new | printf => exact .inl rfl

theorem returned_eq (t : Tmpstr) (cs : List TmpstrStep) :
    t.returned cs = (List.range (calls cs)).map t.ring.slotAt := by
  induction cs generalizing t with
  | nil => rfl
  | cons c cs ih =>
    rw [returned, ih]
    rcases isCall_or_write c with hc | ⟨slot, buf, rfl⟩
    · obtain ⟨hfst, buf, hring⟩ := exec_call t hc
      have hnext : t.ring.next = t.ring.slotAt 0 := by
        simp [RingBuffer.slotAt, Fin.ofNat]
      rw [hfst, hring, calls_call cs hc, List.range_succ_eq_map, List.map_cons, List.map_map,
        hnext]
      apply congrArg (t.ring.slotAt 0 :: ·)
      apply List.map_congr_left
      intro i _
      exact RingBuffer.push_slotAt t.ring buf i
    · rw [calls_write]
      rfl

theorem run_cons (t : Tmpstr) (c : TmpstrStep) (cs : List TmpstrStep) :
    t.run (c :: cs) = (c.exec t).2.run cs := rfl

theorem run_append (t : Tmpstr) (cs ds : List TmpstrStep) :
    t.run (cs ++ ds) = (t.run cs).run ds := List.foldl_append

/-- Calls use up the room of a buffer. -/
theorem run_room (cs : List TmpstrStep) (h : calls cs ≤ t.ring.room slot) :
    (t.run cs).ring.room slot = t.ring.room slot - calls cs := by
  induction cs generalizing t with
  | nil => rfl
  | cons c cs ih =>
    rw [run_cons]
    rcases isCall_or_write c with hc | ⟨j, buf, rfl⟩
    · obtain ⟨_, buf, hring⟩ := exec_call t hc
      rw [calls_call cs hc] at h ⊢
      have hroom : t.ring.room slot ≠ 0 := by omega
      have hpush := RingBuffer.push_room hroom buf
      rw [← hring] at hpush
      rw [ih (by omega), hpush]
      omega
    · rw [calls_write] at h ⊢
      exact ih (t := t.write j buf) h

/-- A buffer with room for the calls is left to the writes of the thread. -/
theorem run_slot (cs : List TmpstrStep) (h : calls cs ≤ t.ring.room slot)
    (hown : ∀ buf, TmpstrStep.write slot buf ∉ cs) :
    (t.run cs).strings slot = t.strings slot := by
  induction cs generalizing t with
  | nil => rfl
  | cons c cs ih =>
    have hrest : ∀ buf, TmpstrStep.write slot buf ∉ cs := fun buf hm =>
      hown buf (List.mem_cons_of_mem _ hm)
    rw [run_cons]
    rcases isCall_or_write c with hc | ⟨j, buf, rfl⟩
    · obtain ⟨_, buf, hring⟩ := exec_call t hc
      rw [calls_call cs hc] at h
      have hroom : t.ring.room slot ≠ 0 := by omega
      have hpush := RingBuffer.push_room hroom buf
      have hslot := RingBuffer.push_slots_of_room hroom buf
      rw [← hring] at hpush hslot
      exact (ih (by omega) hrest).trans hslot
    · rw [calls_write] at h
      have hne : slot ≠ j := by
        intro heq
        exact hown buf (heq ▸ List.mem_cons_self ..)
      have hslot : (t.write j buf).strings slot = t.strings slot := Function.update_of_ne hne ..
      exact (ih (t := t.write j buf) h hrest).trans hslot

/-- A buffer that holds the longest prefix of a text that fits. -/
def LongestPrefix (buf : Buffer) (text : CStr) : Prop :=
  ∃ k, k < tmpstrMax ∧ buf.val[k]? = some nul ∧ buf.val.take k <+: text ∧
    ∀ p, p <+: text → p.length < tmpstrMax → p <+: buf.val.take k

theorem vsnprintf_longest (buf : Buffer) (text : CStr) :
    LongestPrefix (vsnprintf buf text) text := by
  have hmax : 0 < tmpstrMax := by decide
  have htake : (vsnprintf buf text).val.take (snprintf tmpstrMax text).length =
      snprintf tmpstrMax text := List.take_left' rfl
  refine ⟨(snprintf tmpstrMax text).length, snprintf_length_lt hmax text, ?_, ?_, ?_⟩
  · show (_ ++ nul :: _)[_]? = _
    rw [List.getElem?_append_right (Nat.le_refl _), Nat.sub_self]
    rfl
  · rw [htake]
    exact List.take_prefix _ text
  · intro p hp hlt
    rw [htake]
    apply List.prefix_take_iff.mpr
    exact ⟨hp, by omega⟩

theorem returned_nodup (t : Tmpstr) (cs : List TmpstrStep) (i : Nat) :
    (((t.returned cs).drop i).take tmpstrNb).Nodup := by
  rw [returned_eq]
  exact RingBuffer.slotAt_nodup ..

theorem returned_kept {c : TmpstrStep} {before mid after : List TmpstrStep}
    (hc : (c.exec (t.run before)).1 = some slot) (hcalls : calls (mid ++ after) < tmpstrNb)
    (hown : ∀ buf, TmpstrStep.write slot buf ∉ after) :
    (t.run (before ++ c :: (mid ++ after))).strings slot =
      (t.run (before ++ c :: mid)).strings slot := by
  have hcall : c.isCall = true := by
    rcases isCall_or_write c with h | ⟨j, buf, rfl⟩
    · exact h
    · cases hc
  obtain ⟨hslot, buf, hring⟩ := exec_call (t.run before) hcall
  rw [hc] at hslot
  have hroom := RingBuffer.push_room_next (t.run before).ring buf
  rw [← hring, ← Option.some.inj hslot] at hroom
  rw [calls_append] at hcalls
  have hleft : calls mid ≤ (c.exec (t.run before)).2.ring.room slot := by omega
  have hmid := run_room mid hleft
  rw [run_append, run_append, run_cons, run_cons, run_append]
  apply run_slot after _ hown
  omega

theorem printf_longest {fmt : Format} {overlapped : Buffer} {before : List TmpstrStep}
    (hstored : (t.run before).new.1 ∉ fmt.stored) :
    (TmpstrStep.printf fmt overlapped).exec (t.run before) =
        (some (t.run before).new.1, t.run (before ++ [.printf fmt overlapped])) ∧
      LongestPrefix ((t.run (before ++ [.printf fmt overlapped])).strings (t.run before).new.1)
        ((t.run before).formatted fmt) := by
  rw [run_append]
  refine ⟨rfl, ?_⟩
  rw [new_fst] at hstored ⊢
  have hring := printf_ring (t := t.run before) fmt overlapped
  rw [filled, if_neg hstored] at hring
  have hslot := congrArg (fun r => r.slots (t.run before).ring.next) hring
  simp only [RingBuffer.push_slots_next] at hslot
  have hstrings : ((t.run before).run [.printf fmt overlapped]).strings (t.run before).ring.next =
      vsnprintf ((t.run before).ring.slots (t.run before).ring.next)
        ((t.run before).formatted fmt) := hslot
  rw [hstrings]
  exact vsnprintf_longest ..

/-- The ring of texts that the callbacks work with. -/
def texts (t : Tmpstr) : Ring := t.ring.map fun buf => cstr buf.val

theorem formatted_join (t : Tmpstr) (args : List Str) :
    t.formatted (.join args) = args.flatMap fun arg => arg.read t.texts := by
  show joinArgs args ((args.filterMap Str.slot?).map t.strings) = _
  induction args with
  | nil => rfl
  | cons arg args ih =>
    cases arg with
    | ext text => exact congrArg (text ++ ·) ih
    | tmp slot => exact congrArg (cstr (t.strings slot).val ++ ·) ih

/-- The `tmpstr_printf` of the callbacks is the one on bytes, for arguments that are strings. -/
theorem tmpstrPrintf_refines {s : World} (hs : s.ring = t.texts) {args : List Str}
    (hargs : .tmp s.ring.next ∉ args) (hext : ∀ text, .ext text ∈ args → nul ∉ text)
    (overlapped : Buffer) :
    s.tmpstrPrintf args = .ok (.tmp (t.printf (.join args) overlapped).1,
      { s with ring := (t.printf (.join args) overlapped).2.texts }) := by
  have hnext : s.ring.next = t.ring.next := by
    rw [hs]
    rfl
  have hstored : t.ring.next ∉ args.filterMap Str.slot? := by
    intro hm
    obtain ⟨arg, harg, hslot⟩ := List.mem_filterMap.mp hm
    cases arg with
    | ext text => cases hslot
    | tmp slot =>
      apply hargs
      rw [hnext, ← Option.some.inj hslot]
      exact harg
  have htext : args.flatMap s.text = t.formatted (.join args) := by
    rw [formatted_join, ← hs]
    rfl
  have hnul : nul ∉ snprintf tmpstrMax (t.formatted (.join args)) := by
    intro hm
    have hm := List.mem_of_mem_take hm
    rw [formatted_join] at hm
    obtain ⟨arg, harg, hread⟩ := List.mem_flatMap.mp hm
    cases arg with
    | ext text => exact hext text harg hread
    | tmp slot => exact nul_notMem_cstr _ hread
  have hbytes := cstr_cut hnul
    ((t.ring.slots t.ring.next).val.drop
      ((snprintf tmpstrMax (t.formatted (.join args))).length + 1))
  have hring : (t.printf (.join args) overlapped).2.ring = t.ring.push
      (vsnprintf (t.ring.slots t.ring.next) (t.formatted (.join args))) := by
    rw [printf_ring, filled]
    exact congrArg t.ring.push (if_neg hstored)
  have htexts : (t.printf (.join args) overlapped).2.texts =
      t.texts.push (snprintf tmpstrMax (t.formatted (.join args))) := by
    rw [texts, hring, RingBuffer.map_push]
    exact congrArg t.texts.push hbytes
  rw [World.tmpstrPrintf, if_neg hargs, htext, htexts, hnext, hs]
  rw [← new_fst]
  rfl

end Tmpstr

open Tmpstr

/-- Any 32 calls in a row return different buffers, a buffer is left alone by the 31 calls after the
one that returned it, and `tmpstr_printf` leaves as much of the text as fits. -/
theorem tmpstr_lifetimes (t : Tmpstr) (cs : List TmpstrStep) :
    (∀ i, (((t.returned cs).drop i).take tmpstrNb).Nodup) ∧
    (∀ before c mid after slot, cs = before ++ c :: (mid ++ after) →
      (c.exec (t.run before)).1 = some slot → calls (mid ++ after) < tmpstrNb →
      (∀ buf, TmpstrStep.write slot buf ∉ after) →
      (t.run cs).strings slot = (t.run (before ++ c :: mid)).strings slot) ∧
    ∀ before fmt overlapped, cs = before ++ [.printf fmt overlapped] →
      (t.run before).new.1 ∉ fmt.stored →
      (TmpstrStep.printf fmt overlapped).exec (t.run before) =
        (some (t.run before).new.1, t.run cs) ∧
      LongestPrefix ((t.run cs).strings (t.run before).new.1) ((t.run before).formatted fmt) := by
  refine ⟨returned_nodup t cs, ?_, ?_⟩
  · rintro before c mid after slot rfl hc hcalls hown
    exact returned_kept hc hcalls hown
  · rintro before fmt overlapped rfl hstored
    exact printf_longest hstored

/-- The strings of a thread before its first call. -/
def Sample.strings : Tmpstr :=
  ⟨fun _ => ⟨List.replicate tmpstrMax nul, List.length_replicate⟩, 0, tmpstrNb_pos⟩

/-- A string of one character outlives the call after it. -/
theorem tmpstr_lifetimes_sample :
    let fmt : Format := ⟨[], fun _ => ['d']⟩
    let blank : Buffer := Sample.strings.strings 0
    (Sample.strings.run [.printf fmt blank, .new]).strings 1 =
        (Sample.strings.run [.printf fmt blank]).strings 1 ∧
      LongestPrefix ((Sample.strings.run [.printf fmt blank]).strings 1) ['d'] := by
  intro fmt blank
  constructor
  · exact (tmpstr_lifetimes Sample.strings [.printf fmt blank, .new]).2.1 [] (.printf fmt blank) []
      [.new] 1 rfl rfl (by decide) (fun _ hm => by cases hm; contradiction)
  · exact ((tmpstr_lifetimes Sample.strings [.printf fmt blank]).2.2 [] fmt blank rfl
      (List.not_mem_nil)).2

end DropletFs
