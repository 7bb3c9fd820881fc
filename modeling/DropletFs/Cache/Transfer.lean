import DropletFs.Cache.Frame
import DropletFs.Model.Sample
import DropletFs.Model.Transfer

/-! The loops that move file data move all of it, once and in order, whatever part of it each call
takes. -/

namespace DropletFs

open CText

section Splice

variable {data a b : Bytes} {offset : Nat}

theorem spliceAt_length (data : Bytes) (offset : Nat) (bytes : Bytes) :
    (spliceAt data offset bytes).length = max data.length (offset + bytes.length) := by
  simp only [spliceAt, List.length_append, List.length_take, List.length_replicate,
    List.length_drop]
  omega

/-- Two writes in a row are one. -/
theorem spliceAt_append (data : Bytes) (offset : Nat) (a b : Bytes) :
    spliceAt (spliceAt data offset a) (offset + a.length) b = spliceAt data offset (a ++ b) := by
  have hgap : offset + a.length - (spliceAt data offset a).length = 0 := by
    rw [spliceAt_length]
    omega
  have hpad : ((data ++ List.replicate (offset - data.length) 0).take offset).length = offset := by
    simp only [List.length_take, List.length_append, List.length_replicate]
    omega
  have hfront : (spliceAt data offset a).take (offset + a.length) =
      (data ++ List.replicate (offset - data.length) 0).take offset ++ a := by
    apply List.take_left'
    rw [List.length_append, hpad]
  have hsecond : (spliceAt data offset a).drop (offset + a.length) =
      data.drop (offset + a.length) := by
    apply List.drop_left'
    rw [List.length_append, hpad]
  have hback : (spliceAt data offset a).drop (offset + a.length + b.length) =
      data.drop (offset + a.length + b.length) := by
    rw [← List.drop_drop, hsecond, List.drop_drop]
  conv_lhs => rw [spliceAt, hgap, List.replicate_zero, List.append_nil, hfront, hback]
  rw [spliceAt, List.append_assoc, List.append_assoc, List.append_assoc, List.append_assoc,
    List.length_append, Nat.add_assoc]

theorem spliceAt_nil (bytes : Bytes) : spliceAt [] 0 bytes = bytes := by
  simp [spliceAt]

end Splice

namespace LocalFs

variable {fs : LocalFs} {fd : Nat} {f : OpenFile}

@[simp] theorem writeFd_nil (fs : LocalFs) (fd : Nat) : fs.writeFd fd [] = fs := by
  unfold writeFd
  cases fs.fds.lookup fd <;> rfl

theorem writeFd_some (hf : fs.fds.lookup fd = some f) {bytes : Bytes} (hne : bytes ≠ []) :
    fs.writeFd fd bytes =
      { fs.writeInode f.inode (spliceAt (fs.inodes f.inode).data f.offset bytes) with
        fds := fs.fds.insert fd { f with offset := f.offset + bytes.length } } := by
  rw [writeFd, hf]
  exact if_neg hne

theorem writeFd_lookup (hf : fs.fds.lookup fd = some f) (bytes : Bytes) :
    (fs.writeFd fd bytes).fds.lookup fd = some { f with offset := f.offset + bytes.length } := by
  by_cases hne : bytes = []
  · subst hne
    rw [writeFd_nil]
    exact hf
  · rw [writeFd_some hf hne]
    exact AList.lookup_insert _

/-- Two writes in a row are one. -/
theorem writeFd_append (fs : LocalFs) (fd : Nat) (a b : Bytes) :
    (fs.writeFd fd a).writeFd fd b = fs.writeFd fd (a ++ b) := by
  cases hf : fs.fds.lookup fd with
  | none => simp [writeFd, hf]
  | some f =>
    by_cases ha : a = []
    · rw [ha, writeFd_nil, List.nil_append]
    by_cases hb : b = []
    · rw [hb, writeFd_nil, List.append_nil]
    have hab : a ++ b ≠ [] := fun h => ha (List.append_eq_nil_iff.mp h).1
    rw [writeFd_some (writeFd_lookup hf a) hb, writeFd_some hf ha, writeFd_some hf hab]
    simp only [writeInode, Function.update_self, Function.update_idem, AList.insert_insert,
      spliceAt_append, List.length_append, Nat.add_assoc]

theorem erase_insert (fds : AList (fun _ : Nat => OpenFile)) (fd : Nat) (f : OpenFile) :
    (fds.insert fd f).erase fd = fds.erase fd := by
  apply AList.ext
  change List.kerase fd (⟨fd, f⟩ :: List.kerase fd fds.entries) = _
  exact List.kerase_cons_eq rfl

/-- Writing to a file just truncated. -/
theorem writeFd_truncated (hf : fs.fds.lookup fd = some f) (h0 : f.offset = 0)
    (hempty : (fs.inodes f.inode).data = []) (bytes : Bytes) :
    (fs.writeFd fd bytes).content fd = some bytes ∧
      (fs.writeFd fd bytes).close fd = (fs.writeInode f.inode bytes).close fd := by
  by_cases hne : bytes = []
  · subst hne
    have hsame : fs.writeInode f.inode [] = fs := by
      unfold writeInode
      rw [← hempty, Function.update_eq_self]
    rw [writeFd_nil, hsame]
    exact ⟨by simp [content, inodeOf, hf, hempty], rfl⟩
  · rw [writeFd_some hf hne, hempty, h0, spliceAt_nil]
    constructor
    · simp [content, inodeOf, writeInode]
    · simp only [close, erase_insert]
      rfl

end LocalFs

section Write

variable {answers : Nat → IoAnswer} {fd : Nat} {fs fs' : LocalFs} {buf : Bytes} {len : Int}

theorem sysWrite_ok {answer : IoAnswer} {cc : Nat}
    (h : sysWrite answer fs fd buf len = .ok (cc, fs')) :
    0 ≤ len ∧ cc ≤ len.toNat ∧ (0 < len → 0 < cc) ∧ fs' = fs.writeFd fd (buf.take cc) := by
  unfold sysWrite at h
  cases hf : fs.fds.lookup fd with
  | none => simp [hf] at h
  | some f =>
    rw [hf] at h
    dsimp only at h
    split_ifs at h with hacc
    rw [not_or] at hacc
    cases answer with
    | count k =>
      simp only [Except.ok.injEq, Prod.mk.injEq] at h
      obtain ⟨rfl, rfl⟩ := h
      exact ⟨by omega, by omega, by omega, rfl⟩
    | eintr => cases h
    | error => cases h

theorem sysWrite_eintr {answer : IoAnswer} (h : sysWrite answer fs fd buf len = .error .eintr) :
    answer = .eintr := by
  unfold sysWrite at h
  cases hf : fs.fds.lookup fd with
  | none => simp [hf] at h
  | some f =>
    rw [hf] at h
    dsimp only at h
    split_ifs at h with hacc
    · cases h
    · cases answer with
      | eintr => rfl
      | error => cases h
      | count k => cases h

/-- What `write_all` has done when it returns: all bytes written, or some of the first ones, and
then the next call failed, not by an interrupt. -/
inductive WrittenAll (answers : Nat → IoAnswer) (fd : Nat) (fs : LocalFs) (buf : Bytes)
    (len : Int) : Int × Nat × LocalFs → Prop
  | all (k : Nat) : 0 ≤ len →
      WrittenAll answers fd fs buf len (0, k, fs.writeFd fd (buf.take len.toNat))
  | part (k n : Nat) : (n : Int) ≤ max len 0 →
      sysWrite (answers k) (fs.writeFd fd (buf.take n)) fd (buf.drop n) (len - n) = .error .other →
      WrittenAll answers fd fs buf len (-1, k + 1, fs.writeFd fd (buf.take n))

/-- One call that takes some bytes, and the rest of the loop. -/
theorem WrittenAll.step {cc : Nat} {out : Int × Nat × LocalFs} (h0 : 0 ≤ len)
    (hcc : cc ≤ len.toNat)
    (h : WrittenAll answers fd (fs.writeFd fd (buf.take cc)) (buf.drop cc) (len - cc) out) :
    WrittenAll answers fd fs buf len out := by
  have hjoin : ∀ n, buf.take cc ++ (buf.drop cc).take n = buf.take (cc + n) := by
    intro n
    rw [List.take_add]
  cases h with
  | all k hpos =>
    rw [LocalFs.writeFd_append, hjoin]
    have hlen : cc + (len - cc).toNat = len.toNat := by omega
    rw [hlen]
    exact .all k h0
  | part k n hn hfail =>
    rw [LocalFs.writeFd_append, hjoin, List.drop_drop] at hfail
    rw [LocalFs.writeFd_append, hjoin]
    apply WrittenAll.part k (cc + n) (by omega)
    rw [← hfail]
    congr 1
    omega

theorem writeAll_written (fuel k : Nat) (fs : LocalFs) (buf : Bytes) (len : Int)
    (hbuf : len ≤ buf.length) {out : Int × Nat × LocalFs}
    (h : writeAll answers fd fuel k fs buf len = some out) :
    WrittenAll answers fd fs buf len out := by
  induction fuel generalizing k fs buf len with
  | zero => cases h
  | succ fuel ih =>
    rw [writeAll] at h
    cases hw : sysWrite (answers k) fs fd buf len with
    | error e =>
      rw [hw] at h
      cases e with
      | eintr => exact ih _ _ _ _ hbuf h
      | other =>
        simp only [Option.some.injEq] at h
        rw [← h]
        have hpart : WrittenAll answers fd fs buf len (-1, k + 1, fs.writeFd fd (buf.take 0)) := by
          apply WrittenAll.part k 0 (by omega)
          rw [List.take_zero, LocalFs.writeFd_nil, List.drop_zero]
          simpa using hw
        rw [List.take_zero, LocalFs.writeFd_nil] at hpart
        exact hpart
    | ok res =>
      obtain ⟨cc, fs'⟩ := res
      obtain ⟨h0, hcc, _, rfl⟩ := sysWrite_ok hw
      rw [hw] at h
      dsimp only at h
      split_ifs at h with hdone
      · simp only [Option.some.injEq] at h
        have hlen : len.toNat = cc := by omega
        rw [← h, ← hlen]
        exact .all _ h0
      · apply WrittenAll.step h0 hcc
        exact ih _ _ _ _ (by rw [List.length_drop]; omega) h

/-- Every run of interrupts ends. -/
def EndsInterrupts (answers : Nat → IoAnswer) : Prop := ∀ n, ∃ m, n ≤ m ∧ answers m ≠ .eintr

/-- A call that is interrupted, or takes bytes, leaves it to the rest of the loop to return. -/
theorem writeAll_returns_step {k : Nat}
    (hagain : answers k = .eintr → ∃ fuel, (writeAll answers fd fuel (k + 1) fs buf len).isSome)
    (hgoOn : ∀ cc : Nat, 0 < cc → (cc : Int) < len → ∃ fuel, (writeAll answers fd fuel (k + 1)
      (fs.writeFd fd (buf.take cc)) (buf.drop cc) (len - cc)).isSome) :
    ∃ fuel, (writeAll answers fd fuel k fs buf len).isSome := by
  cases hw : sysWrite (answers k) fs fd buf len with
  | error e =>
    cases e with
    | eintr =>
      obtain ⟨fuel, hfuel⟩ := hagain (sysWrite_eintr hw)
      exact ⟨fuel + 1, by simpa [writeAll, hw] using hfuel⟩
    | other => exact ⟨1, by simp [writeAll, hw]⟩
  | ok res =>
    obtain ⟨cc, fs'⟩ := res
    obtain ⟨h0, hcc, hpos, rfl⟩ := sysWrite_ok hw
    by_cases hdone : len - cc = 0
    · exact ⟨1, by simp [writeAll, hw, hdone]⟩
    · obtain ⟨fuel, hfuel⟩ := hgoOn cc (hpos (by omega)) (by omega)
      exact ⟨fuel + 1, by simpa [writeAll, hw, hdone] using hfuel⟩

theorem writeAll_returns (hint : EndsInterrupts answers) (k : Nat) (fs : LocalFs) (buf : Bytes)
    (len : Int) : ∃ fuel, (writeAll answers fd fuel k fs buf len).isSome := by
  -- first on the bytes left, then on the interrupts before the next answer
  induction hn : len.toNat using Nat.strongRecOn generalizing k fs buf len with
  | ind n ih =>
    obtain ⟨m, hkm, hm⟩ := hint k
    obtain ⟨d, rfl⟩ := Nat.exists_eq_add_of_le hkm
    clear hkm
    induction d generalizing k with
    | zero =>
      apply writeAll_returns_step
      · intro hk
        exact absurd hk hm
      · intro cc hpos hlt
        exact ih _ (by omega) _ _ _ _ rfl
    | succ d ihd =>
      apply writeAll_returns_step
      · intro _
        apply ihd
        rw [Nat.add_right_comm]
        exact hm
      · intro cc hpos hlt
        exact ih _ (by omega) _ _ _ _ rfl

end Write

section Download

variable {answers : Nat → IoAnswer} {fd : Nat} {fs fs' : LocalFs} {chunks : List Bytes}

/-- A callback that returns 0 has written its whole chunk. -/
theorem cbGetBuffered_whole {fuel k k' : Nat} {chunk : Bytes} (hlen : chunk.length < 2 ^ 32)
    (h : cbGetBuffered answers fd fuel k fs chunk = some (0, k', fs')) :
    fs' = fs.writeFd fd chunk := by
  unfold cbGetBuffered at h
  have hfit : toI32 chunk.length ≤ chunk.length := by
    unfold toI32
    split_ifs <;> omega
  cases hrun : writeAll answers fd fuel k fs chunk (toI32 chunk.length) with
  | none => simp [hrun] at h
  | some out =>
    have hwritten := writeAll_written fuel k fs chunk _ hfit hrun
    rw [hrun] at h
    cases hwritten with
    | all k hpos =>
      have hsame : (toI32 chunk.length).toNat = chunk.length := by
        unfold toI32 at hpos ⊢
        split_ifs at hpos ⊢ <;> omega
      simp only [Option.some.injEq, Prod.mk.injEq] at h
      rw [← h.2.2, hsame, List.take_length]
    | part k n hn hfail => simp at h

/-- A download whose callbacks all return 0 is one write of the concatenated chunks. -/
theorem getBuffered_whole {fuel k : Nat} (hlen : ∀ chunk ∈ chunks, chunk.length < 2 ^ 32)
    (h : getBuffered answers fd fuel k fs chunks = some (true, fs')) :
    fs' = fs.writeFd fd chunks.flatten := by
  induction chunks generalizing k fs with
  | nil =>
    simp only [getBuffered, Option.some.injEq, Prod.mk.injEq, true_and] at h
    rw [List.flatten_nil, LocalFs.writeFd_nil, h]
  | cons chunk chunks ih =>
    rw [getBuffered] at h
    cases hcb : cbGetBuffered answers fd fuel k fs chunk with
    | none => simp [hcb] at h
    | some out =>
      obtain ⟨ret, k', fs1⟩ := out
      rw [hcb] at h
      dsimp only at h
      split_ifs at h with hret
      · subst hret
        have hfirst := cbGetBuffered_whole (hlen chunk (List.mem_cons_self ..)) hcb
        have hrest := ih (fun other ho => hlen other (List.mem_cons_of_mem chunk ho)) h
        rw [hrest, hfirst, LocalFs.writeFd_append, List.flatten_cons]
      · simp at h

/-- Into the file that a download has just truncated: what the download of an object stores. -/
theorem getBuffered_truncated {fuel k : Nat} {f : OpenFile} (hf : fs.fds.lookup fd = some f)
    (h0 : f.offset = 0) (hempty : (fs.inodes f.inode).data = [])
    (hlen : ∀ chunk ∈ chunks, chunk.length < 2 ^ 32)
    (h : getBuffered answers fd fuel k fs chunks = some (true, fs')) :
    fs'.content fd = some chunks.flatten ∧
      fs'.close fd = (fs.writeInode f.inode chunks.flatten).close fd := by
  rw [getBuffered_whole hlen h]
  exact LocalFs.writeFd_truncated hf h0 hempty chunks.flatten

end Download

section Upload

variable {reads : Nat → IoAnswer} {sends : Nat → Status} {fd : Nat} {fs fs' : LocalFs}

theorem sysRead_ok {answer : IoAnswer} {count : Nat} {buf : Bytes} (hcount : 0 < count)
    (h : sysRead answer fs fd count = .ok (buf, fs')) :
    fs.remaining fd = buf ++ fs'.remaining fd ∧ (buf = [] → fs.remaining fd = []) := by
  unfold sysRead at h
  cases hf : fs.fds.lookup fd with
  | none => simp [hf] at h
  | some f =>
    rw [hf] at h
    dsimp only at h
    split_ifs at h
    cases answer with
    | eintr => cases h
    | error => cases h
    | count k =>
      simp only [Except.ok.injEq, Prod.mk.injEq] at h
      obtain ⟨hbuf, hfs⟩ := h
      have hrest : fs'.remaining fd = (fs.remaining fd).drop buf.length := by
        rw [← hfs, hbuf, LocalFs.setOffset, hf, LocalFs.remaining, LocalFs.remaining, hf]
        simp only [AList.lookup_insert, List.drop_drop]
      constructor
      · rw [hrest, ← hbuf]
        exact (List.prefix_iff_eq_append.mp (List.take_prefix _ _)).symm
      · intro hempty
        rw [hempty] at hbuf
        rcases List.take_eq_nil_iff.mp hbuf with h0 | hnil
        · omega
        · exact hnil

theorem readWriteAllVfileShort_whole {fuel k : Nat} {sent : Bytes}
    (h : readWriteAllVfileShort reads sends fd fuel k fs = some (0, sent, fs')) :
    sent = fs.remaining fd := by
  induction fuel generalizing k fs sent with
  | zero => cases h
  | succ fuel ih =>
    rw [readWriteAllVfileShort] at h
    cases hr : sysRead (reads k) fs fd writeBlockSize with
    | error e => simp [hr] at h
    | ok res =>
      obtain ⟨buf, fs1⟩ := res
      obtain ⟨hsplit, hend⟩ := sysRead_ok (by decide) hr
      rw [hr] at h
      dsimp only at h
      split_ifs at h with hempty hsend
      · simp only [Option.some.injEq, Prod.mk.injEq, true_and] at h
        rw [hend hempty, ← h.1]
      · simp at h
      · cases hrest : readWriteAllVfileShort reads sends fd fuel (k + 1) fs1 with
        | none => simp [hrest] at h
        | some out =>
          obtain ⟨ret, more, fs2⟩ := out
          rw [hrest] at h
          simp only [Option.some.injEq, Prod.mk.injEq] at h
          obtain ⟨rfl, rfl, rfl⟩ := h
          rw [hsplit, ih hrest]

theorem readWriteAllVfileShort_returns (fuel k : Nat) (hfuel : (fs.remaining fd).length < fuel) :
    (readWriteAllVfileShort reads sends fd fuel k fs).isSome := by
  induction fuel generalizing k fs with
  | zero => omega
  | succ fuel ih =>
    rw [readWriteAllVfileShort]
    cases hr : sysRead (reads k) fs fd writeBlockSize with
    | error e => rfl
    | ok res =>
      obtain ⟨buf, fs1⟩ := res
      obtain ⟨hsplit, _⟩ := sysRead_ok (by decide) hr
      dsimp only
      split_ifs with hempty hsend
      · rfl
      · rfl
      · have hpos := List.length_pos_iff.mpr hempty
        rw [hsplit, List.length_append] at hfuel
        have hless : (fs1.remaining fd).length < fuel := by omega
        have hrest := ih (k + 1) hless
        obtain ⟨out, hout⟩ := Option.isSome_iff_exists.mp hrest
        rw [hout]
        rfl

/-- Where every read fills the buffer, the loop is the one that works on the bytes left, and the
descriptor moves by the bytes passed on. -/
theorem readWriteAllVfileShort_eq (env : Env) (path : Path) {f : OpenFile} (fuel k : Nat)
    (hf : fs.fds.lookup fd = some f) (hacc : f.acc ≠ .wronly)
    (hfuel : (fs.remaining fd).length < fuel) :
    ∃ fs', readWriteAllVfileShort
        (fun j => if env.sys (.readBlock j) = none then .count (writeBlockSize - 1) else .error)
        (fun j => env.remote (.write path j)) fd fuel k fs =
      some (if (readWriteAllVfile env path fuel k (fs.remaining fd)).1 then 0 else -1,
        (readWriteAllVfile env path fuel k (fs.remaining fd)).2, fs') ∧
      fs'.fds.lookup fd = some { f with
        offset := f.offset + (readWriteAllVfile env path fuel k (fs.remaining fd)).2.length } := by
  induction fuel generalizing k fs f with
  | zero => omega
  | succ fuel ih =>
    rw [readWriteAllVfileShort, readWriteAllVfile]
    by_cases hread : env.sys (.readBlock k) = none
    · have hr : sysRead (.count (writeBlockSize - 1)) fs fd writeBlockSize =
          .ok ((fs.remaining fd).take writeBlockSize,
            fs.setOffset fd (f.offset + ((fs.remaining fd).take writeBlockSize).length)) := by
        rw [sysRead, hf]
        dsimp only
        rw [if_neg hacc]
        rfl
      obtain ⟨hsplit, hend⟩ := sysRead_ok (by decide) hr
      rw [if_pos hread, hr, if_neg (not_not.mpr hread)]
      dsimp only
      set fs1 := fs.setOffset fd (f.offset + ((fs.remaining fd).take writeBlockSize).length)
        with hfs1
      have hf1 : fs1.fds.lookup fd = some { f with
          offset := f.offset + ((fs.remaining fd).take writeBlockSize).length } := by
        rw [hfs1, LocalFs.setOffset, hf]
        exact AList.lookup_insert _
      by_cases hempty : fs.remaining fd = []
      · rw [if_pos (by rw [hempty, List.take_nil]), if_pos hempty]
        exact ⟨fs1, rfl, by rw [hf1, hempty, List.take_nil]⟩
      · have hne : (fs.remaining fd).take writeBlockSize ≠ [] := fun h => hempty (hend h)
        rw [if_neg hne, if_neg hempty]
        by_cases hsend : env.remote (.write path k) = .success
        · rw [if_neg (not_not.mpr hsend), if_neg (not_not.mpr hsend)]
          have hrest : fs1.remaining fd = (fs.remaining fd).drop writeBlockSize := by
            have htake := List.take_append_drop writeBlockSize (fs.remaining fd)
            exact (List.append_cancel_left (htake.trans hsplit)).symm
          have hpos := List.length_pos_iff.mpr hempty
          have hless : (fs1.remaining fd).length < fuel := by
            have hblock : 0 < writeBlockSize := by decide
            rw [hrest, List.length_drop]
            omega
          obtain ⟨fs', hrun, hat⟩ := ih (k + 1) hf1 hacc hless
          rw [hrest] at hrun hat
          rw [hrun]
          refine ⟨fs', rfl, ?_⟩
          rw [hat, List.length_append, Nat.add_assoc]
        · rw [if_pos hsend, if_pos hsend]
          exact ⟨fs1, rfl, hf1⟩
    · rw [if_neg hread, if_pos hread, sysRead, hf]
      dsimp only
      rw [if_neg hacc]
      exact ⟨fs, rfl, hf⟩

end Upload

/-- The transfer loops move exactly the data. -/
structure TransferExact (answers reads : Nat → IoAnswer) (sends : Nat → Status) (fd : Nat) :
    Prop where
  returns : ∀ k fs buf len, ∃ fuel, (writeAll answers fd fuel k fs buf len).isSome
  written : ∀ fuel k fs buf (len : Int) out, len ≤ buf.length →
    writeAll answers fd fuel k fs buf len = some out → WrittenAll answers fd fs buf len out
  download : ∀ fuel k fs chunks fs', (∀ chunk ∈ chunks, chunk.length < 2 ^ 32) →
    getBuffered answers fd fuel k fs chunks = some (true, fs') →
    fs' = fs.writeFd fd chunks.flatten
  truncated : ∀ fuel k fs chunks fs', (∀ chunk ∈ chunks, chunk.length < 2 ^ 32) →
    getBuffered answers fd fuel k fs chunks = some (true, fs') →
    ∀ f, fs.fds.lookup fd = some f → f.offset = 0 → (fs.inodes f.inode).data = [] →
      fs'.content fd = some chunks.flatten
  uploadReturns : ∀ k fs, ∃ fuel, (readWriteAllVfileShort reads sends fd fuel k fs).isSome
  upload : ∀ fuel k fs sent fs',
    readWriteAllVfileShort reads sends fd fuel k fs = some (0, sent, fs') → sent = fs.remaining fd

/-- The loops move exactly the data, in calls of any size. -/
theorem transfer_exact (answers reads : Nat → IoAnswer) (sends : Nat → Status) (fd : Nat)
    (hint : EndsInterrupts answers) : TransferExact answers reads sends fd where
  returns := writeAll_returns hint
  written fuel k fs buf len _ hbuf := writeAll_written fuel k fs buf len hbuf
  download _ _ _ _ _ hlen h := getBuffered_whole hlen h
  truncated _ _ _ _ _ hlen h _ hf h0 hempty := (getBuffered_truncated hf h0 hempty hlen h).1
  uploadReturns k fs :=
    ⟨(fs.remaining fd).length + 1, readWriteAllVfileShort_returns _ k (Nat.lt_succ_self _)⟩
  upload _ _ _ _ _ h := readWriteAllVfileShort_whole h

/-- Every second call interrupted, the others for one byte. -/
def slowAnswers (k : Nat) : IoAnswer := if k % 2 = 0 then .eintr else .count 0

theorem slowAnswers_ends : EndsInterrupts slowAnswers := by
  intro n
  refine ⟨2 * n + 1, by omega, ?_⟩
  have hodd : ¬(2 * n + 1) % 2 = 0 := by omega
  simp only [slowAnswers, if_neg hodd]
  decide

/-- Two chunks are written byte by byte, and what they left is sent in reads of ten bytes. -/
theorem transfer_exact_sample :
    (∃ fs', getBuffered slowAnswers 3 8 0 Sample.oneOpen [[1, 2], [3]] = some (true, fs') ∧
      fs'.content 3 = some [1, 2, 3]) ∧
    ∃ sent fs', readWriteAllVfileShort (fun _ => .count 9) (fun _ => .success) 3 8 0
        (Sample.oneOpen.writeInode 0 [1, 2, 3]) = some (0, sent, fs') ∧ sent = [1, 2, 3] := by
  have h := transfer_exact slowAnswers (fun _ => .count 9) (fun _ => .success) 3 slowAnswers_ends
  constructor
  · refine ⟨_, rfl, ?_⟩
    exact h.truncated 8 0 Sample.oneOpen [[1, 2], [3]] _ (by decide) rfl _ rfl rfl rfl
  · obtain ⟨sent, fs', hrun⟩ : ∃ sent fs', readWriteAllVfileShort (fun _ => .count 9)
        (fun _ => .success) 3 8 0 (Sample.oneOpen.writeInode 0 [1, 2, 3]) = some (0, sent, fs') :=
      ⟨_, _, rfl⟩
    exact ⟨sent, fs', hrun, h.upload _ _ _ _ _ hrun⟩

end DropletFs
