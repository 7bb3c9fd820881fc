import Mathlib.Data.Set.Insert
import DropletFs.Cache.Download

/-! The set of open descriptors: what a download adds to it, and when it forgets one. -/

namespace DropletFs

open CText

namespace LocalFs

/-- The descriptors in use. -/
def openFds (fs : LocalFs) : Set Nat := {fd | fd ∈ fs.fds}

theorem mem_openFds {fs : LocalFs} {fd : Nat} : fd ∈ fs.openFds ↔ fd ∈ fs.fds := Iff.rfl

theorem openFds_of_fds {fs fs' : LocalFs} (h : fs'.fds = fs.fds) : fs'.openFds = fs.openFds := by
  unfold openFds
  rw [h]

theorem openFds_install (fs : LocalFs) (inode : Nat) (acc : AccMode) :
    (fs.install inode acc).2.openFds = insert fs.fresh fs.openFds := by
  ext fd
  simp [openFds, LocalFs.install]

theorem openFds_close (fs : LocalFs) (fd : Nat) : (fs.close fd).openFds = fs.openFds \ {fd} := by
  ext k
  simp [openFds, LocalFs.close, and_comm]

theorem openFds_setOffset (fs : LocalFs) (fd offset : Nat) :
    (fs.setOffset fd offset).openFds = fs.openFds := by
  unfold LocalFs.setOffset
  cases hf : fs.fds.lookup fd with
  | none => rfl
  | some f =>
    have hmem : fd ∈ fs.fds := AList.lookup_isSome.mp (by rw [hf]; rfl)
    ext k
    simp only [openFds, Set.mem_ofPred_eq, AList.mem_insert, or_iff_right_iff_imp]
    rintro rfl
    exact hmem

theorem openFds_fchmod (fs : LocalFs) (fd mode : Nat) :
    (fs.fchmod fd mode).openFds = fs.openFds := by
  unfold LocalFs.fchmod
  cases fs.fds.lookup fd <;> rfl

theorem openFds_overwrite (fs : LocalFs) (name : Path) (data : Bytes) :
    (fs.overwrite name data).openFds = fs.openFds := by
  unfold LocalFs.overwrite
  cases fs.files (collapse name) <;> rfl

theorem openFds_rename (fs : LocalFs) (old new : Path) :
    (fs.rename old new).openFds = fs.openFds := by
  unfold LocalFs.rename
  split_ifs <;> rfl

theorem fresh_notMem (fs : LocalFs) : fs.fresh ∉ fs.openFds := by
  rw [mem_openFds, ← AList.lookup_eq_none]
  exact fs.fresh_lookup

/-- `open` adds the descriptor it returns. -/
theorem openFds_openFile {fs fs' : LocalFs} {name : Path} {flags : OpenFlags} {mode fd : Nat}
    (ho : fs.openFile name flags mode = some (fd, fs')) :
    fd ∉ fs.openFds ∧ fs'.openFds = insert fd fs.openFds := by
  obtain ⟨i, hop⟩ := openFile_ok ho
  have hfd := hop.fd_eq
  subst hfd
  refine ⟨fs.fresh_notMem, ?_⟩
  unfold LocalFs.openFile at ho
  split at ho
  · have hfs := congrArg Prod.snd (Option.some.inj ho)
    dsimp only at hfs
    rw [← hfs, openFds_install]
    split_ifs <;> rfl
  · split_ifs at ho
    have hfs := congrArg Prod.snd (Option.some.inj ho)
    dsimp only at hfs
    rw [← hfs, openFds_install]
    rfl

/-- Beyond `base`, the descriptor is the one that is open. -/
def Holds (base : Set Nat) (fd : Option Nat) (fs : LocalFs) : Prop :=
  match fd with
  | some k => k ∉ base ∧ fs.openFds = insert k base
  | none => fs.openFds = base

theorem Holds.of_openFds {base : Set Nat} {fd : Option Nat} {fs fs' : LocalFs}
    (h : Holds base fd fs) (he : fs'.openFds = fs.openFds) : Holds base fd fs' := by
  cases fd with
  | none => exact he.trans h
  | some k => exact ⟨h.1, he.trans h.2⟩

theorem Holds.closeOpt {base : Set Nat} {fd : Option Nat} {fs : LocalFs} (h : Holds base fd fs) :
    (fs.closeOpt fd).openFds = base := by
  cases fd with
  | none => exact h
  | some k =>
    change (fs.close k).openFds = base
    rw [openFds_close, h.2, Set.insert_sdiff_self_of_notMem h.1]

theorem Holds.opened {fs fs' : LocalFs} {name : Path} {flags : OpenFlags} {mode fd : Nat}
    (ho : fs.openFile name flags mode = some (fd, fs')) : Holds fs.openFds (some fd) fs' :=
  openFds_openFile ho

end LocalFs

open LocalFs

section Download

variable {cx : Ctx} {env : Env} {st : Store} {fs : LocalFs} {remote locname : Path}
  {fd : Option Nat} {base : Set Nat}

theorem adoptScratch_holds (h : Holds base fd fs) (uzlocal : Path) :
    Holds base (adoptScratch env fs uzlocal locname fd).2.1
      (adoptScratch env fs uzlocal locname fd).2.2 := by
  have hc : ((fs.rename uzlocal locname).closeOpt fd).openFds = base :=
    (h.of_openFds (openFds_rename fs uzlocal locname)).closeOpt
  unfold adoptScratch
  split_ifs
  · exact h
  · exact h
  · dsimp only
    split
    · rename_i k fs' _ ho
      exact hc ▸ Holds.opened ho
    · exact hc

theorem unzipScratch_holds (h : Holds base fd fs) (src : Nat) (uzlocal : Path) :
    Holds base (unzipScratch cx env fs src uzlocal locname fd).2.1
      (unzipScratch cx env fs src uzlocal locname fd).2.2 := by
  unfold unzipScratch
  by_cases h1 : env.sys .unzip = none
  · rw [if_neg (by simp [h1])]
    cases cx.codec.unzip (fs.inodes src).data with
    | none => exact h
    | some plain => exact adoptScratch_holds (h.of_openFds (openFds_overwrite fs uzlocal _)) uzlocal
  · rw [if_pos h1]
    exact h

variable (cx env locname) in
/-- The compression step holds on to its descriptor or has closed it, also when it fails. -/
theorem handleCompression_holds (h : Holds base fd fs) (metadata : Dict) :
    Holds base (handleCompression cx env fs locname fd metadata).2.1
      (handleCompression cx env fs locname fd metadata).2.2 := by
  unfold handleCompression
  cases metadata .compression with
  | none => exact h
  | some compressed =>
    dsimp only
    by_cases h1 : startsWith compressed textNone = true
    · rw [if_pos h1]
      exact h
    rw [if_neg h1]
    by_cases h2 : startsWith compressed textZlib = false
    · rw [if_pos h2]
      exact h
    rw [if_neg h2]
    split
    · by_cases h3 : env.sys .fopenScratch = none
      · rw [if_neg (by simp [h3])]
        exact unzipScratch_holds (h.of_openFds (openFds_overwrite fs _ _)) _ _
      · rw [if_pos h3]
        exact h
    · exact h

theorem reopenLocal_holds (h : Holds base fd fs) (flags : OpenFlags) :
    Holds base (reopenLocal env fs locname fd flags).1 (reopenLocal env fs locname fd flags).2 := by
  have hc := h.closeOpt
  unfold reopenLocal
  by_cases h1 : env.sys .closeDownload = none
  · rw [if_neg (by simp [h1])]
    split
    · rename_i k fs' _ ho
      exact hc ▸ Holds.opened ho
    · exact hc
  · rw [if_pos h1]
    exact hc

/-- The decompression has what it needs, up to where the descriptor is closed. -/
structure Env.Unzips (env : Env) (cx : Ctx) (locname : Path) (metadata : Dict) (data : Bytes) :
    Prop where
  unpacked : (unpack cx locname metadata data).isSome
  calls : Zipped metadata → env.sys .fopenCompressed = none ∧ env.sys .fopenScratch = none ∧
    env.sys .unzip = none ∧ env.lib .markUncompressed = true

theorem adoptScratch_closes (hm : env.lib .markUncompressed = true) (uzlocal : Path) :
    (adoptScratch env fs uzlocal locname fd).1 = -1 →
      (adoptScratch env fs uzlocal locname fd).2.1 = none := by
  unfold adoptScratch
  by_cases hr : env.sys .renameScratch = none
  · simp only [hm, hr, Bool.true_eq_false, ne_eq, not_true_eq_false, if_false]
    split
    · intro h
      cases h
    · intro _
      rfl
  · simp [hm, hr]

/-- The decompression itself, with source and scratch file open. -/
theorem unzipScratch_closes (hw : fs.Wf) {metadata : Dict} {data : Bytes} {src : Nat}
    (hsrc : fs.files (collapse locname) = some src) (hdata : (fs.inodes src).data = data)
    {compressed : CStr} (hc : metadata .compression = some compressed)
    (h1 : ¬startsWith compressed textNone = true) (h2 : ¬startsWith compressed textZlib = false)
    (h34 : env.sys .fopenCompressed = none ∧ env.sys .fopenScratch = none) (k : Nat) :
    (unzipScratch cx env (fs.overwrite (scratchName locname) []) src (scratchName locname) locname
        (some k)).1 = -1 ∧
      (unzipScratch cx env (fs.overwrite (scratchName locname) []) src (scratchName locname) locname
        (some k)).2.1 ≠ none ↔ ¬env.Unzips cx locname metadata data := by
  have hz : Zipped metadata := ⟨compressed, hc, by simpa using h2⟩
  unfold unzipScratch
  by_cases h5 : env.sys .unzip = none
  swap
  · rw [if_pos h5]
    exact iff_of_true (by simp) fun h => h5 (h.calls hz).2.2.1
  rw [if_neg (by simp [h5])]
  by_cases hname : collapse (scratchName locname) = collapse locname
  · -- the source is the scratch file itself and has just been emptied
    have hempty : ((fs.overwrite (scratchName locname) []).inodes src).data = [] := by
      simp [LocalFs.overwrite, hname, hsrc, LocalFs.writeInode]
    rw [hempty, cx.codec.unzip_nil]
    refine iff_of_true (by simp) fun h => ?_
    have := h.unpacked
    simp [unpack, hc, h1, h2, hname] at this
  · rw [(overwrite_of_ne hw (Ne.symm hname) [] hsrc).2, hdata]
    have hunpack : unpack cx locname metadata data = cx.codec.unzip data := by
      simp [unpack, hc, h1, h2, hname]
    cases hp : cx.codec.unzip data with
    | none =>
      refine iff_of_true (by simp) fun h => ?_
      have := h.unpacked
      simp [hunpack, hp] at this
    | some plain =>
      dsimp only
      cases hm : env.lib .markUncompressed with
      | false =>
        refine iff_of_true (by simp [adoptScratch, hm]) fun h => ?_
        rw [(h.calls hz).2.2.2] at hm
        cases hm
      | true =>
        refine iff_of_false (fun h => h.2 (adoptScratch_closes hm _ h.1)) (not_not.mpr ⟨?_, ?_⟩)
        · rw [hunpack, hp]
          rfl
        · exact fun _ => ⟨h34.1, h34.2, h5, hm⟩

variable (cx env) in
/-- A compression step that fails with the descriptor open is one of those that `Unzips` leaves
out. -/
theorem handleCompression_closes (hw : fs.Wf) (metadata : Dict) {data : Bytes}
    (hd : fs.readName locname = some data) (k : Nat) :
    (handleCompression cx env fs locname (some k) metadata).1 = -1 ∧
        (handleCompression cx env fs locname (some k) metadata).2.1 ≠ none ↔
      ¬env.Unzips cx locname metadata data := by
  obtain ⟨src, hsrc⟩ := Option.isSome_iff_exists.mp (files_of_readName hd)
  have hdata : (fs.inodes src).data = data := by simpa [readName, hsrc] using hd
  unfold handleCompression
  cases hc : metadata .compression with
  | none =>
    have hz : ¬Zipped metadata := by simp [Zipped, hc]
    refine iff_of_false (by simp) (not_not.mpr ⟨?_, fun h => (hz h).elim⟩)
    simp [unpack, hc]
  | some compressed =>
    dsimp only
    by_cases h1 : startsWith compressed textNone = true
    · have hz : ¬Zipped metadata := fun hz => by simp [(hz.not_none hc).1] at h1
      rw [if_pos h1]
      refine iff_of_false (by simp) (not_not.mpr ⟨?_, fun h => (hz h).elim⟩)
      simp [unpack, hc, h1]
    rw [if_neg h1]
    by_cases h2 : startsWith compressed textZlib = false
    · rw [if_pos h2]
      refine iff_of_true (by simp) fun h => ?_
      have := h.unpacked
      simp [unpack, hc, h1, h2] at this
    rw [if_neg h2]
    have hz : Zipped metadata := ⟨compressed, hc, by simpa using h2⟩
    cases h3 : env.sys .fopenCompressed with
    | some e =>
      refine iff_of_true (by simp) fun h => ?_
      rw [(h.calls hz).1] at h3
      cases h3
    | none =>
      simp only [hsrc]
      by_cases h4 : env.sys .fopenScratch = none
      swap
      · rw [if_pos h4]
        exact iff_of_true (by simp) fun h => h4 (h.calls hz).2.1
      rw [if_neg (by simp [h4])]
      exact unzipScratch_closes hw hsrc hdata hc h1 h2 ⟨h3, h4⟩ k

/-- No descriptor is returned, and one is left open. -/
def Leaks (base : Set Nat) (r : Option Nat × LocalFs) : Prop :=
  r.1 = none ∧ ∃ k, k ∉ base ∧ r.2.openFds = insert k base

/-- The data of the object reach the cache file. -/
structure Env.Receives (env : Env) (remote : Path) (o : Obj) : Prop where
  openDownload : env.sys .openDownload = none
  fchmodDownload : (o.userMeta .mode).isSome → env.sys .fchmodDownload = none
  openread : env.remote (.openread remote) = .success
  regular : o.ftype ≠ .dir
  writeDownload : env.sys .writeDownload = none

/-- A descriptor is lost exactly when the data came and cannot be unpacked. -/
theorem receiveObject_holds (hw : fs.Wf) {k i : Nat} (h : Holds base (some k) fs)
    (hin : fs.inodeOf k = some i) (hfile : fs.files (collapse locname) = some i) {o : Obj}
    (ho : st.lookup remote = some o) (flags : OpenFlags) :
    (env.remote (.openread remote) = .success ∧ o.ftype ≠ .dir ∧ env.sys .writeDownload = none) ∧
        ¬env.Unzips cx locname o.userMeta o.data ∧
        Leaks base (receiveObject cx env st fs remote locname false k flags) ∨
      ¬((env.remote (.openread remote) = .success ∧ o.ftype ≠ .dir ∧
          env.sys .writeDownload = none) ∧ ¬env.Unzips cx locname o.userMeta o.data) ∧
        Holds base (receiveObject cx env st fs remote locname false k flags).1
          (receiveObject cx env st fs remote locname false k flags).2 := by
  have hclosed : Holds base none (fs.close k) := h.closeOpt
  unfold receiveObject
  by_cases hread : env.remote (.openread remote) = .success ∧ o.ftype ≠ .dir
  swap
  · refine .inr ⟨fun hc => hread ⟨hc.1.1, hc.1.2.1⟩, ?_⟩
    split
    · rename_i data metadata hopen
      refine (hread ?_).elim
      obtain ⟨o', ho', hdir, -⟩ := dplOpenread_ok hopen
      obtain rfl : o = o' := Option.some.inj (ho.symm.trans ho')
      refine ⟨?_, hdir⟩
      unfold dplOpenread at hopen
      split at hopen
      · assumption
      · rename_i hne
        exact (hne (congrArg Prod.fst hopen)).elim
    · exact hclosed
  have hopen : dplOpenread cx env st remote false = (.success, o.data, o.userMeta) := by
    simp [dplOpenread, hread.1, ho, hread.2]
  rw [hopen]
  dsimp only
  cases hwrite : env.sys .writeDownload with
  | some e =>
    refine .inr ⟨fun hc => by simp at hc, ?_⟩
    exact hclosed
  | none =>
    simp only [hin]
    have hdata : (fs.writeInode i o.data).readName locname = some o.data := by
      simp [readName, LocalFs.writeInode, hfile]
    have hwritten : Holds base (some k) (fs.writeInode i o.data) :=
      h.of_openFds (openFds_of_fds rfl)
    have hh := handleCompression_holds cx env locname hwritten o.userMeta
    have hc := handleCompression_closes cx env (hw.writeInode i o.data) o.userMeta hdata k
    by_cases hret : (handleCompression cx env (fs.writeInode i o.data) locname (some k)
        o.userMeta).1 = -1
    · rw [if_pos hret]
      cases hfd : (handleCompression cx env (fs.writeInode i o.data) locname (some k)
          o.userMeta).2.1 with
      | none =>
        rw [hfd] at hh
        refine .inr ⟨fun hn => ?_, hh⟩
        exact (hc.mpr hn.2).2 hfd
      | some j =>
        rw [hfd] at hh
        refine .inl ⟨⟨hread.1, hread.2, trivial⟩, hc.mp ⟨hret, by simp [hfd]⟩, rfl, j, hh⟩
    · rw [if_neg hret]
      exact .inr ⟨fun hn => hret (hc.mpr hn.2).1, reopenLocal_holds hh flags⟩

theorem openFds_removeOld (env : Env) (fs : LocalFs) (locname : Path) :
    (removeOld env fs locname).openFds = fs.openFds := by
  unfold removeOld
  split_ifs <;> rfl

variable (cx env locname) in
/-- What a download does to the set of open descriptors. -/
theorem fetchObject_holds (hw : fs.Wf) {o : Obj} (ho : st.lookup remote = some o)
    (flags : OpenFlags) :
    env.Receives remote o ∧ ¬env.Unzips cx locname o.userMeta o.data ∧
        Leaks fs.openFds (fetchObject cx env st fs remote locname o.userMeta flags) ∨
      ¬(env.Receives remote o ∧ ¬env.Unzips cx locname o.userMeta o.data) ∧
        Holds fs.openFds (fetchObject cx env st fs remote locname o.userMeta flags).1
          (fetchObject cx env st fs remote locname o.userMeta flags).2 := by
  have hold := openFds_removeOld env fs locname
  have hwold := removeOld_wf env locname hw
  unfold fetchObject
  dsimp only
  cases hsys : env.sys .openDownload with
  | some e =>
    refine .inr ⟨fun hc => ?_, ?_⟩
    · have := hc.1.openDownload
      rw [hsys] at this
      cases this
    · exact hold
  | none =>
    obtain ⟨⟨k, gs⟩, hopen⟩ := Option.isSome_iff_exists.mp
      (openFile_isSome (removeOld env fs locname) locname rdwrCreatTrunc 0o644 (.inl rfl))
    obtain ⟨i, hop⟩ := openFile_ok hopen
    have hh : Holds fs.openFds (some k) gs := hold ▸ Holds.opened hopen
    have hwg := hwold.openFile hopen
    have hin : gs.inodeOf k = some i := by simp [inodeOf, hop.lookup]
    simp only [hopen, checkEncryptionFlag_eq_false]
    have hreceives : ((o.userMeta .mode).isSome → env.sys .fchmodDownload = none) →
        (env.Receives remote o ↔ env.remote (.openread remote) = .success ∧ o.ftype ≠ .dir ∧
          env.sys .writeDownload = none) := fun hch =>
      ⟨fun hr => ⟨hr.openread, hr.regular, hr.writeDownload⟩,
        fun hr => ⟨hsys, hch, hr.1, hr.2.1, hr.2.2⟩⟩
    cases hm : o.userMeta .mode with
    | none =>
      rw [hreceives fun hs => by simp [hm] at hs]
      exact receiveObject_holds hwg hh hin hop.named ho flags
    | some text =>
      cases hch : env.sys .fchmodDownload with
      | some e =>
        refine .inr ⟨fun hc => ?_, hh.closeOpt⟩
        have := hc.1.fchmodDownload (by simp [hm])
        rw [hch] at this
        cases this
      | none =>
        simp only [ne_eq, not_true_eq_false, if_false]
        rw [hreceives fun _ => hch]
        have hmode : (gs.fchmod k (toU32 (strtoull text))) =
            gs.chmod i (toU32 (strtoull text)) := by
          simp [LocalFs.fchmod, hop.lookup]
        refine receiveObject_holds (i := i) (hwg.fchmod k _)
          (hh.of_openFds (openFds_fchmod gs k _)) ?_ ?_ ho flags
        · rw [hmode]
          exact hin
        · rw [hmode]
          exact hop.named

end Download

end DropletFs
