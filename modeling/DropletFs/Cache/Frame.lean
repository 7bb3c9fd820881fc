import DropletFs.Model.LocalFs

/-! What the cache operations leave alone: descriptors already open, and the files under
names other than the ones an operation is given. -/

namespace DropletFs

open CText

namespace LocalFs

/-- `fs` was reached from `base` by operations on `names` that closed no descriptor of
`base`. -/
structure Frame (names : List Path) (base fs : LocalFs) : Prop where
  fds : ∀ fd f, base.fds.lookup fd = some f → fs.fds.lookup fd = some f
  next : base.nextInode ≤ fs.nextInode
  files : ∀ n, n ∉ names → fs.files n = base.files n
  data : ∀ i, i < base.nextInode → (∀ n ∈ names, base.files n ≠ some i) →
    fs.inodes i = base.inodes i
  origin : ∀ n ∈ names, ∀ i, fs.files n = some i → i < base.nextInode →
    ∃ m ∈ names, base.files m = some i
  umask : fs.umask = base.umask

theorem Frame.refl (names : List Path) (fs : LocalFs) : Frame names fs fs :=
  ⟨fun _ _ h => h, le_rfl, fun _ _ => rfl, fun _ _ _ => rfl, fun n hn _ hi _ => ⟨n, hn, hi⟩, rfl⟩

/-- A descriptor that was not open in `base`. -/
def New (base : LocalFs) (fd : Nat) : Prop := base.fds.lookup fd = none

variable {names : List Path} {base fs : LocalFs}

theorem fresh_lookup (fs : LocalFs) : fs.fds.lookup fs.fresh = none := by
  rw [AList.lookup_eq_none]
  exact lowestFree_notMem fs.fds.keys

theorem Frame.fresh_new (h : Frame names base fs) : base.New fs.fresh := by
  cases hb : base.fds.lookup fs.fresh with
  | none => exact hb
  | some f =>
    have hf := h.fds _ _ hb
    rw [fresh_lookup] at hf
    cases hf

/-- An inode the frame protects is not one the names refer to later. -/
theorem Frame.unnamed (h : Frame names base fs) {i : Nat} (hi : i < base.nextInode)
    (hn : ∀ n ∈ names, base.files n ≠ some i) : ∀ n ∈ names, fs.files n ≠ some i := by
  intro n hm hf
  obtain ⟨m, hmm, hb⟩ := h.origin n hm i hf hi
  exact hn m hmm hb

theorem Frame.install (h : Frame names base fs) (inode : Nat) (acc : AccMode) :
    Frame names base (fs.install inode acc).2 := by
  refine ⟨?_, h.next, h.files, h.data, h.origin, h.umask⟩
  intro fd f hb
  have hf := h.fds fd f hb
  have hne : fd ≠ fs.fresh := by
    rintro rfl
    rw [fresh_lookup] at hf
    cases hf
  simpa [LocalFs.install, AList.lookup_insert_ne hne] using hf

theorem Frame.writeInode (h : Frame names base fs) {inode : Nat} (data : Bytes)
    (hi : base.nextInode ≤ inode ∨ ∃ n ∈ names, fs.files n = some inode) :
    Frame names base (fs.writeInode inode data) := by
  refine ⟨h.fds, h.next, h.files, ?_, h.origin, h.umask⟩
  intro i hlt hn
  have hne : i ≠ inode := by
    rintro rfl
    rcases hi with hi | ⟨n, hm, hf⟩
    · omega
    · exact h.unnamed hlt hn n hm hf
  simpa [LocalFs.writeInode, hne] using h.data i hlt hn

theorem Frame.chmod (h : Frame names base fs) {inode : Nat} (mode : Nat)
    (hi : base.nextInode ≤ inode ∨ ∃ n ∈ names, fs.files n = some inode) :
    Frame names base (fs.chmod inode mode) := by
  refine ⟨h.fds, h.next, h.files, ?_, h.origin, h.umask⟩
  intro i hlt hn
  have hne : i ≠ inode := by
    rintro rfl
    rcases hi with hi | ⟨n, hm, hf⟩
    · omega
    · exact h.unnamed hlt hn n hm hf
  simpa [LocalFs.chmod, hne] using h.data i hlt hn

/-- A name of the frame gets the next inode. -/
theorem Frame.make (h : Frame names base fs) {n : Path} (hn : n ∈ names) (inode : Inode) :
    Frame names base { fs with
      files := Function.update fs.files n (some fs.nextInode)
      inodes := Function.update fs.inodes fs.nextInode inode
      nextInode := fs.nextInode + 1 } := by
  have hnext := h.next
  refine ⟨h.fds, by dsimp only; omega, ?_, ?_, ?_, h.umask⟩
  · intro m hm
    have hne : m ≠ n := fun e => hm (e ▸ hn)
    simpa [hne] using h.files m hm
  · intro i hlt hun
    have hne : i ≠ fs.nextInode := by omega
    simpa [hne] using h.data i hlt hun
  · intro m hm i hi hlt
    by_cases he : m = n
    · subst he
      simp only [Function.update_self, Option.some.injEq] at hi
      omega
    · simp only [Function.update_of_ne he] at hi
      exact h.origin m hm i hi hlt

theorem Frame.overwrite (h : Frame names base fs) {name : Path} (hn : collapse name ∈ names)
    (data : Bytes) : Frame names base (fs.overwrite name data) := by
  unfold LocalFs.overwrite
  cases hf : fs.files (collapse name) with
  | some i => exact h.writeInode data (.inr ⟨_, hn, hf⟩)
  | none => exact h.make hn _

theorem Frame.unlink (h : Frame names base fs) {name : Path} (hn : collapse name ∈ names) :
    Frame names base (fs.unlink name) := by
  refine ⟨h.fds, h.next, ?_, h.data, ?_, h.umask⟩
  · intro m hm
    have hne : m ≠ collapse name := fun e => hm (e ▸ hn)
    simpa [LocalFs.unlink, hne] using h.files m hm
  · intro m hm i hi hlt
    by_cases he : m = collapse name
    · simp [LocalFs.unlink, he] at hi
    · simp only [LocalFs.unlink, Function.update_of_ne he] at hi
      exact h.origin m hm i hi hlt

theorem Frame.tryUnlink (h : Frame names base fs) (env : Env) (call : SysCall) {name : Path}
    (hn : collapse name ∈ names) : Frame names base (fs.tryUnlink env call name) := by
  unfold LocalFs.tryUnlink
  split_ifs with hc
  · exact h.unlink hn
  · exact h

theorem Frame.rename (h : Frame names base fs) {old new : Path} (ho : collapse old ∈ names)
    (hn : collapse new ∈ names) : Frame names base (fs.rename old new) := by
  unfold LocalFs.rename
  split_ifs with heq
  · exact h
  · refine ⟨h.fds, h.next, ?_, h.data, ?_, h.umask⟩
    · intro m hm
      have h1 : m ≠ collapse old := fun e => hm (e ▸ ho)
      have h2 : m ≠ collapse new := fun e => hm (e ▸ hn)
      simpa [h1, h2] using h.files m hm
    · intro m hm i hi hlt
      by_cases h1 : m = collapse old
      · simp [h1] at hi
      by_cases h2 : m = collapse new
      · subst h2
        simp only [Function.update_of_ne h1, Function.update_self] at hi
        exact h.origin _ ho i hi hlt
      · simp only [Function.update_of_ne h1, Function.update_of_ne h2] at hi
        exact h.origin m hm i hi hlt

theorem Frame.close (h : Frame names base fs) {fd : Nat} (hfd : base.New fd) :
    Frame names base (fs.close fd) := by
  refine ⟨?_, h.next, h.files, h.data, h.origin, h.umask⟩
  intro k f hb
  have hne : k ≠ fd := by
    rintro rfl
    rw [New, hb] at hfd
    cases hfd
  simpa [LocalFs.close, AList.lookup_erase_ne hne] using h.fds k f hb

theorem Frame.closeOpt (h : Frame names base fs) {fd : Option Nat}
    (hfd : ∀ k, fd = some k → base.New k) : Frame names base (fs.closeOpt fd) := by
  cases fd with
  | none => exact h
  | some k => exact h.close (hfd k rfl)

theorem Frame.fchmod (h : Frame names base fs) {fd : Nat} (mode : Nat)
    (hi : ∀ f, fs.fds.lookup fd = some f →
      base.nextInode ≤ f.inode ∨ ∃ n ∈ names, fs.files n = some f.inode) :
    Frame names base (fs.fchmod fd mode) := by
  unfold LocalFs.fchmod
  cases hf : fs.fds.lookup fd with
  | none => exact h
  | some f => exact h.chmod mode (hi f hf)

/-- `open` of a name of the frame; the descriptor is a new one, and what it is open on
is either fresh or under the name. -/
theorem Frame.openFile (h : Frame names base fs) {name : Path} (hn : collapse name ∈ names)
    {flags : OpenFlags} {mode fd : Nat} {fs' : LocalFs}
    (ho : fs.openFile name flags mode = some (fd, fs')) :
    Frame names base fs' ∧ base.New fd := by
  unfold LocalFs.openFile at ho
  cases hf : fs.files (collapse name) with
  | some i =>
    rw [hf] at ho
    by_cases ht : flags.trunc
    · have hw := h.writeInode [] (.inr ⟨_, hn, hf⟩)
      simp only [ht, if_true, Option.some.injEq] at ho
      have h1 := hw.install i flags.acc
      have h2 := hw.fresh_new
      simp only [LocalFs.install, Prod.mk.injEq] at ho h1
      obtain ⟨rfl, rfl⟩ := ho
      exact ⟨h1, h2⟩
    · simp only [ht, Option.some.injEq] at ho
      have h1 := h.install i flags.acc
      simp only [LocalFs.install, Prod.mk.injEq] at ho h1
      obtain ⟨rfl, rfl⟩ := ho
      exact ⟨h1, h.fresh_new⟩
  | none =>
    rw [hf] at ho
    by_cases hc : flags.creat
    · have hm := h.make hn ⟨[], fs.newMode mode, 0, 0⟩
      simp only [hc, if_true, Option.some.injEq] at ho
      have h1 := hm.install fs.nextInode flags.acc
      have h2 := hm.fresh_new
      simp only [LocalFs.install, Prod.mk.injEq] at ho h1
      obtain ⟨rfl, rfl⟩ := ho
      exact ⟨h1, h2⟩
    · simp [hc] at ho

@[simp] theorem tryUnlink_fds (env : Env) (call : SysCall) (fs : LocalFs) (name : Path) :
    (fs.tryUnlink env call name).fds = fs.fds := by
  unfold LocalFs.tryUnlink LocalFs.unlink
  split_ifs <;> rfl

@[simp] theorem tryUnlink_inodes (env : Env) (call : SysCall) (fs : LocalFs) (name : Path) :
    (fs.tryUnlink env call name).inodes = fs.inodes := by
  unfold LocalFs.tryUnlink LocalFs.unlink
  split_ifs <;> rfl

@[simp] theorem tryUnlink_inodeOf (env : Env) (call : SysCall) (fs : LocalFs) (name : Path)
    (fd : Nat) : (fs.tryUnlink env call name).inodeOf fd = fs.inodeOf fd := by
  rw [inodeOf, inodeOf, tryUnlink_fds]

@[simp] theorem tryUnlink_content (env : Env) (call : SysCall) (fs : LocalFs) (name : Path)
    (fd : Nat) : (fs.tryUnlink env call name).content fd = fs.content fd := by
  rw [content, content, tryUnlink_inodeOf, tryUnlink_inodes]

/-- A removal that fails leaves the file, one that goes through leaves no other name changed. -/
theorem tryUnlink_files (env : Env) (call : SysCall) (fs : LocalFs) (name n : Path) :
    (fs.tryUnlink env call name).files n =
      if env.sys call = none ∧ n = collapse name then none else fs.files n := by
  unfold LocalFs.tryUnlink LocalFs.unlink
  by_cases hc : env.sys call = none <;> by_cases hn : n = collapse name <;> simp [hc, hn]

/-- Where a descriptor has been moved to is lost once it is set back. -/
theorem advance_setOffset (fs : LocalFs) (fd n offset : Nat) :
    (fs.advance fd n).setOffset fd offset = fs.setOffset fd offset := by
  unfold LocalFs.advance LocalFs.setOffset
  cases hf : fs.fds.lookup fd with
  | none => simp [hf]
  | some f => simp [AList.insert_insert]

section WellFormed

variable (hw : fs.Wf)
include hw

theorem Wf.install {inode : Nat} (hi : inode < fs.nextInode) (acc : AccMode) :
    (fs.install inode acc).2.Wf := by
  refine ⟨hw.named, ?_, hw.inj⟩
  intro fd f hf
  by_cases he : fd = fs.fresh
  · subst he
    simp only [LocalFs.install, AList.lookup_insert, Option.some.injEq] at hf
    subst hf
    exact hi
  · simp only [LocalFs.install, AList.lookup_insert_ne he] at hf
    exact hw.opened fd f hf

theorem Wf.writeInode (inode : Nat) (data : Bytes) : (fs.writeInode inode data).Wf :=
  ⟨hw.named, hw.opened, hw.inj⟩

theorem Wf.make (n : Path) (inode : Inode) (hn : fs.files n = none) : Wf { fs with
    files := Function.update fs.files n (some fs.nextInode)
    inodes := Function.update fs.inodes fs.nextInode inode
    nextInode := fs.nextInode + 1 } := by
  refine ⟨?_, ?_, ?_⟩
  · intro m i hi
    by_cases he : m = n
    · subst he
      simp only [Function.update_self, Option.some.injEq] at hi
      dsimp only
      omega
    · simp only [Function.update_of_ne he] at hi
      exact Nat.lt_succ_of_lt (hw.named m i hi)
  · exact fun fd f hf => Nat.lt_succ_of_lt (hw.opened fd f hf)
  · intro m k i hm hk
    by_cases h1 : m = n <;> by_cases h2 : k = n
    · rw [h1, h2]
    · simp only [h1, Function.update_self, Option.some.injEq, Function.update_of_ne h2] at hm hk
      have := hw.named k i hk
      omega
    · simp only [h2, Function.update_self, Option.some.injEq, Function.update_of_ne h1] at hm hk
      have := hw.named m i hm
      omega
    · simp only [Function.update_of_ne h1, Function.update_of_ne h2] at hm hk
      exact hw.inj m k i hm hk

theorem Wf.overwrite (name : Path) (data : Bytes) : (fs.overwrite name data).Wf := by
  unfold LocalFs.overwrite
  cases hf : fs.files (collapse name) with
  | some i => exact hw.writeInode i data
  | none => exact hw.make _ _ hf

theorem Wf.unlink (name : Path) : (fs.unlink name).Wf := by
  have hsub : ∀ n i, (fs.unlink name).files n = some i → fs.files n = some i := by
    intro n i hi
    by_cases he : n = collapse name
    · simp [LocalFs.unlink, he] at hi
    · simpa [LocalFs.unlink, he] using hi
  exact ⟨fun n i hi => hw.named n i (hsub n i hi), hw.opened,
    fun n m i hn hm => hw.inj n m i (hsub n i hn) (hsub m i hm)⟩

theorem Wf.tryUnlink (env : Env) (call : SysCall) (name : Path) :
    (fs.tryUnlink env call name).Wf := by
  unfold LocalFs.tryUnlink
  split_ifs with hc
  · exact hw.unlink name
  · exact hw

theorem Wf.rename (old new : Path) : (fs.rename old new).Wf := by
  unfold LocalFs.rename
  split_ifs with heq
  · exact hw
  · -- a name of the result stands for one name of the old state
    have hsrc : ∀ n i, (Function.update (Function.update fs.files (collapse new)
        (fs.files (collapse old))) (collapse old) none) n = some i →
        n ≠ collapse old ∧ fs.files (if n = collapse new then collapse old else n) = some i := by
      intro n i hi
      have h1 : n ≠ collapse old := by
        rintro rfl
        simp at hi
      refine ⟨h1, ?_⟩
      rw [Function.update_of_ne h1] at hi
      by_cases h2 : n = collapse new
      · simpa [h2] using hi
      · simpa [h2] using hi
    refine ⟨fun n i hi => hw.named _ i (hsrc n i hi).2, hw.opened, ?_⟩
    intro n m i hn hm
    obtain ⟨hn1, hn2⟩ := hsrc n i hn
    obtain ⟨hm1, hm2⟩ := hsrc m i hm
    have he := hw.inj _ _ i hn2 hm2
    split_ifs at he with h1 h2 h2
    · rw [h1, h2]
    · exact absurd he.symm hm1
    · exact absurd he hn1
    · exact he

theorem Wf.close (fd : Nat) : (fs.close fd).Wf := by
  refine ⟨hw.named, ?_, hw.inj⟩
  intro k f hk
  by_cases he : k = fd
  · subst he
    simp [LocalFs.close, AList.lookup_erase] at hk
  · exact hw.opened k f (by simpa [LocalFs.close, AList.lookup_erase_ne he] using hk)

theorem Wf.closeOpt (fd : Option Nat) : (fs.closeOpt fd).Wf := by
  cases fd with
  | none => exact hw
  | some k => exact hw.close k

theorem Wf.fchmod (fd mode : Nat) : (fs.fchmod fd mode).Wf := by
  unfold LocalFs.fchmod
  cases fs.fds.lookup fd with
  | none => exact hw
  | some f => exact ⟨hw.named, hw.opened, hw.inj⟩

/-- Only the offset of an open descriptor changes. -/
theorem Wf.reseek {fd : Nat} {f : OpenFile} (hf : fs.fds.lookup fd = some f) (offset : Nat) :
    Wf { fs with fds := fs.fds.insert fd { f with offset := offset } } := by
  refine ⟨hw.named, ?_, hw.inj⟩
  intro k g hg
  by_cases he : k = fd
  · subst he
    simp only [AList.lookup_insert, Option.some.injEq] at hg
    subst hg
    exact hw.opened k f hf
  · simp only [AList.lookup_insert_ne he] at hg
    exact hw.opened k g hg

theorem Wf.setOffset (fd offset : Nat) : (fs.setOffset fd offset).Wf := by
  unfold LocalFs.setOffset
  cases hf : fs.fds.lookup fd with
  | none => exact hw
  | some f => exact hw.reseek hf offset

end WellFormed

/-- What a successful `open` returns. -/
structure Opened (fs : LocalFs) (name : Path) (flags : OpenFlags) (fd inode : Nat)
    (fs' : LocalFs) : Prop where
  fd_eq : fd = fs.fresh
  lookup : fs'.fds.lookup fd = some ⟨inode, flags.acc, 0⟩
  named : fs'.files (collapse name) = some inode
  others : ∀ n, n ≠ collapse name → fs'.files n = fs.files n
  empty : flags.trunc = true ∨ fs.files (collapse name) = none → (fs'.inodes inode).data = []
  kept : flags.trunc = false → fs.files (collapse name) = some inode ∧ fs'.inodes = fs.inodes ∨
    fs.files (collapse name) = none ∧ inode = fs.nextInode

theorem openFile_ok {name : Path} {flags : OpenFlags} {mode fd : Nat} {fs' : LocalFs}
    (ho : fs.openFile name flags mode = some (fd, fs')) :
    ∃ i, Opened fs name flags fd i fs' := by
  unfold LocalFs.openFile at ho
  cases hf : fs.files (collapse name) with
  | some i =>
    rw [hf] at ho
    refine ⟨i, ?_⟩
    by_cases ht : flags.trunc <;>
    · simp only [ht, if_true, Bool.false_eq_true, if_false, Option.some.injEq, LocalFs.install,
        Prod.mk.injEq] at ho
      obtain ⟨rfl, rfl⟩ := ho
      refine ⟨rfl, by simp [LocalFs.writeInode, LocalFs.fresh], by simpa [LocalFs.writeInode],
        fun _ _ => rfl, ?_, ?_⟩ <;> simp [ht, hf, LocalFs.writeInode]
  | none =>
    rw [hf] at ho
    by_cases hc : flags.creat
    · simp only [hc, if_true, Option.some.injEq, LocalFs.install, Prod.mk.injEq] at ho
      obtain ⟨rfl, rfl⟩ := ho
      refine ⟨fs.nextInode, rfl, by simp [LocalFs.fresh], by simp, ?_, by simp, by simp [hf]⟩
      intro n hn
      simp [hn]
    · simp [hc] at ho

/-- `open` fails only for a missing name it is not to create. -/
theorem openFile_isSome (fs : LocalFs) (name : Path) (flags : OpenFlags) (mode : Nat)
    (h : flags.creat = true ∨ (fs.files (collapse name)).isSome) :
    (fs.openFile name flags mode).isSome := by
  unfold LocalFs.openFile
  cases hf : fs.files (collapse name) with
  | some i => simp
  | none =>
    rw [hf] at h
    simp only [Option.isSome_none, Bool.false_eq_true, or_false] at h
    simp [h]

theorem Wf.openFile (hw : fs.Wf) {name : Path} {flags : OpenFlags} {mode fd : Nat}
    {fs' : LocalFs} (ho : fs.openFile name flags mode = some (fd, fs')) : fs'.Wf := by
  unfold LocalFs.openFile at ho
  cases hf : fs.files (collapse name) with
  | some i =>
    rw [hf] at ho
    have hi := hw.named _ i hf
    by_cases ht : flags.trunc
    · simp only [ht, if_true, Option.some.injEq] at ho
      have h1 := (hw.writeInode i []).install hi flags.acc
      rwa [ho] at h1
    · simp only [ht, Bool.false_eq_true, if_false, Option.some.injEq] at ho
      have h1 := hw.install hi flags.acc
      rwa [ho] at h1
  | none =>
    rw [hf] at ho
    by_cases hc : flags.creat
    · simp only [hc, if_true, Option.some.injEq] at ho
      have h1 := (hw.make _ ⟨[], fs.newMode mode, 0, 0⟩ hf).install
        (Nat.lt_succ_self _) flags.acc
      rwa [ho] at h1
    · simp [hc] at ho

section Names

theorem readName_of_files {name : Path} {i : Nat} (h : fs.files (collapse name) = some i) :
    fs.readName name = some (fs.inodes i).data := by
  simp [readName, h]

theorem readName_overwrite (fs : LocalFs) (name : Path) (data : Bytes) :
    (fs.overwrite name data).readName name = some data := by
  unfold LocalFs.overwrite
  cases hf : fs.files (collapse name) with
  | some i => simp [readName, LocalFs.writeInode, hf]
  | none => simp [readName]

/-- Writing a file leaves the others alone. -/
theorem overwrite_of_ne (hw : fs.Wf) {name other : Path}
    (hne : collapse other ≠ collapse name) (data : Bytes) {i : Nat}
    (ho : fs.files (collapse other) = some i) :
    (fs.overwrite name data).files (collapse other) = some i ∧
    (fs.overwrite name data).inodes i = fs.inodes i := by
  unfold LocalFs.overwrite
  cases hf : fs.files (collapse name) with
  | some j =>
    have hij : i ≠ j := by
      rintro rfl
      exact hne (hw.inj _ _ _ ho hf)
    exact ⟨ho, by simp [LocalFs.writeInode, hij]⟩
  | none =>
    have hi : i ≠ fs.nextInode := by
      have := hw.named _ _ ho
      omega
    exact ⟨by simpa [hne] using ho, by simp [hi]⟩

theorem readName_rename {old new : Path} (hne : collapse old ≠ collapse new) :
    (fs.rename old new).readName new = fs.readName old := by
  simp [LocalFs.rename, readName, hne, Ne.symm hne]

theorem closeOpt_files (fs : LocalFs) (fd : Option Nat) : (fs.closeOpt fd).files = fs.files := by
  cases fd <;> rfl

@[simp] theorem readName_closeOpt (fs : LocalFs) (fd : Option Nat) (name : Path) :
    (fs.closeOpt fd).readName name = fs.readName name := by
  cases fd <;> rfl

/-- The file under a name. -/
def fileOf (fs : LocalFs) (name : Path) : Option Inode :=
  (fs.files (collapse name)).map fs.inodes

/-- The mode of a file once it has been opened or made. -/
theorem openFile_mode {fs fs' : LocalFs} {name : Path} {flags : OpenFlags} {mode fd i : Nat}
    (ho : fs.openFile name flags mode = some (fd, fs'))
    (hi : fs'.files (collapse name) = some i) :
    (fs'.inodes i).mode = ((fs.fileOf name).map (·.mode)).getD (fs.newMode mode) := by
  unfold LocalFs.openFile at ho
  unfold fileOf
  cases hf : fs.files (collapse name) with
  | some j =>
    rw [hf] at ho
    obtain ⟨-, rfl⟩ := Prod.mk.inj (Option.some.inj ho)
    by_cases ht : flags.trunc = true
    · obtain rfl : j = i := by simpa [ht, LocalFs.install, LocalFs.writeInode, hf] using hi
      simp [ht, LocalFs.writeInode]
    · obtain rfl : j = i := by simpa [ht, LocalFs.install, hf] using hi
      simp [ht]
  | none =>
    rw [hf] at ho
    by_cases hc : flags.creat = true
    · simp only [hc, if_true] at ho
      obtain ⟨-, rfl⟩ := Prod.mk.inj (Option.some.inj ho)
      obtain rfl : fs.nextInode = i := by simpa [LocalFs.install] using hi
      simp
    · simp [hc] at ho

theorem readName_eq (fs : LocalFs) (name : Path) :
    fs.readName name = (fs.fileOf name).map (·.data) := by
  simp [LocalFs.readName, fileOf, Function.comp_def]

/-- A file the frame does not name is untouched. -/
theorem Frame.fileOf (hw : base.Wf) (h : Frame names base fs) {name : Path}
    (hn : collapse name ∉ names) : fs.fileOf name = base.fileOf name := by
  unfold LocalFs.fileOf
  rw [h.files _ hn]
  cases hb : base.files (collapse name) with
  | none => rfl
  | some i =>
    have hfree : ∀ m ∈ names, base.files m ≠ some i := by
      rintro m hm he
      exact hn (hw.inj _ _ _ hb he ▸ hm)
    rw [Option.map_some, Option.map_some, h.data i (hw.named _ _ hb) hfree]

/-- A file `fopen` makes. -/
def newFile (fs : LocalFs) : Inode := ⟨[], fs.newMode 0o666, 0, 0⟩

theorem Frame.newMode (h : Frame names base fs) : fs.newMode = base.newMode := by
  funext mode
  rw [LocalFs.newMode, LocalFs.newMode, h.umask]

theorem Frame.newFile (h : Frame names base fs) : fs.newFile = base.newFile := by
  rw [LocalFs.newFile, LocalFs.newFile, h.newMode]

theorem fileOf_overwrite (fs : LocalFs) (name : Path) (data : Bytes) :
    (fs.overwrite name data).fileOf name =
      some { (fs.fileOf name).getD fs.newFile with data := data } := by
  unfold LocalFs.overwrite fileOf
  cases hf : fs.files (collapse name) with
  | some i => simp [LocalFs.writeInode, hf]
  | none => simp [newFile]

theorem fileOf_overwrite_of_ne (hw : fs.Wf) {name other : Path}
    (hne : collapse other ≠ collapse name) (data : Bytes) {ino : Inode}
    (ho : fs.fileOf other = some ino) : (fs.overwrite name data).fileOf other = some ino := by
  obtain ⟨i, hi, rfl⟩ := Option.map_eq_some_iff.mp ho
  obtain ⟨h1, h2⟩ := overwrite_of_ne hw hne data hi
  simp [fileOf, h1, h2]

theorem fileOf_rename {old new : Path} (hne : collapse old ≠ collapse new) :
    (fs.rename old new).fileOf new = fs.fileOf old := by
  simp [LocalFs.rename, fileOf, hne, Ne.symm hne]

@[simp] theorem fileOf_closeOpt (fs : LocalFs) (fd : Option Nat) (name : Path) :
    (fs.closeOpt fd).fileOf name = fs.fileOf name := by
  cases fd <;> rfl

/-- Opening without `O_TRUNC` a file that is there leaves it as it is. -/
theorem Opened.file {name : Path} {flags : OpenFlags} {fd i : Nat} {fs' : LocalFs}
    (h : Opened fs name flags fd i fs') (ht : flags.trunc = false) {ino : Inode}
    (hd : fs.fileOf name = some ino) : fs'.inodes i = ino := by
  rcases h.kept ht with ⟨hf, hin⟩ | ⟨hf, _⟩
  · rw [hin]
    simpa [fileOf, hf] using hd
  · simp [fileOf, hf] at hd

end Names

end LocalFs

end DropletFs
