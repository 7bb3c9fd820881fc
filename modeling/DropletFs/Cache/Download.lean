import DropletFs.Model.File
import DropletFs.Cache.Frame

/-! The download of an object into the cache: which files it touches, and what the
descriptor it returns reads as. -/

namespace DropletFs

open CText LocalFs

/-- The names a download works on. -/
def downloadNames (locname : Path) : List Path :=
  [collapse locname, collapse (scratchName locname)]

theorem locname_mem (locname : Path) : collapse locname ∈ downloadNames locname := by
  simp [downloadNames]

theorem scratch_mem (locname : Path) :
    collapse (scratchName locname) ∈ downloadNames locname := by
  simp [downloadNames]

section Frames

variable {cx : Ctx} {env : Env} {st : Store} {base fs : LocalFs} {locname : Path}
  {fd : Option Nat} (h : Frame (downloadNames locname) base fs)
  (hfd : ∀ k, fd = some k → base.New k)
include h hfd

theorem adoptScratch_frame :
    Frame (downloadNames locname) base
      (adoptScratch env fs (scratchName locname) locname fd).2.2 ∧
    ∀ k, (adoptScratch env fs (scratchName locname) locname fd).2.1 = some k → base.New k := by
  have hl := locname_mem locname
  have hc := (h.rename (scratch_mem locname) hl).closeOpt hfd
  unfold adoptScratch
  split_ifs with h1 h2
  · exact ⟨h, hfd⟩
  · exact ⟨h, hfd⟩
  · dsimp only
    split
    · rename_i k fs' _ ho
      have ho' := hc.openFile hl ho
      refine ⟨ho'.1, ?_⟩
      rintro j ⟨⟩
      exact ho'.2
    · exact ⟨hc, by simp⟩

theorem unzipScratch_frame (src : Nat) :
    Frame (downloadNames locname) base
      (unzipScratch cx env fs src (scratchName locname) locname fd).2.2 ∧
    ∀ k, (unzipScratch cx env fs src (scratchName locname) locname fd).2.1 = some k →
      base.New k := by
  unfold unzipScratch
  by_cases h1 : env.sys .unzip = none
  · rw [if_neg (by simp [h1])]
    cases cx.codec.unzip (fs.inodes src).data with
    | none => exact ⟨h, hfd⟩
    | some plain => exact adoptScratch_frame (h.overwrite (scratch_mem locname) _) hfd
  · rw [if_pos h1]
    exact ⟨h, hfd⟩

variable (cx env) in
theorem handleCompression_frame (metadata : Dict) :
    Frame (downloadNames locname) base (handleCompression cx env fs locname fd metadata).2.2 ∧
    ∀ k, (handleCompression cx env fs locname fd metadata).2.1 = some k → base.New k := by
  unfold handleCompression
  cases metadata .compression with
  | none => exact ⟨h, hfd⟩
  | some compressed =>
    dsimp only
    by_cases h1 : startsWith compressed textNone = true
    · rw [if_pos h1]
      exact ⟨h, hfd⟩
    rw [if_neg h1]
    by_cases h2 : startsWith compressed textZlib = false
    · rw [if_pos h2]
      exact ⟨h, hfd⟩
    rw [if_neg h2]
    split
    · by_cases h3 : env.sys .fopenScratch = none
      · rw [if_neg (by simp [h3])]
        exact unzipScratch_frame (h.overwrite (scratch_mem locname) []) hfd _
      · rw [if_pos h3]
        exact ⟨h, hfd⟩
    · exact ⟨h, hfd⟩

theorem reopenLocal_frame (flags : OpenFlags) :
    Frame (downloadNames locname) base (reopenLocal env fs locname fd flags).2 ∧
    ∀ k, (reopenLocal env fs locname fd flags).1 = some k → base.New k := by
  have hc := h.closeOpt hfd
  unfold reopenLocal
  by_cases h1 : env.sys .closeDownload = none
  · rw [if_neg (by simp [h1])]
    split
    · rename_i k fs' _ ho
      have ho' := hc.openFile (locname_mem locname) ho
      refine ⟨ho'.1, ?_⟩
      rintro j ⟨⟩
      exact ho'.2
    · exact ⟨hc, by simp⟩
  · rw [if_pos h1]
    exact ⟨hc, by simp⟩

end Frames

section Fetch

variable {cx : Ctx} {env : Env} {st : Store} {base fs : LocalFs} {locname : Path}

variable (env) in
theorem removeOld_frame {names : List Path} (h : Frame names base fs)
    (hn : collapse locname ∈ names) : Frame names base (removeOld env fs locname) := by
  unfold removeOld
  split_ifs
  · exact h.unlink hn
  · exact h

theorem receiveObject_frame (h : Frame (downloadNames locname) base fs) {fd : Nat}
    (hfd : base.New fd)
    (hi : ∀ f, fs.fds.lookup fd = some f → fs.files (collapse locname) = some f.inode)
    (remote : Path) (encryption : Bool) (flags : OpenFlags) :
    Frame (downloadNames locname) base
      (receiveObject cx env st fs remote locname encryption fd flags).2 ∧
    ∀ k, (receiveObject cx env st fs remote locname encryption fd flags).1 = some k →
      base.New k := by
  have hnew : ∀ k, some fd = some k → base.New k := by
    rintro k ⟨⟩
    exact hfd
  unfold receiveObject
  split
  · rename_i data metadata _
    split
    · rename_i i _ hino
      have hmem : base.nextInode ≤ i ∨ ∃ n ∈ downloadNames locname, fs.files n = some i := by
        simp only [inodeOf, Option.map_eq_some_iff] at hino
        obtain ⟨f, hf, rfl⟩ := hino
        exact .inr ⟨_, locname_mem locname, hi f hf⟩
      have hc := handleCompression_frame cx env (h.writeInode data hmem) hnew
        metadata
      dsimp only
      split_ifs with hret
      · exact ⟨hc.1, by simp⟩
      · exact reopenLocal_frame hc.1 hc.2 flags
    · exact ⟨h.close hfd, by simp⟩
  · exact ⟨h.close hfd, by simp⟩

variable (cx env st) in
/-- A download touches the cache file and the scratch file of its path only, and returns
a descriptor that was not in use. -/
theorem fetchObject_frame (h : Frame (downloadNames locname) base fs) (remote : Path)
    (metadata : Dict) (flags : OpenFlags) :
    Frame (downloadNames locname) base
      (fetchObject cx env st fs remote locname metadata flags).2 ∧
    ∀ k, (fetchObject cx env st fs remote locname metadata flags).1 = some k → base.New k := by
  have hr := removeOld_frame env h (locname_mem locname)
  unfold fetchObject
  dsimp only
  split
  · rename_i fd fs' _ ho
    obtain ⟨i, hop⟩ := openFile_ok ho
    obtain ⟨hf, hfd⟩ := hr.openFile (locname_mem locname) ho
    have hi : ∀ f, fs'.fds.lookup fd = some f → fs'.files (collapse locname) = some f.inode := by
      intro f hl
      rw [hop.lookup, Option.some.injEq] at hl
      rw [← hl]
      exact hop.named
    split
    · rename_i text _
      split_ifs with h1
      · exact ⟨hf.close hfd, by simp⟩
      · have hm := hf.fchmod (toU32 (strtoull text))
          (fun f hl => .inr ⟨_, locname_mem locname, hi f hl⟩)
        refine receiveObject_frame hm hfd ?_ remote _ flags
        simpa [LocalFs.fchmod, hop.lookup, LocalFs.chmod] using hop.named
    · exact receiveObject_frame hf hfd hi remote _ flags
  · exact ⟨hr, by simp⟩

end Fetch

/-- What the data of an object becomes in the cache; `none` when the download fails. -/
def unpack (cx : Ctx) (locname : Path) (metadata : Dict) (data : Bytes) : Option Bytes :=
  match metadata .compression with
  | none => some data
  | some compressed =>
    if startsWith compressed textNone then some data
    else if startsWith compressed textZlib = false then none
    else if collapse (scratchName locname) = collapse locname then none
    else cx.codec.unzip data

/-- The metadata say that the data are a ciphertext of the one kind there is. -/
def Encrypted (metadata : Dict) : Bool :=
  match metadata .cipher, metadata .cipherType with
  | some cipher, some type => startsWithNoCase cipher textYes && startsWithNoCase type textAes256Cfb
  | _, _ => false

/-- What an object stands for: its data decrypted and decompressed as its metadata say. -/
def decode (cx : Ctx) (o : Obj) : Option Bytes :=
  let data := if Encrypted o.userMeta then cx.codec.decrypt o.data else o.data
  match o.userMeta .compression with
  | none => some data
  | some compressed =>
    if startsWith compressed textNone then some data
    else if startsWith compressed textZlib = false then none
    else cx.codec.unzip data

/-- An object that is not encrypted is downloaded as what it stands for, unless the name of
the scratch file is cut back to that of the cache file. -/
theorem unpack_eq_decode {cx : Ctx} {locname : Path} {o : Obj}
    (he : Encrypted o.userMeta = false)
    (hn : collapse (scratchName locname) ≠ collapse locname) :
    unpack cx locname o.userMeta o.data = decode cx o := by
  unfold unpack decode
  cases o.userMeta .compression with
  | none => simp [he]
  | some compressed => simp [he, hn]

section Content

variable {cx : Ctx} {env : Env} {fs : LocalFs} {locname : Path} {fd : Option Nat}

/-- The file the scratch name stands for, once it is opened for writing. -/
def scratchFile (fs : LocalFs) (locname : Path) : Inode :=
  (fs.fileOf (scratchName locname)).getD fs.newFile

/-- What a decompression leaves in the scratch file. -/
def flushed (env : Env) (plain : Bytes) : Bytes :=
  if env.sys .fcloseScratch = none then plain else env.written plain

/-- The cache file after the compression step: the scratch file once it has taken its place,
the downloaded one otherwise; `none` when the step fails whatever the calls do. -/
def unpackFile (cx : Ctx) (env : Env) (fs : LocalFs) (locname : Path) (metadata : Dict)
    (ino : Inode) : Option Inode :=
  match metadata .compression with
  | none => some ino
  | some compressed =>
    if startsWith compressed textNone then some ino
    else if startsWith compressed textZlib = false then none
    else if collapse (scratchName locname) = collapse locname then none
    else (cx.codec.unzip ino.data).map fun plain =>
      if env.sys .renameScratch = none then
        { scratchFile fs locname with data := flushed env plain }
      else ino

variable (cx fs locname) in
theorem unpackFile_unpack (hren : env.sys .renameScratch = none)
    (hflush : env.sys .fcloseScratch = none) (metadata : Dict) (ino : Inode) :
    (unpackFile cx env fs locname metadata ino).map (·.data) =
      unpack cx locname metadata ino.data := by
  unfold unpackFile unpack
  cases metadata .compression with
  | none => rfl
  | some compressed =>
    dsimp only
    split_ifs with h1 h2 h3
    · rfl
    · rfl
    · rfl
    · cases cx.codec.unzip ino.data with
      | none => rfl
      | some plain => simp [flushed, hflush]

theorem adoptScratch_file (hne : collapse (scratchName locname) ≠ collapse locname)
    {sino ino : Inode} (hs : fs.fileOf (scratchName locname) = some sino)
    (hl : fs.fileOf locname = some ino)
    (hret : (adoptScratch env fs (scratchName locname) locname fd).1 ≠ -1) :
    (adoptScratch env fs (scratchName locname) locname fd).2.2.fileOf locname =
      some (if env.sys .renameScratch = none then sino else ino) := by
  unfold adoptScratch at hret ⊢
  by_cases h1 : env.lib .markUncompressed = false
  · simp [h1] at hret
  rw [if_neg h1] at hret ⊢
  by_cases h2 : env.sys .renameScratch = none
  · rw [if_neg (by simp [h2])] at hret ⊢
    rw [if_pos h2]
    dsimp only at hret ⊢
    split
    · rename_i k fs' _ ho
      obtain ⟨i, hop⟩ := openFile_ok ho
      have hr : ((fs.rename (scratchName locname) locname).closeOpt fd).fileOf locname =
          some sino := by rw [fileOf_closeOpt, fileOf_rename hne, hs]
      rw [fileOf, hop.named, Option.map_some, hop.file rfl hr]
    · rename_i hno
      split at hret
      · rename_i k fs' he ho
        exact (hno _ _ he ho).elim
      · simp at hret
  · simp [h2, hl]

/-- When the compression step does not fail, the cache file is what `unpackFile` says. -/
theorem handleCompression_file (hw : fs.Wf) {metadata : Dict} {ino : Inode}
    (hd : fs.fileOf locname = some ino)
    (hret : (handleCompression cx env fs locname fd metadata).1 ≠ -1) :
    ∃ ino', unpackFile cx env fs locname metadata ino = some ino' ∧
      (handleCompression cx env fs locname fd metadata).2.2.fileOf locname = some ino' := by
  unfold handleCompression at hret ⊢
  unfold unpackFile
  cases hc : metadata .compression with
  | none => exact ⟨ino, rfl, by simpa [hc] using hd⟩
  | some compressed =>
    rw [hc] at hret
    dsimp only at hret ⊢
    by_cases h1 : startsWith compressed textNone = true
    · rw [if_pos h1, if_pos h1]
      exact ⟨ino, rfl, hd⟩
    rw [if_neg h1] at hret ⊢
    rw [if_neg h1]
    by_cases h2 : startsWith compressed textZlib = false
    · simp [h2] at hret
    rw [if_neg h2] at hret ⊢
    rw [if_neg h2]
    obtain ⟨src, hf, rfl⟩ := Option.map_eq_some_iff.mp hd
    cases h3 : env.sys .fopenCompressed with
    | some e => simp [hf, h3] at hret
    | none =>
      simp only [hf, h3] at hret ⊢
      by_cases h4 : env.sys .fopenScratch = none
      · simp only [h4, ne_eq, not_true_eq_false, if_false] at hret ⊢
        by_cases hne : collapse (scratchName locname) = collapse locname
        · -- the source is the scratch file itself and has just been emptied
          exfalso
          have he : ((fs.overwrite (scratchName locname) []).inodes src).data = [] := by
            simp [LocalFs.overwrite, hne, hf, LocalFs.writeInode]
          simp [unzipScratch, he, cx.codec.unzip_nil] at hret
        · have hk := (overwrite_of_ne hw (Ne.symm hne) [] hf).2
          have hl := fileOf_overwrite_of_ne hw (Ne.symm hne) [] hd
          have hw' := hw.overwrite (scratchName locname) []
          rw [if_neg hne]
          unfold unzipScratch at hret ⊢
          by_cases h5 : env.sys .unzip = none
          · rw [if_neg (by simp [h5]), hk] at hret ⊢
            cases hz : cx.codec.unzip (fs.inodes src).data with
            | none => simp [hz] at hret
            | some plain =>
              simp only [hz] at hret ⊢
              have hs : ((fs.overwrite (scratchName locname) []).overwrite (scratchName locname)
                  (flushed env plain)).fileOf (scratchName locname) =
                  some { scratchFile fs locname with data := flushed env plain } := by
                rw [fileOf_overwrite, fileOf_overwrite]
                rfl
              exact ⟨_, rfl, adoptScratch_file hne hs
                (fileOf_overwrite_of_ne hw' (Ne.symm hne) _ hl) hret⟩
          · simp [h5] at hret
      · simp [h4] at hret

theorem adoptScratch_wf (hw : fs.Wf) (uzlocal : Path) :
    (adoptScratch env fs uzlocal locname fd).2.2.Wf := by
  have hc := (hw.rename uzlocal locname).closeOpt fd
  unfold adoptScratch
  split_ifs with h1 h2
  · exact hw
  · exact hw
  · dsimp only
    split
    · rename_i k fs' _ ho
      exact hc.openFile ho
    · exact hc

theorem unzipScratch_wf (hw : fs.Wf) (src : Nat) (uzlocal : Path) :
    (unzipScratch cx env fs src uzlocal locname fd).2.2.Wf := by
  unfold unzipScratch
  by_cases h1 : env.sys .unzip = none
  · rw [if_neg (by simp [h1])]
    cases cx.codec.unzip (fs.inodes src).data with
    | none => exact hw
    | some plain => exact adoptScratch_wf (hw.overwrite uzlocal _) uzlocal
  · rw [if_pos h1]
    exact hw

variable (cx env locname fd) in
theorem handleCompression_wf (hw : fs.Wf) (metadata : Dict) :
    (handleCompression cx env fs locname fd metadata).2.2.Wf := by
  unfold handleCompression
  cases metadata .compression with
  | none => exact hw
  | some compressed =>
    dsimp only
    by_cases h1 : startsWith compressed textNone = true
    · rw [if_pos h1]
      exact hw
    rw [if_neg h1]
    by_cases h2 : startsWith compressed textZlib = false
    · rw [if_pos h2]
      exact hw
    rw [if_neg h2]
    split
    · by_cases h3 : env.sys .fopenScratch = none
      · rw [if_neg (by simp [h3])]
        exact unzipScratch_wf (hw.overwrite _ []) _ _
      · rw [if_pos h3]
        exact hw
    · exact hw

theorem reopenLocal_wf (hw : fs.Wf) (flags : OpenFlags) :
    (reopenLocal env fs locname fd flags).2.Wf := by
  unfold reopenLocal
  by_cases h1 : env.sys .closeDownload = none
  · rw [if_neg (by simp [h1])]
    split
    · rename_i k fs' _ ho
      exact (hw.closeOpt fd).openFile ho
    · exact hw.closeOpt fd
  · rw [if_pos h1]
    exact hw.closeOpt fd

variable (env locname) in
theorem removeOld_wf (hw : fs.Wf) : (removeOld env fs locname).Wf := by
  unfold removeOld
  split_ifs
  · exact hw.unlink locname
  · exact hw

theorem receiveObject_wf (hw : fs.Wf) {st : Store} {remote : Path} {encryption : Bool} {k : Nat}
    {flags : OpenFlags} :
    (receiveObject cx env st fs remote locname encryption k flags).2.Wf := by
  unfold receiveObject
  split
  · rename_i data metadata _
    split
    · rename_i i _ _
      have hc := handleCompression_wf cx env locname (some k) (hw.writeInode i data) metadata
      dsimp only
      split_ifs with hret
      · exact hc
      · exact reopenLocal_wf hc flags
    · exact hw.close k
  · exact hw.close k

variable (cx env locname) in
theorem fetchObject_wf (hw : fs.Wf) (st : Store) (remote : Path) (metadata : Dict)
    (flags : OpenFlags) : (fetchObject cx env st fs remote locname metadata flags).2.Wf := by
  have hr := removeOld_wf env locname hw
  unfold fetchObject
  dsimp only
  split
  · rename_i k fs' _ ho
    have ho' := hr.openFile ho
    split
    · split_ifs
      · exact ho'.close k
      · exact receiveObject_wf (ho'.fchmod k _)
    · exact receiveObject_wf ho'
  · exact hr

end Content

section Result

variable {cx : Ctx} {env : Env} {st : Store} {fs : LocalFs} {remote locname : Path}

theorem reopenLocal_some {fd : Option Nat} {flags : OpenFlags} {k : Nat}
    (h : (reopenLocal env fs locname fd flags).1 = some k) :
    ∃ i, Opened (fs.closeOpt fd) locname flags k i (reopenLocal env fs locname fd flags).2 := by
  unfold reopenLocal at h ⊢
  by_cases h1 : env.sys .closeDownload = none
  · simp only [h1, ne_eq, not_true_eq_false, if_false] at h ⊢
    split
    · rename_i j fs' he ho
      simp only [he, ho, Option.some.injEq] at h
      subst h
      exact openFile_ok ho
    · rename_i hno
      split at h
      · rename_i j fs' he ho
        exact (hno _ _ he ho).elim
      · cases h
  · simp [h1] at h

/-- A download that returns a descriptor has carried out all of its steps. -/
theorem receiveObject_some {encryption : Bool} {fd : Nat} {flags : OpenFlags} {k : Nat}
    (h : (receiveObject cx env st fs remote locname encryption fd flags).1 = some k) :
    ∃ data metadata i, dplOpenread cx env st remote encryption = (.success, data, metadata) ∧
      fs.inodeOf fd = some i ∧
      (handleCompression cx env (fs.writeInode i data) locname (some fd) metadata).1 ≠ -1 ∧
      receiveObject cx env st fs remote locname encryption fd flags =
        reopenLocal env
          (handleCompression cx env (fs.writeInode i data) locname (some fd) metadata).2.2 locname
          (handleCompression cx env (fs.writeInode i data) locname (some fd) metadata).2.1
          flags := by
  unfold receiveObject at h ⊢
  split at h
  · rename_i data metadata hread
    split at h
    · rename_i i hsys hino
      dsimp only at h
      split_ifs at h with hret
      · exact ⟨data, metadata, i, hread, hino, hret, by simp [hret]⟩
    · cases h
  · cases h

/-- The mode of the file a download writes to, before the stored one is set: that of a file which
could not be removed, else that of a new one. -/
def overwrittenMode (env : Env) (fs : LocalFs) (locname : Path) : Nat :=
  let fs := removeOld env fs locname
  ((fs.fileOf locname).map (·.mode)).getD (fs.newMode 0o644)

/-- And once it is set. -/
def downloadMode (env : Env) (fs : LocalFs) (locname : Path) (metadata : Dict) : Nat :=
  match metadata .mode with
  | some text => toU32 (strtoull text)
  | none => overwrittenMode env fs locname

/-- The cache file and the descriptor a download writes to. -/
structure Prepared (env : Env) (fs : LocalFs) (locname : Path) (metadata : Dict) (fd i : Nat)
    (gs : LocalFs) : Prop where
  inode : gs.inodeOf fd = some i
  named : gs.files (collapse locname) = some i
  wf : fs.Wf → gs.Wf
  frame : Frame [collapse locname] fs gs
  mode : (gs.inodes i).mode = downloadMode env fs locname metadata

theorem fetchObject_some {metadata : Dict} {flags : OpenFlags} {k : Nat}
    (h : (fetchObject cx env st fs remote locname metadata flags).1 = some k) :
    ∃ fd i gs, Prepared env fs locname metadata fd i gs ∧
      fetchObject cx env st fs remote locname metadata flags =
        receiveObject cx env st gs remote locname false fd flags := by
  have hmem : collapse locname ∈ [collapse locname] := List.mem_singleton_self _
  unfold fetchObject at h ⊢
  dsimp only at h ⊢
  split at h
  · rename_i fd fs' hsys ho
    obtain ⟨i, hop⟩ := openFile_ok ho
    have hwf : fs.Wf → fs'.Wf := fun hw => (removeOld_wf env locname hw).openFile ho
    have hfr := ((removeOld_frame env (Frame.refl _ fs) hmem).openFile hmem ho).1
    have hino : fs'.inodeOf fd = some i := by simp [inodeOf, hop.lookup]
    cases hm : metadata .mode with
    | none =>
      refine ⟨fd, i, fs', ⟨hino, hop.named, hwf, hfr, ?_⟩, by simp⟩
      rw [downloadMode, hm]
      exact openFile_mode ho hop.named
    | some text =>
      rw [hm] at h
      by_cases hc : env.sys .fchmodDownload = none
      · have hch : fs'.fchmod fd (toU32 (strtoull text)) = fs'.chmod i (toU32 (strtoull text)) := by
          simp [LocalFs.fchmod, hop.lookup]
        refine ⟨fd, i, fs'.chmod i (toU32 (strtoull text)), ⟨?_, ?_, ?_, ?_, ?_⟩, ?_⟩
        · simpa [LocalFs.chmod, inodeOf] using hino
        · simpa [LocalFs.chmod] using hop.named
        · intro hw
          rw [← hch]
          exact (hwf hw).fchmod fd _
        · exact hfr.chmod _ (.inr ⟨_, hmem, hop.named⟩)
        · rw [downloadMode, hm]
          simp [LocalFs.chmod]
        · simp [hc, hch]
      · simp [hc] at h
  · cases h

/-- The descriptor of a download is open on the cache file, at its start. -/
theorem fetchObject_lookup {metadata : Dict} {flags : OpenFlags} {k : Nat}
    (h : (fetchObject cx env st fs remote locname metadata flags).1 = some k) :
    ∃ i, (fetchObject cx env st fs remote locname metadata flags).2.files (collapse locname) =
        some i ∧
      (fetchObject cx env st fs remote locname metadata flags).2.fds.lookup k =
        some ⟨i, flags.acc, 0⟩ := by
  obtain ⟨fd, i, gs, _, he⟩ := fetchObject_some h
  rw [he] at h ⊢
  obtain ⟨data, md, j, _, _, _, he'⟩ := receiveObject_some h
  rw [he'] at h ⊢
  obtain ⟨l, hop⟩ := reopenLocal_some h
  exact ⟨l, hop.named, hop.lookup⟩

theorem dplOpenread_ok {p : Path} {encryption : Bool} {data : Bytes} {metadata : Dict}
    (h : dplOpenread cx env st p encryption = (.success, data, metadata)) :
    ∃ o, st.lookup p = some o ∧ o.ftype ≠ .dir ∧ metadata = o.userMeta ∧
      data = if encryption then cx.codec.decrypt o.data else o.data := by
  unfold dplOpenread at h
  cases hr : env.remote (.openread p) <;> rw [hr] at h <;> try simp at h
  cases hl : st.lookup p with
  | none => simp [hl] at h
  | some o =>
    rw [hl] at h
    by_cases hd : o.ftype = .dir
    · simp [hd] at h
    · simp only [hd, if_false, Prod.mk.injEq, true_and] at h
      exact ⟨o, rfl, hd, h.2.symm, h.1.symm⟩

/-- The file behind the descriptor of a download is what the compression step makes of the
object's data under the mode of the metadata. -/
theorem fetchObject_file (hw : fs.Wf) {metadata : Dict} {flags : OpenFlags}
    (ht : flags.trunc = false) {k : Nat}
    (h : (fetchObject cx env st fs remote locname metadata flags).1 = some k) :
    ∃ o gs ino ino' l, st.lookup remote = some o ∧ o.ftype ≠ .dir ∧ ino.data = o.data ∧
      ino.mode = downloadMode env fs locname metadata ∧
      (collapse (scratchName locname) ≠ collapse locname →
        scratchFile gs locname = scratchFile fs locname) ∧
      unpackFile cx env gs locname o.userMeta ino = some ino' ∧
      (fetchObject cx env st fs remote locname metadata flags).2.inodeOf k = some l ∧
      (fetchObject cx env st fs remote locname metadata flags).2.inodes l = ino' := by
  obtain ⟨fd, i, gs, hp, he⟩ := fetchObject_some h
  rw [he] at h ⊢
  obtain ⟨data, md, j, hread, hino, hret, he'⟩ := receiveObject_some h
  obtain ⟨o, ho, hdir, rfl, hdata⟩ := dplOpenread_ok hread
  rw [if_neg (by simp)] at hdata
  subst hdata
  rw [hp.inode, Option.some.injEq] at hino
  subst hino
  have hfr : Frame [collapse locname] fs (gs.writeInode i o.data) :=
    hp.frame.writeInode _ (.inr ⟨_, List.mem_singleton_self _, hp.named⟩)
  have hfile : (gs.writeInode i o.data).fileOf locname =
      some { gs.inodes i with data := o.data } := by
    simp [LocalFs.fileOf, LocalFs.writeInode, hp.named]
  obtain ⟨ino', hun, hres⟩ := handleCompression_file ((hp.wf hw).writeInode i o.data) hfile hret
  rw [he'] at h ⊢
  obtain ⟨l, hl⟩ := reopenLocal_some h
  have hd := hl.file ht (by rw [fileOf_closeOpt, hres])
  refine ⟨o, gs.writeInode i o.data, { gs.inodes i with data := o.data }, ino', l, ho, hdir, rfl,
    hp.mode, fun hne => ?_, hun, by simp [inodeOf, hl.lookup], hd⟩
  rw [scratchFile, hfr.fileOf hw (by simpa using hne), hfr.newFile, scratchFile]

/-- When the scratch file is complete and in place, the descriptor of a download reads as
the unpacked object, which is never decrypted. -/
theorem fetchObject_content (hw : fs.Wf) (hren : env.sys .renameScratch = none)
    (hflush : env.sys .fcloseScratch = none) {metadata : Dict} {flags : OpenFlags}
    (ht : flags.trunc = false) {k : Nat}
    (h : (fetchObject cx env st fs remote locname metadata flags).1 = some k) :
    ∃ o plain, st.lookup remote = some o ∧ o.ftype ≠ .dir ∧
      unpack cx locname o.userMeta o.data = some plain ∧
      (fetchObject cx env st fs remote locname metadata flags).2.content k = some plain := by
  obtain ⟨o, gs, ino, ino', l, ho, hdir, hdata, _, _, hun, hl, hino⟩ := fetchObject_file hw ht h
  refine ⟨o, ino'.data, ho, hdir, ?_, by simp [content, hl, hino]⟩
  rw [← hdata, ← unpackFile_unpack cx gs locname hren hflush, hun]
  rfl

end Result

/-- The metadata say that the data are compressed. -/
def Zipped (metadata : Dict) : Prop :=
  ∃ compressed, metadata .compression = some compressed ∧ startsWith compressed textZlib = true

/-- The two methods do not begin alike. -/
theorem Zipped.not_none {metadata : Dict} {compressed : CStr}
    (hc : metadata .compression = some compressed) (hz : Zipped metadata) :
    startsWith compressed textNone = false ∧ startsWith compressed textZlib = true := by
  obtain ⟨c, hc', hzlib⟩ := hz
  obtain rfl : compressed = c := Option.some.inj (hc.symm.trans hc')
  refine ⟨?_, hzlib⟩
  simp only [startsWith, decide_eq_true_eq, decide_eq_false_iff_not] at hzlib ⊢
  intro hn
  have : textZlib = textNone := hzlib.symm.trans hn
  exact absurd this (by decide)

/-- The calls of the decompression go through; a failed rename is passed over. -/
structure Env.Unpacks (env : Env) : Prop where
  fopenCompressed : env.sys .fopenCompressed = none
  fopenScratch : env.sys .fopenScratch = none
  unzip : env.sys .unzip = none
  markUncompressed : env.lib .markUncompressed = true
  reopenDownload : env.sys .renameScratch = none → env.sys .reopenDownload = none

/-- The calls of a download that decide whether it returns a descriptor go through. -/
structure Env.Fetches (env : Env) (remote : Path) (metadata : Dict) : Prop where
  openDownload : env.sys .openDownload = none
  fchmodDownload : (metadata .mode).isSome → env.sys .fchmodDownload = none
  openread : env.remote (.openread remote) = .success
  writeDownload : env.sys .writeDownload = none
  unpacks : Zipped metadata → env.Unpacks
  closeDownload : env.sys .closeDownload = none
  openLocal : env.sys .openLocal = none

theorem Env.AllOk.fetches {env : Env} (hok : env.AllOk) (remote : Path) (metadata : Dict) :
    env.Fetches remote metadata :=
  ⟨hok.sys _, fun _ => hok.sys _, hok.remote _, hok.sys _,
    fun _ => ⟨hok.sys _, hok.sys _, hok.sys _, hok.lib _, fun _ => hok.sys _⟩, hok.sys _, hok.sys _⟩

section Completes

variable {cx : Ctx} {env : Env} {st : Store} {fs : LocalFs} {remote locname : Path}

theorem files_of_readName {name : Path} {data : Bytes} (h : fs.readName name = some data) :
    (fs.files (collapse name)).isSome := by
  cases hf : fs.files (collapse name) with
  | some i => rfl
  | none => simp [readName, hf] at h

theorem adoptScratch_completes (hu : env.Unpacks)
    (hne : collapse (scratchName locname) ≠ collapse locname) {plain : Bytes}
    (hd : fs.readName (scratchName locname) = some plain)
    (hl : (fs.files (collapse locname)).isSome) (fd : Option Nat) :
    (adoptScratch env fs (scratchName locname) locname fd).1 ≠ -1 ∧
    ((adoptScratch env fs (scratchName locname) locname fd).2.2.files
      (collapse locname)).isSome := by
  have hr : ((fs.rename (scratchName locname) locname).closeOpt fd).readName locname =
      some plain := by rw [readName_closeOpt, readName_rename hne, hd]
  have hsome := files_of_readName hr
  by_cases hren : env.sys .renameScratch = none
  · obtain ⟨⟨k, fs'⟩, ho⟩ := Option.isSome_iff_exists.mp
      (openFile_isSome _ locname ⟨.rdonly, false, false, false⟩ 0 (.inr hsome))
    obtain ⟨i, hop⟩ := openFile_ok ho
    simp [adoptScratch, hu.markUncompressed, hren, hu.reopenDownload hren, ho, hop.named]
  · simp [adoptScratch, hu.markUncompressed, hren, hl]

/-- When its calls go through, the compression step succeeds on data that can be unpacked,
and the cache file is there afterwards. -/
theorem handleCompression_completes {metadata : Dict} (hun : Zipped metadata → env.Unpacks)
    (hw : fs.Wf) {data plain : Bytes} (hd : fs.readName locname = some data)
    (hu : unpack cx locname metadata data = some plain) (fd : Option Nat) :
    (handleCompression cx env fs locname fd metadata).1 ≠ -1 ∧
    ((handleCompression cx env fs locname fd metadata).2.2.files (collapse locname)).isSome := by
  have hl := files_of_readName hd
  unfold unpack at hu
  unfold handleCompression
  cases hc : metadata .compression with
  | none => simp [hl]
  | some compressed =>
    rw [hc] at hu
    dsimp only at hu ⊢
    split_ifs at hu with h1 h2 h3
    · simp [h1, hl]
    · have hall := hun ⟨compressed, hc, by simpa using h2⟩
      cases hf : fs.files (collapse locname) with
      | none => simp [hf] at hl
      | some src =>
        obtain ⟨hk, hdk⟩ := overwrite_of_ne hw (Ne.symm h3) [] hf
        have hdata : ((fs.overwrite (scratchName locname) []).inodes src).data = data := by
          rw [hdk]
          simpa [readName, hf] using hd
        have hw' := hw.overwrite (scratchName locname) []
        simp only [h1, h2, hall.fopenCompressed, hall.fopenScratch, hall.unzip, ne_eq,
          not_true_eq_false, if_false, unzipScratch, hdata, hu]
        refine adoptScratch_completes hall h3 (readName_overwrite _ _ _) ?_ fd
        rw [(overwrite_of_ne hw' (Ne.symm h3) _ hk).1]
        rfl

theorem reopenLocal_completes (hclose : env.sys .closeDownload = none)
    (hopen : env.sys .openLocal = none) (hl : (fs.files (collapse locname)).isSome)
    (fd : Option Nat) (flags : OpenFlags) :
    ((reopenLocal env fs locname fd flags).1).isSome := by
  rw [← closeOpt_files fs fd] at hl
  obtain ⟨⟨k, fs'⟩, ho⟩ := Option.isSome_iff_exists.mp
    (openFile_isSome _ locname flags 0o600 (.inr hl))
  simp [reopenLocal, hclose, hopen, ho]

theorem receiveObject_completes {o : Obj} (hf : env.Fetches remote o.userMeta) (hw : fs.Wf)
    {fd i : Nat} (hin : fs.inodeOf fd = some i) (hfile : fs.files (collapse locname) = some i)
    (ho : st.lookup remote = some o) (hdir : o.ftype ≠ .dir) {plain : Bytes}
    (hu : unpack cx locname o.userMeta o.data = some plain) (flags : OpenFlags) :
    ((receiveObject cx env st fs remote locname false fd flags).1).isSome := by
  have hread : (fs.writeInode i o.data).readName locname = some o.data := by
    simp [readName, LocalFs.writeInode, hfile]
  obtain ⟨hne, hnamed⟩ := handleCompression_completes hf.unpacks (hw.writeInode i o.data) hread hu
    (some fd)
  simp only [receiveObject, dplOpenread, hf.openread, ho, hdir, if_false, hf.writeDownload, hin,
    hne, Bool.false_eq_true]
  exact reopenLocal_completes hf.closeDownload hf.openLocal hnamed _ flags

/-- When its calls go through, an object that can be unpacked is downloaded. -/
theorem fetchObject_completes {o : Obj} (hf : env.Fetches remote o.userMeta) (hw : fs.Wf)
    (ho : st.lookup remote = some o) (hdir : o.ftype ≠ .dir) {plain : Bytes}
    (hu : unpack cx locname o.userMeta o.data = some plain) (flags : OpenFlags) :
    ((fetchObject cx env st fs remote locname o.userMeta flags).1).isSome := by
  obtain ⟨⟨fd, fs'⟩, hopen⟩ := Option.isSome_iff_exists.mp
    (openFile_isSome (removeOld env fs locname) locname rdwrCreatTrunc 0o644 (.inl rfl))
  obtain ⟨i, hop⟩ := openFile_ok hopen
  have hw' := (removeOld_wf env locname hw).openFile hopen
  simp only [fetchObject, hf.openDownload, hopen, checkEncryptionFlag_eq_false]
  cases hm : o.userMeta .mode with
  | none =>
    exact receiveObject_completes hf hw' (by simp [inodeOf, hop.lookup]) hop.named ho hdir hu
      flags
  | some text =>
    simp only [hf.fchmodDownload (by simp [hm]), ne_eq, not_true_eq_false, if_false]
    refine receiveObject_completes hf (hw'.fchmod fd _) (i := i) ?_ ?_ ho hdir hu flags
    · simp [inodeOf, LocalFs.fchmod, hop.lookup, LocalFs.chmod]
    · simp [LocalFs.fchmod, hop.lookup, LocalFs.chmod, hop.named]

end Completes

end DropletFs
