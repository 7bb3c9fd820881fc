import DropletFs.Cache.Names
import DropletFs.Durable.Opening

/-! Which names the calls leave in the cache directory. -/

namespace DropletFs

open CText LocalFs

/-- The names of the cache directory that are in use. -/
def LocalFs.names (fs : LocalFs) : Set Path := {n | (fs.files n).isSome}

section Names

variable {fs fs' : LocalFs}

theorem names_of_files (h : fs'.files = fs.files) : fs'.names = fs.names := by
  unfold LocalFs.names
  rw [h]

theorem names_update_some (files : Path → Option Nat) (n : Path) (i : Nat) :
    {m | (Function.update files n (some i) m).isSome} = insert n {m | (files m).isSome} := by
  ext m
  by_cases h : m = n
  · subst h
    simp
  · simp [h]

theorem names_update_none (files : Path → Option Nat) (n : Path) :
    {m | (Function.update files n none m).isSome} = {m | (files m).isSome} \ {n} := by
  ext m
  by_cases h : m = n
  · subst h
    simp
  · simp [h]

theorem names_openFile {name : Path} {flags : OpenFlags} {mode fd : Nat}
    (h : fs.openFile name flags mode = some (fd, fs')) :
    fs'.names ⊆ insert (collapse name) fs.names := by
  unfold LocalFs.openFile at h
  cases hf : fs.files (collapse name) with
  | some i =>
    rw [hf] at h
    obtain ⟨-, rfl⟩ := Prod.mk.inj (Option.some.inj h)
    have hfiles : (if flags.trunc then fs.writeInode i [] else fs).files = fs.files := by
      split_ifs <;> rfl
    refine subset_trans (le_of_eq (names_of_files ?_)) (Set.subset_insert _ _)
    exact hfiles
  | none =>
    rw [hf] at h
    dsimp only at h
    split_ifs at h
    obtain ⟨-, rfl⟩ := Prod.mk.inj (Option.some.inj h)
    exact (names_update_some fs.files (collapse name) fs.nextInode).subset

theorem names_overwrite (fs : LocalFs) (name : Path) (data : Bytes) :
    (fs.overwrite name data).names ⊆ insert (collapse name) fs.names := by
  unfold LocalFs.overwrite
  cases fs.files (collapse name) with
  | some i => exact Set.subset_insert _ _
  | none => exact (names_update_some fs.files (collapse name) fs.nextInode).subset

theorem names_unlink (fs : LocalFs) (name : Path) :
    (fs.unlink name).names = fs.names \ {collapse name} :=
  names_update_none fs.files (collapse name)

theorem names_tryUnlink (env : Env) (call : SysCall) (fs : LocalFs) (name : Path) :
    (fs.tryUnlink env call name).names =
      if env.sys call = none then fs.names \ {collapse name} else fs.names := by
  unfold LocalFs.tryUnlink
  split_ifs
  · exact names_unlink fs name
  · rfl

theorem names_tryUnlink_subset (env : Env) (call : SysCall) (fs : LocalFs) (name : Path) :
    (fs.tryUnlink env call name).names ⊆ fs.names := by
  rw [names_tryUnlink]
  split_ifs
  · exact Set.sdiff_subset
  · exact subset_rfl

/-- The old name goes unless it denotes the same file as the new one. -/
theorem names_rename (fs : LocalFs) (old new : Path) :
    (fs.rename old new).names ⊆ insert (collapse new) (fs.names \ {collapse old}) := by
  unfold LocalFs.rename
  split_ifs with h
  · intro m hm
    by_cases he : m = collapse new
    · exact .inl he
    · exact .inr ⟨hm, fun ho => he (ho.trans h)⟩
  · intro m hm
    by_cases ho : m = collapse old
    · rw [ho] at hm
      simp [LocalFs.names] at hm
    · by_cases he : m = collapse new
      · exact .inl he
      · refine .inr ⟨?_, ho⟩
        simpa [LocalFs.names, ho, he] using hm

theorem names_closeOpt (fs : LocalFs) (fd : Option Nat) : (fs.closeOpt fd).names = fs.names :=
  names_of_files (closeOpt_files fs fd)

theorem names_writeInode (fs : LocalFs) (i : Nat) (data : Bytes) :
    (fs.writeInode i data).names = fs.names := rfl

theorem names_fchmod (fs : LocalFs) (fd mode : Nat) : (fs.fchmod fd mode).names = fs.names := by
  unfold LocalFs.fchmod
  cases fs.fds.lookup fd <;> rfl

end Names

section Opens

variable {cx : Ctx} {env : Env} {st : Store} {fs fs' : LocalFs} {locname : Path}
  {fd : Option Nat} {ret : Int} (hs : env.sys .renameScratch = none) (hret : ret ≠ -1)
include hs hret

/-- A scratch file has its name only until it takes the other's place. -/
theorem adoptScratch_names {old : Option Nat}
    (h : adoptScratch env fs (scratchName locname) locname old = (ret, fd, fs')) :
    fs'.names ⊆ insert (collapse locname) (fs.names \ {collapse (scratchName locname)}) := by
  unfold adoptScratch at h
  split_ifs at h with h1 h2
  · exact (hret (congrArg Prod.fst h).symm).elim
  · exact (h2 hs).elim
  · dsimp only at h
    split at h
    · rename_i k gs _ ho
      obtain rfl : gs = fs' := congrArg (fun r => r.2.2) h
      apply (names_openFile ho).trans
      rw [names_closeOpt]
      exact Set.insert_subset (Set.mem_insert _ _) (names_rename fs _ locname)
    · exact (hret (congrArg Prod.fst h).symm).elim

theorem unzipScratch_names {src : Nat} {old : Option Nat}
    (h : unzipScratch cx env fs src (scratchName locname) locname old = (ret, fd, fs')) :
    fs'.names ⊆ insert (collapse locname) (fs.names \ {collapse (scratchName locname)}) := by
  unfold unzipScratch at h
  by_cases h1 : env.sys .unzip = none
  · rw [if_neg (by simp [h1])] at h
    cases hz : cx.codec.unzip (fs.inodes src).data with
    | none =>
      rw [hz] at h
      exact (hret (congrArg Prod.fst h).symm).elim
    | some plain =>
      rw [hz] at h
      apply (adoptScratch_names hs hret h).trans
      apply Set.insert_subset_insert
      intro m hm
      exact ⟨(names_overwrite _ _ _ hm.1).resolve_left hm.2, hm.2⟩
  · rw [if_pos h1] at h
    exact (hret (congrArg Prod.fst h).symm).elim

theorem handleCompression_names {old : Option Nat} {metadata : Dict}
    (h : handleCompression cx env fs locname old metadata = (ret, fd, fs')) :
    fs'.names ⊆ insert (collapse locname) fs.names := by
  have hsame : (0, old, fs) = (ret, fd, fs') → fs'.names ⊆ insert (collapse locname) fs.names := by
    intro he
    obtain rfl : fs = fs' := congrArg (fun r => r.2.2) he
    exact Set.subset_insert _ _
  have hfail : ¬(-1, old, fs) = (ret, fd, fs') := fun he => hret (congrArg Prod.fst he).symm
  unfold handleCompression at h
  cases hm : metadata .compression with
  | none =>
    rw [hm] at h
    exact hsame h
  | some compressed =>
    rw [hm] at h
    dsimp only at h
    by_cases h1 : startsWith compressed textNone = true
    · rw [if_pos h1] at h
      exact hsame h
    rw [if_neg h1] at h
    by_cases h2 : startsWith compressed textZlib = false
    · rw [if_pos h2] at h
      exact (hfail h).elim
    rw [if_neg h2] at h
    split at h
    · split_ifs at h with h3
      · exact (hfail h).elim
      · apply (unzipScratch_names hs hret h).trans
        apply Set.insert_subset_insert
        intro m hm
        exact (names_overwrite _ _ _ hm.1).resolve_left hm.2
    · exact (hfail h).elim

omit hs hret in
theorem reopenLocal_names {old : Option Nat} {flags : OpenFlags}
    (h : reopenLocal env fs locname old flags = (fd, fs')) :
    fs'.names ⊆ insert (collapse locname) fs.names := by
  have hclosed : (none, fs.closeOpt old) = (fd, fs') →
      fs'.names ⊆ insert (collapse locname) fs.names := by
    intro he
    obtain ⟨-, rfl⟩ := Prod.mk.inj he
    rw [names_closeOpt]
    exact Set.subset_insert _ _
  unfold reopenLocal at h
  by_cases h1 : env.sys .closeDownload = none
  · rw [if_neg (by simp [h1])] at h
    split at h
    · rename_i k gs _ ho
      obtain ⟨-, rfl⟩ := Prod.mk.inj h
      rw [← names_closeOpt fs old]
      exact names_openFile ho
    · exact hclosed h
  · rw [if_pos h1] at h
    exact hclosed h

omit hret

theorem receiveObject_names {remote : Path} {encryption : Bool} {k j : Nat} {flags : OpenFlags}
    (h : receiveObject cx env st fs remote locname encryption k flags = (some j, fs')) :
    fs'.names ⊆ insert (collapse locname) fs.names := by
  have hfail : ∀ gs : LocalFs, ¬(none, gs) = (some j, fs') := by
    intro gs he
    cases congrArg Prod.fst he
  unfold receiveObject at h
  split at h
  · rename_i data metadata _
    split at h
    · dsimp only at h
      split_ifs at h with hcode
      · exact (hfail _ h).elim
      · apply (reopenLocal_names h).trans
        apply Set.insert_subset (Set.mem_insert _ _)
        rw [← names_writeInode fs _ data]
        exact handleCompression_names hs hcode rfl
    · exact (hfail _ h).elim
  · exact (hfail _ h).elim

/-- A download that returns a descriptor leaves the cache file of its path only. -/
theorem fetchObject_names {remote : Path} {metadata : Dict} {flags : OpenFlags} {j : Nat}
    (h : fetchObject cx env st fs remote locname metadata flags = (some j, fs')) :
    fs'.names ⊆ insert (collapse locname) fs.names := by
  have hold : (removeOld env fs locname).names ⊆ fs.names := by
    unfold removeOld
    split_ifs
    · rw [names_unlink]
      exact Set.sdiff_subset
    · exact subset_rfl
  have hfail : ∀ gs : LocalFs, ¬(none, gs) = (some j, fs') := by
    intro gs he
    cases congrArg Prod.fst he
  unfold fetchObject at h
  dsimp only at h
  split at h
  · rename_i k gs _ ho
    have hopened : gs.names ⊆ insert (collapse locname) fs.names :=
      (names_openFile ho).trans (Set.insert_subset_insert hold)
    have hall := Set.insert_subset (Set.mem_insert (collapse locname) fs.names) hopened
    split at h
    · rename_i text _
      split_ifs at h with h1
      · exact (hfail _ h).elim
      · apply (receiveObject_names hs h).trans
        rw [names_fchmod]
        exact hall
    · exact (receiveObject_names hs h).trans hall
  · exact (hfail _ h).elim

end Opens

/-- The names the calls for a path may leave. -/
def pathNames (cx : Ctx) (path : Path) : Set Path :=
  {n | ∃ smode, n ∈ openNames cx path smode} ∪
    {collapse (slashName cx path), collapse (scratchName (slashName cx path))}

section Modes

variable {cx : Ctx} {env : Env} {st : Store} {fs fs' : LocalFs} {path : Path} {pe pe' : Entry}
  {ret : Int}

/-- The functions that make a cache file for the path and those that remove it mean the same
file. -/
def Ctx.OneName (cx : Ctx) (path : Path) : Prop :=
  ∀ u v, SameCacheFile (cacheName cx u path) (cacheName cx v path)

/-- What an open leaves of the names: those that were there and, when it succeeds, its cache
file. -/
structure LeavesNames (cx : Ctx) (env : Env) (path : Path) (ret : Int) (fs fs' : LocalFs) :
    Prop where
  any : fs'.names ⊆ fs.names ∪ pathNames cx path
  done : env.sys .renameScratch = none → cx.OneName path → ret ≠ -1 →
    fs'.names ⊆ insert (collapse (slashName cx path)) fs.names

theorem LeavesNames.same (hf : fs'.names = fs.names) : LeavesNames cx env path ret fs fs' where
  any := hf.subset.trans Set.subset_union_left
  done _ _ _ := hf.subset.trans (Set.subset_insert _ _)

theorem openExisting_leaves {smode : StateMode}
    (h : openExisting cx env st fs path pe (openFlags smode) = .ok (ret, pe', fs')) :
    LeavesNames cx env path ret fs fs' := by
  unfold openExisting at h
  cases hfd : pe.fd with
  | some fd =>
    rw [hfd] at h
    simp only [Except.ok.injEq, Prod.mk.injEq] at h
    obtain ⟨-, -, rfl⟩ := h
    exact .same rfl
  | none =>
    rw [hfd] at h
    obtain ⟨⟨fd, qe, gs⟩, hg, h⟩ := Except.bind_ok.mp h
    simp only [Except.ok.injEq, Prod.mk.injEq] at h
    obtain ⟨hret, -, rfl⟩ := h
    obtain ⟨-, ⟨rfl, -⟩ | ⟨o, -, hfetch⟩⟩ := dfsGetLocalCopy_cases hg
    · exact .same rfl
    · refine ⟨?_, ?_⟩
      · have hf := (fetchObject_frame cx env st
          (Frame.refl (downloadNames (localName cx path)) fs) path o.userMeta (openFlags smode)).1
        rw [hfetch] at hf
        intro n hn
        by_cases hd : n ∈ downloadNames (localName cx path)
        · exact .inr (.inl ⟨.rdonly, hd⟩)
        · refine .inl ?_
          change (fs.files n).isSome
          rw [← hf.files n hd]
          exact hn
      · intro hs hone hne
        obtain ⟨k, rfl⟩ : ∃ k, fd = some k := by
          cases fd with
          | none => exact (hne hret.symm).elim
          | some k => exact ⟨k, rfl⟩
        have hleft := fetchObject_names hs hfetch
        have hsame : collapse (localName cx path) = collapse (slashName cx path) :=
          hone .dfsGetLocalCopy .dfsUnlink
        rw [← hsame]
        exact hleft

theorem openMode_leaves {smode : StateMode}
    (h : openMode cx env st fs path pe smode = .ok (ret, pe', fs')) :
    LeavesNames cx env path ret fs fs' := by
  have hwr : openWronly cx env st fs path pe (openFlags smode) = .ok (ret, pe', fs') →
      LeavesNames cx env path ret fs fs' := by
    intro h
    obtain ⟨⟨r, qe, gs⟩, hg, h⟩ := Except.bind_ok.mp h
    simp only [Except.ok.injEq, Prod.mk.injEq] at h
    obtain ⟨rfl, -, rfl⟩ := h
    exact openExisting_leaves hg
  unfold openMode at h
  cases smode with
  | rdonly => exact openExisting_leaves h
  | wronly => exact hwr h
  | rdwr => exact hwr h
  | creat =>
    simp only [Except.ok.injEq] at h
    unfold openCreat at h
    split at h
    · rename_i fd gs _ ho
      simp only [Prod.mk.injEq] at h
      obtain ⟨-, -, rfl⟩ := h
      have hleft := names_openFile ho
      refine ⟨?_, fun _ hone _ => ?_⟩
      · apply hleft.trans
        apply Set.insert_subset _ Set.subset_union_left
        exact .inr (.inl ⟨.creat, List.mem_singleton_self _⟩)
      · have hsame : collapse (buildCacheTree cx path) = collapse (slashName cx path) :=
          hone .buildCacheTree .dfsUnlink
        rw [← hsame]
        exact hleft
    · simp only [Prod.mk.injEq] at h
      obtain ⟨-, -, rfl⟩ := h
      exact .same rfl

end Modes

section Uploads

variable {cx : Ctx} {env : Env} {st : Store} {fs : LocalFs} {path : Path}

/-- The scratch file of an upload is gone when it ends, unless its removal fails. -/
theorem uploadFiles_names (fd : Nat) (stat : Stat) :
    (uploadFiles cx env fs path fd stat).names ⊆
        insert (collapse (scratchName (slashName cx path))) fs.names ∧
      (env.sys .unlinkScratch = none → (uploadFiles cx env fs path fd stat).names ⊆ fs.names) := by
  have hzip : ∀ size dict, (zipUpload cx env fs fd (slashName cx path)
      (scratchName (slashName cx path)) size dict).2.names ⊆
        insert (collapse (scratchName (slashName cx path))) fs.names := by
    intro size dict
    unfold zipUpload
    split
    · split_ifs with h1
      · exact Set.subset_insert _ _
      · dsimp only
        have htwice : ∀ z, ((fs.overwrite (scratchName (slashName cx path)) []).overwrite
            (scratchName (slashName cx path)) z).names ⊆
              insert (collapse (scratchName (slashName cx path))) fs.names := by
          intro z
          apply (names_overwrite _ _ _).trans
          exact Set.insert_subset (Set.mem_insert _ _) (names_overwrite _ _ _)
        split_ifs <;> exact htwice _
    · exact Set.subset_insert _ _
  unfold uploadFiles
  split_ifs with h
  · refine ⟨(names_tryUnlink_subset _ _ _ _).trans (hzip _ _), fun hu => ?_⟩
    rw [names_tryUnlink, if_pos hu]
    intro n hn
    exact (hzip _ _ hn.1).resolve_left hn.2
  · exact ⟨Set.subset_insert _ _, fun _ => subset_rfl⟩

theorem names_setOffset (fs : LocalFs) (fd k : Nat) : (fs.setOffset fd k).names = fs.names := by
  unfold LocalFs.setOffset
  cases fs.fds.lookup fd <;> rfl

theorem releaseEntry_names {st' : Store} {fs' : LocalFs} {flags : OpenFlags} {pe pe' : Entry}
    {ret : Int} (h : releaseEntry cx env st fs path flags pe = .ok (ret, pe', fs', st')) :
    fs'.names ⊆ insert (collapse (scratchName (slashName cx path))) fs.names ∧
      (env.sys .unlinkScratch = none → fs'.names ⊆ fs.names) := by
  have hsame : fs.names ⊆ insert (collapse (scratchName (slashName cx path))) fs.names ∧
      (env.sys .unlinkScratch = none → fs.names ⊆ fs.names) :=
    ⟨Set.subset_insert _ _, fun _ => subset_rfl⟩
  unfold releaseEntry at h
  cases hfd : pe.fd with
  | none =>
    simp only [hfd, Except.ok.injEq, Prod.mk.injEq] at h
    obtain ⟨-, -, rfl, -⟩ := h
    exact hsame
  | some fd =>
    rw [hfd] at h
    dsimp only at h
    split at h
    · rename_i stat _ _
      obtain ⟨qe, -, h⟩ := Except.bind_ok.mp h
      split_ifs at h
      · simp only [Except.ok.injEq, Prod.mk.injEq] at h
        obtain ⟨-, -, rfl, -⟩ := h
        exact hsame
      · simp only [Except.ok.injEq, Prod.mk.injEq] at h
        obtain ⟨-, -, rfl, -⟩ := h
        exact hsame
      · simp only [Except.ok.injEq, Prod.mk.injEq] at h
        obtain ⟨-, -, rfl, -⟩ := h
        rw [releaseUpload_reset, names_setOffset]
        exact uploadFiles_names fd stat
    · simp only [Except.ok.injEq, Prod.mk.injEq] at h
      obtain ⟨-, -, rfl, -⟩ := h
      rw [names_setOffset]
      exact hsame

end Uploads

end DropletFs
