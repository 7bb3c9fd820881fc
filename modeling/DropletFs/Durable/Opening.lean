import DropletFs.Table.Handles

/-! What an open does to the cache files, its own and those of the other entries. -/

namespace DropletFs

open CText LocalFs

/-- The cache names a mode works on. -/
def openNames (cx : Ctx) (path : Path) : StateMode → List Path
  | .creat => [collapse (buildCacheTree cx path)]
  | _ => downloadNames (localName cx path)

/-- The descriptor is open on an inode one of the names stands for. -/
def LocalFs.OpenOn (fs : LocalFs) (names : List Path) (fd : Nat) : Prop :=
  ∃ i, fs.inodeOf fd = some i ∧ ∃ n ∈ names, fs.files n = some i

/-- The ways for a mode to run: the entry's descriptor stays, a download fails, a download
succeeds, or the cache file is made anew. -/
inductive OpenRan (cx : Ctx) (st : Store) (fs : LocalFs) (path : Path) (pe : Entry)
    (smode : StateMode) : Int → Entry → LocalFs → Prop
  | kept {ret pe'} (hfd : pe'.fd = pe.fd) (hflag : pe'.flag = .clean → pe.flag = .clean)
      (hret : ret = 0 → smode ≠ .creat ∧ pe.fd.isSome) :
      OpenRan cx st fs path pe smode ret pe' fs
  | lost {pe' fs'} (hm : smode ≠ .creat) (hn : pe.fd = none) (hfd : pe'.fd = none)
      (hflag : pe'.flag = .clean → pe.flag = .clean)
      (hf : Frame (openNames cx path smode) fs fs') :
      OpenRan cx st fs path pe smode (-1) pe' fs'
  | fetched {pe' fs' k o plain} (hm : smode ≠ .creat) (hn : pe.fd = none)
      (hfd : pe'.fd = some k) (hf : Frame (openNames cx path smode) fs fs')
      (hon : fs'.OpenOn (openNames cx path smode) k) (ho : st.lookup path = some o)
      (hu : unpack cx (localName cx path) o.userMeta o.data = some plain)
      (hc : fs'.content k = some plain) : OpenRan cx st fs path pe smode 0 pe' fs'
  | made {pe' fs' k} (hm : smode = .creat) (hfd : pe'.fd = some k) (hflag : pe'.flag = .dirty)
      (hf : Frame (openNames cx path smode) fs fs')
      (hon : fs'.OpenOn (openNames cx path smode) k) (hc : fs'.content k = some []) :
      OpenRan cx st fs path pe smode 0 pe' fs'

section

variable {cx : Ctx} {env : Env} {st : Store} {fs fs' : LocalFs} {path : Path} {pe pe' : Entry}
  {smode : StateMode} {ret : Int}

theorem openExisting_ran (hw : fs.Wf) (hm : smode ≠ .creat)
    (hsys : pe.fd = none → env.sys .renameScratch = none ∧ env.sys .fcloseScratch = none)
    (h : openExisting cx env st fs path pe (openFlags smode) = .ok (ret, pe', fs')) :
    pe'.flag = pe.flag ∧ OpenRan cx st fs path pe smode ret pe' fs' := by
  unfold openExisting at h
  cases hfd : pe.fd with
  | some fd =>
    rw [hfd] at h
    simp only [Except.ok.injEq, Prod.mk.injEq] at h
    obtain ⟨_, rfl, rfl⟩ := h
    exact ⟨rfl, .kept rfl id fun _ => ⟨hm, by simp [hfd]⟩⟩
  | none =>
    obtain ⟨hren, hflush⟩ := hsys hfd
    have hnames : openNames cx path smode = downloadNames (localName cx path) := by
      cases smode <;> first | rfl | exact (hm rfl).elim
    rw [hfd] at h
    obtain ⟨⟨fd, qe, fs₁⟩, hg, h⟩ := Except.bind_ok.mp h
    simp only [Except.ok.injEq, Prod.mk.injEq] at h
    obtain ⟨rfl, rfl, rfl⟩ := h
    obtain ⟨⟨⟨md, d, l, rfl⟩, _⟩, hcase⟩ := dfsGetLocalCopy_cases hg
    refine ⟨rfl, ?_⟩
    rcases hcase with ⟨rfl, hn⟩ | ⟨o, _, hfetch⟩
    · have hnone : fd = none := by
        rcases hn with hn | hn
        · exact hn
        · rw [hn, hfd]
      subst hnone
      exact .kept hfd.symm id fun h0 => by cases h0
    · have hf := (fetchObject_frame cx env st
        (Frame.refl (downloadNames (localName cx path)) fs) path o.userMeta (openFlags smode)).1
      rw [hfetch, ← hnames] at hf
      cases fd with
      | none => exact .lost hm hfd rfl id hf
      | some k =>
        have ht : (openFlags smode).trunc = false := by
          cases smode <;> first | rfl | exact (hm rfl).elim
        have hl := fetchObject_lookup (h := by rw [hfetch])
        have hc := fetchObject_content (k := k) hw hren hflush ht (by rw [hfetch])
        rw [hfetch] at hl hc
        obtain ⟨i, hfile, hlook⟩ := hl
        obtain ⟨o, plain, ho, _, hu, hcont⟩ := hc
        refine .fetched hm hfd rfl hf ⟨i, ?_, _, ?_, hfile⟩ ho hu hcont
        · simp [inodeOf, hlook]
        · rw [hnames]
          exact locname_mem _

variable (pe) in
theorem openMode_ran (hw : fs.Wf)
    (hsys : smode ≠ .creat → pe.fd = none →
      env.sys .renameScratch = none ∧ env.sys .fcloseScratch = none)
    (h : openMode cx env st fs path pe smode = .ok (ret, pe', fs')) :
    OpenRan cx st fs path pe smode ret pe' fs' := by
  have hwr : smode ≠ .creat →
      openWronly cx env st fs path pe (openFlags smode) = .ok (ret, pe', fs') →
      OpenRan cx st fs path pe smode ret pe' fs' := by
    intro hm h
    obtain ⟨⟨r, qe, fs₁⟩, hg, h⟩ := Except.bind_ok.mp h
    simp only [Except.ok.injEq, Prod.mk.injEq] at h
    obtain ⟨rfl, rfl, rfl⟩ := h
    obtain ⟨hfl, hran⟩ := openExisting_ran hw hm (hsys hm) hg
    split_ifs with hr
    · cases hran with
      | kept hfd _ hret => exact .kept hfd (fun e => by cases e) hret
      | lost => cases hr
      | fetched _ hn hfd hf hon ho hu hc => exact .fetched hm hn hfd hf hon ho hu hc
      | made hm' => exact (hm hm').elim
    · exact hran
  unfold openMode at h
  cases smode with
  | rdonly => exact (openExisting_ran hw (by decide) (hsys (by decide)) h).2
  | wronly => exact hwr (by decide) h
  | rdwr => exact hwr (by decide) h
  | creat =>
    simp only [Except.ok.injEq] at h
    unfold openCreat at h
    split at h
    · rename_i fd gs _ ho
      simp only [Prod.mk.injEq] at h
      obtain ⟨rfl, rfl, rfl⟩ := h
      obtain ⟨i, hop⟩ := openFile_ok ho
      have hf := ((Frame.refl [collapse (buildCacheTree cx path)] fs).openFile (by simp) ho).1
      refine .made rfl rfl rfl hf ⟨i, ?_, _, List.mem_singleton_self _, hop.named⟩ ?_
      · simp [inodeOf, hop.lookup]
      · simp [LocalFs.content, inodeOf, hop.lookup, hop.empty (.inl rfl)]
    · simp only [Prod.mk.injEq] at h
      obtain ⟨rfl, rfl, rfl⟩ := h
      exact .kept rfl id fun h0 => by cases h0

end

end DropletFs
