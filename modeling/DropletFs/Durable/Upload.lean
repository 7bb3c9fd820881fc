import DropletFs.Release.Upload

/-! When the upload of a release goes through, and what the object it leaves stands for. -/

namespace DropletFs

open CText LocalFs

/-- The calls an upload of the path makes go through. -/
structure Env.Uploads (env : Env) (path : Path) : Prop where
  dict : env.lib .releaseDict = true
  source : env.sys .fopenSource = none
  openwrite : env.remote (.openwrite path) = .success
  read : ∀ k, env.sys (.readBlock k) = none
  write : ∀ k, env.remote (.write path k) = .success
  close : env.remote (.close path) = .success

/-- The compressor finds the file behind the descriptor under the cache name, and works in
another. -/
structure CompressesOwn (cx : Ctx) (fs : LocalFs) (path : Path) (fd : Nat) : Prop where
  source : fs.files (collapse (slashName cx path)) = fs.inodeOf fd
  scratch : fs.files (collapse (scratchName (slashName cx path))) ≠ fs.inodeOf fd

theorem putObj_decode {cx : Ctx} {up : Upload} (hc : up.dict .cipher = none) :
    decode cx (putObj cx (startsWithNoCase cx.conf.encryptionMethod textAes) up) =
      match up.dict .compression with
      | none => some up.payload
      | some compressed =>
        if startsWith compressed textNone then some up.payload
        else if startsWith compressed textZlib = false then none
        else cx.codec.unzip up.payload := by
  unfold decode
  rw [putObj_compression]
  have hdata : (if Encrypted (putObj cx (startsWithNoCase cx.conf.encryptionMethod textAes)
      up).userMeta then cx.codec.decrypt (putObj cx
        (startsWithNoCase cx.conf.encryptionMethod textAes) up).data
      else (putObj cx (startsWithNoCase cx.conf.encryptionMethod textAes) up).data) =
      up.payload := by
    cases he : startsWithNoCase cx.conf.encryptionMethod textAes with
    | false =>
      have hn : Encrypted up.dict = false := by simp [Encrypted, hc]
      simp [putObj, hn]
    | true =>
      have hy : startsWithNoCase textYes textYes = true := by decide
      have ha : startsWithNoCase textAes256Cfb textAes256Cfb = true := by decide
      simp [putObj, Encrypted, Dict.set, hy, ha, cx.codec.decrypt_encrypt]
  cases up.dict .compression with
  | none => exact congrArg some hdata
  | some compressed =>
    dsimp only
    rw [hdata]

theorem fillMetadataFromStat_cipher (env : Env) (dict : Dict) (stat : Stat) :
    fillMetadataFromStat env dict stat .cipher = dict .cipher :=
  fillMetadataFromStat_other env dict stat rfl

/-- A successful upload leaves an object that stands for the file behind the descriptor. -/
theorem releaseUpload_decodes {cx : Ctx} {env : Env} {st st' : Store} {fs fs' : LocalFs}
    (hw : fs.Wf) {path : Path} {fd : Nat} {f : OpenFile} (hf : fs.fds.lookup fd = some f)
    (h0 : f.offset = 0) {stat : Stat}
    (hsrc : startsWithNoCase cx.conf.compressionMethod textZlib = true →
      CompressesOwn cx fs path fd)
    (hflush : startsWithNoCase cx.conf.compressionMethod textZlib = true →
      env.sys .fflushZipped = none)
    (h : releaseUpload cx env st fs path fd stat = (0, fs', st')) :
    ∃ o, st' = st.insert path o ∧ o.ftype = .reg ∧
      decode cx o = some (fs.inodes f.inode).data := by
  obtain ⟨up, rfl, hp, hd⟩ := releaseUpload_sent hw hf h0 h
  have hcipher : up.dict .cipher = none := by
    rw [hd, tagged_of_ne _ _ (by decide), fillMetadataFromStat_cipher]
    rfl
  refine ⟨_, rfl, rfl, ?_⟩
  rw [putObj_decode hcipher, hp, hd,
    tagged_compression (by rw [fillMetadataFromStat_compression]; rfl)]
  unfold sent
  by_cases hz : startsWithNoCase cx.conf.compressionMethod textZlib = true
  · obtain ⟨hs1, hs2⟩ := hsrc hz
    have hino : fs.inodeOf fd = some f.inode := by simp [inodeOf, hf]
    have hrest : ∀ z, restBytes fs (slashName cx path) fd z (fs.inodes f.inode).data =
        (fs.inodes f.inode).data := fun z => by rw [restBytes, if_neg hs2]
    rw [if_pos hz]
    unfold sentZip
    simp only [hrest, flushedZip_done (hflush hz)]
    by_cases hop : env.sys .fopenZipped = none
    · rw [if_pos hop]
      generalize hzb : zipped cx env fs (slashName cx path) = zb
      cases zb with
      | none => rfl
      | some z =>
        by_cases hm : Marked env
        · have hne : collapse (scratchName (slashName cx path)) ≠
              collapse (slashName cx path) := fun e => hs2 (e ▸ hs1)
          have hread : fs.readName (slashName cx path) = some (fs.inodes f.inode).data :=
            readName_of_files (hs1.trans hino)
          unfold zipped at hzb
          split_ifs at hzb
          rw [zipSource, if_neg hne, hread, Option.bind_some] at hzb
          have hnone : startsWith textZlib textNone = false := by decide
          have hzlib : startsWith textZlib textZlib = true := by decide
          simp [hm, hnone, hzlib, cx.codec.unzip_zip _ _ _ hzb]
        · simp [hm]
    · simp [hop]
  · rw [if_neg hz]
    rfl

/-- Only a successful transfer changes the store. -/
theorem sendUpload_failed {cx : Ctx} {env : Env} {st : Store} {path : Path} {up : Upload}
    (h : (sendUpload cx env st path up).1 ≠ 0) : (sendUpload cx env st path up).2.1 = st := by
  unfold sendUpload at h ⊢
  dsimp only at h ⊢
  by_cases h1 : env.remote (.openwrite path) ≠ .success ∨ st.ftype? path = some .dir
  · rw [if_pos h1]
  rw [if_neg h1] at h ⊢
  generalize readWriteAllVfile env path (up.payload.length + 1) 0 up.payload = r at h ⊢
  obtain ⟨ok, sent⟩ := r
  cases ok with
  | false => rfl
  | true =>
    by_cases h2 : env.remote (.close path) ≠ .success
    · simp [h2]
    · simp [h2] at h

theorem releaseUpload_failed {cx : Ctx} {env : Env} {st : Store} {fs : LocalFs} {path : Path}
    {fd : Nat} {stat : Stat} (h : (releaseUpload cx env st fs path fd stat).1 ≠ 0) :
    (releaseUpload cx env st fs path fd stat).2.2 = st := by
  unfold releaseUpload at h ⊢
  dsimp only at h ⊢
  split_ifs at h ⊢
  · rfl
  · split
    · rfl
    · rename_i up fs' hz
      simp only [hz] at h
      exact sendUpload_failed h
  · exact sendUpload_failed h

theorem readWriteAllVfile_completes {env : Env} {path : Path} (hu : env.Uploads path)
    (fuel k : Nat) (data : Bytes) : (readWriteAllVfile env path fuel k data).1 = true := by
  induction fuel generalizing k data with
  | zero => rfl
  | succ fuel ih =>
    rw [readWriteAllVfile]
    by_cases hd : data = []
    · simp [hu.read k, hd]
    · simp only [hu.read k, hu.write k, hd, ne_eq, not_true_eq_false, if_false]
      exact ih (k + 1) (data.drop writeBlockSize)

theorem sendUpload_completes {cx : Ctx} {env : Env} {st : Store} {path : Path}
    (hu : env.Uploads path) (hd : st.ftype? path ≠ some .dir) (up : Upload) :
    (sendUpload cx env st path up).1 = 0 := by
  unfold sendUpload
  have hgo : ¬(env.remote (.openwrite path) ≠ .success ∨ st.ftype? path = some .dir) := by
    simp [hu.openwrite, hd]
  dsimp only
  rw [if_neg hgo]
  have hall := readWriteAllVfile_completes hu (up.payload.length + 1) 0 up.payload
  split
  · rename_i hs
    rw [hs] at hall
    cases hall
  · simp [hu.close]

/-- With its calls going through, the upload of a file of the cache returns 0. -/
theorem releaseUpload_completes {cx : Ctx} {env : Env} {st : Store} {fs : LocalFs} {path : Path}
    {fd : Nat} {f : OpenFile} (hf : fs.fds.lookup fd = some f) {stat : Stat}
    (hu : env.Uploads path) (hd : st.ftype? path ≠ some .dir)
    (hsrc : startsWithNoCase cx.conf.compressionMethod textZlib = true →
      CompressesOwn cx fs path fd) :
    (releaseUpload cx env st fs path fd stat).1 = 0 := by
  have hino : fs.inodeOf fd = some f.inode := by simp [inodeOf, hf]
  unfold releaseUpload
  simp only [hu.dict, Bool.not_true, Bool.false_eq_true, if_false]
  split_ifs with hz
  · obtain ⟨hs, _⟩ := hsrc hz
    have hsome : (zipUpload cx env fs fd (slashName cx path) (scratchName (slashName cx path))
        (toU64 stat.size) (fillMetadataFromStat env Dict.empty stat)).1.isSome := by
      unfold zipUpload
      rw [hu.source, hs, hino]
      dsimp only
      split_ifs <;> rfl
    split
    · rename_i hn
      change zipUpload cx env fs fd (slashName cx path) (scratchName (slashName cx path)) _ _ = _
        at hn
      rw [hn] at hsome
      cases hsome
    · exact sendUpload_completes hu hd _
  · exact sendUpload_completes hu hd _

end DropletFs
