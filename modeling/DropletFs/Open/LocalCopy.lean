import DropletFs.Release.Scratch
import DropletFs.Table.Refcount

/-! What is behind the descriptor of `dfs_get_local_copy`, whichever of its calls fail. -/

namespace DropletFs

open CText LocalFs

instance (metadata : Dict) : Decidable (Zipped metadata) :=
  decidable_of_iff ((metadata .compression).any (startsWith · textZlib) = true)
    (by cases h : metadata .compression <;> simp [Zipped, h])

/-- What a download that returns a descriptor leaves in the cache file, for an object of `data`
that unpacks to `plain`: the data as they came when the scratch file could not take the place of
the cache file. -/
def landed (env : Env) (metadata : Dict) (data plain : Bytes) : Bytes :=
  if Zipped metadata then
    if env.sys .renameScratch = none then flushed env plain else data
  else plain

/-- A descriptor comes with the decoded object, and there is no third outcome. -/
def FullOrFailed (cx : Ctx) (st : Store) (path : Path) :
    Except Fault (Option Nat × Entry × LocalFs) → Prop
  | .ok (some k, _, fs) => ∃ o plain, st.lookup path = some o ∧ decode cx o = some plain ∧
      fs.content k = some plain
  | .ok (none, _, _) => True
  | .error _ => False

/-- When `dfs_get_local_copy` does one of the two. -/
structure CopiesFully (cx : Ctx) (env : Env) (st : Store) (path : Path) (locked : Bool) : Prop where
  /-- The path does not get lost between `dpl_namei` and `dpl_head_all`, whose failure goes
  unnoticed. -/
  headers : env.remote (.namei path) = .success → (st.ftype? path).isSome →
    env.lib .metadataDict = true → env.remote (.headAll path) = .success ∧ (st.lookup path).isSome
  /-- The lock of the metadata has not been left taken. -/
  unlocked : env.remote (.namei path) = .success → (st.lookup path).isSome →
    env.lib .metadataDict = true → env.lib .metadataFromHeaders = true → locked = false
  /-- The object needs no decryption; if it is compressed, the scratch file takes the place of
  the cache file, and its last buffer has been written. -/
  decoded : Downloads cx env st path → ∀ o plain, st.lookup path = some o →
    unpack cx (localName cx path) o.userMeta o.data = some plain →
    decode cx o = some (landed env o.userMeta o.data plain)

section Calls

variable {cx : Ctx} {env : Env} {st : Store} {fs : LocalFs} {remote locname : Path}

theorem adoptScratch_calls {uzlocal : Path} {fd : Option Nat}
    (hret : (adoptScratch env fs uzlocal locname fd).1 ≠ -1) :
    env.lib .markUncompressed = true ∧
      (env.sys .renameScratch = none → env.sys .reopenDownload = none) := by
  unfold adoptScratch at hret
  cases hm : env.lib .markUncompressed with
  | false => simp [hm] at hret
  | true =>
    refine ⟨rfl, fun hr => ?_⟩
    cases ho : env.sys .reopenDownload with
    | none => rfl
    | some e => simp [hm, hr, ho] at hret

theorem handleCompression_calls {metadata : Dict} {fd : Option Nat}
    (hret : (handleCompression cx env fs locname fd metadata).1 ≠ -1) (hz : Zipped metadata) :
    env.Unpacks := by
  have hcopy := hz
  obtain ⟨compressed, hc, -⟩ := hcopy
  obtain ⟨hnone, hzlib⟩ := hz.not_none hc
  unfold handleCompression at hret
  simp only [hc, hnone, hzlib, Bool.false_eq_true, Bool.true_eq_false, if_false] at hret
  cases h1 : env.sys .fopenCompressed with
  | some e => simp [h1] at hret
  | none =>
    cases hf : fs.files (collapse locname) with
    | none => simp [h1, hf] at hret
    | some src =>
      simp only [h1, hf] at hret
      by_cases h2 : env.sys .fopenScratch = none
      · rw [if_neg (by simp [h2])] at hret
        unfold unzipScratch at hret
        by_cases h3 : env.sys .unzip = none
        · rw [if_neg (by simp [h3])] at hret
          split at hret
          · simp at hret
          · obtain ⟨hm, hr⟩ := adoptScratch_calls hret
            exact ⟨h1, h2, h3, hm, hr⟩
        · simp [h3] at hret
      · simp [h2] at hret

theorem reopenLocal_calls {fd : Option Nat} {flags : OpenFlags} {k : Nat}
    (h : (reopenLocal env fs locname fd flags).1 = some k) :
    env.sys .closeDownload = none ∧ env.sys .openLocal = none := by
  unfold reopenLocal at h
  by_cases h1 : env.sys .closeDownload = none
  · refine ⟨h1, ?_⟩
    cases h2 : env.sys .openLocal with
    | none => rfl
    | some e => simp [h1, h2] at h
  · simp [h1] at h

theorem receiveObject_calls {encryption : Bool} {fd : Nat} {flags : OpenFlags} {k : Nat}
    (h : (receiveObject cx env st fs remote locname encryption fd flags).1 = some k) :
    env.remote (.openread remote) = .success ∧ env.sys .writeDownload = none := by
  unfold receiveObject at h
  cases hr : env.remote (.openread remote) with
  | success =>
    refine ⟨rfl, ?_⟩
    cases hw : env.sys .writeDownload with
    | none => rfl
    | some e =>
      rw [hw] at h
      split at h <;> simp at h
  | _ => simp [dplOpenread, hr] at h

/-- A download that returns a descriptor has had its calls go through. -/
theorem fetchObject_calls {metadata : Dict} {flags : OpenFlags} {k : Nat}
    (h : (fetchObject cx env st fs remote locname metadata flags).1 = some k)
    (hm : ∀ o, st.lookup remote = some o → o.userMeta = metadata) :
    env.Fetches remote metadata := by
  obtain ⟨fd, i, gs, -, he⟩ := fetchObject_some h
  have h' := h
  rw [he] at h'
  obtain ⟨hread, hwrite⟩ := receiveObject_calls h'
  obtain ⟨data, md, j, hopen, -, hret, he'⟩ := receiveObject_some h'
  obtain ⟨o, ho, -, hmd, -⟩ := dplOpenread_ok hopen
  rw [he'] at h'
  obtain ⟨hclose, hlocal⟩ := reopenLocal_calls h'
  have hopened : env.sys .openDownload = none ∧
      ((metadata .mode).isSome → env.sys .fchmodDownload = none) := by
    unfold fetchObject at h
    cases h1 : env.sys .openDownload with
    | some e => simp [h1] at h
    | none =>
      refine ⟨rfl, fun hs => ?_⟩
      obtain ⟨text, ht⟩ := Option.isSome_iff_exists.mp hs
      cases h2 : env.sys .fchmodDownload with
      | none => rfl
      | some e =>
        simp only [h1, ht, h2] at h
        split at h <;> simp at h
  refine ⟨hopened.1, hopened.2, hread, hwrite, fun hz => ?_, hclose, hlocal⟩
  exact handleCompression_calls hret (by rw [hmd, hm o ho]; exact hz)

end Calls

section Result

variable {cx : Ctx} {env : Env} {st : Store} {fs : LocalFs} {path locname : Path}

theorem unpackFile_data {gs : LocalFs} {metadata : Dict} {ino ino' : Inode}
    (h : unpackFile cx env gs locname metadata ino = some ino') :
    ∃ plain, unpack cx locname metadata ino.data = some plain ∧
      ino'.data = landed env metadata ino.data plain := by
  unfold unpackFile at h
  unfold unpack landed
  cases hc : metadata .compression with
  | none =>
    have hz : ¬Zipped metadata := by simp [Zipped, hc]
    simp only [hc, Option.some.injEq] at h
    exact ⟨ino.data, rfl, by rw [if_neg hz, h]⟩
  | some compressed =>
    simp only [hc] at h
    dsimp only
    by_cases h1 : startsWith compressed textNone = true
    · have hz : ¬Zipped metadata := fun hz => by simp [(hz.not_none hc).1] at h1
      rw [if_pos h1, Option.some.injEq] at h
      rw [if_pos h1]
      exact ⟨ino.data, rfl, by rw [if_neg hz, h]⟩
    rw [if_neg h1] at h ⊢
    by_cases h2 : startsWith compressed textZlib = false
    · simp [h2] at h
    rw [if_neg h2] at h ⊢
    have hz : Zipped metadata := ⟨compressed, hc, by simpa using h2⟩
    by_cases h3 : collapse (scratchName locname) = collapse locname
    · simp [h3] at h
    rw [if_neg h3] at h ⊢
    obtain ⟨plain, hp, hino⟩ := Option.map_eq_some_iff.mp h
    refine ⟨plain, hp, ?_⟩
    rw [if_pos hz, ← hino]
    split_ifs <;> rfl

/-- What a download returns, exactly. -/
theorem fetchObject_landed (hw : fs.Wf) {o : Obj} (ho : st.lookup path = some o) {flags : OpenFlags}
    (ht : flags.trunc = false) {k : Nat}
    (h : (fetchObject cx env st fs path locname o.userMeta flags).1 = some k) :
    env.Fetches path o.userMeta ∧ o.ftype ≠ .dir ∧
      ∃ plain, unpack cx locname o.userMeta o.data = some plain ∧
        (fetchObject cx env st fs path locname o.userMeta flags).2.content k =
          some (landed env o.userMeta o.data plain) := by
  have hcalls := fetchObject_calls h (fun o' ho' => by
    rw [ho, Option.some.injEq] at ho'
    rw [ho'])
  obtain ⟨o', gs, ino, ino', l, ho', hdir, hdata, -, -, hun, hl, hino⟩ := fetchObject_file hw ht h
  obtain rfl : o = o' := Option.some.inj (ho.symm.trans ho')
  obtain ⟨plain, hp, hland⟩ := unpackFile_data hun
  rw [hdata] at hp hland
  exact ⟨hcalls, hdir, plain, hp, by simp [content, hl, hino, hland]⟩

/-- Whether the headers come. -/
theorem downloadHeaders_reached (hn : env.remote (.namei path) = .success)
    (hf : (st.ftype? path).isSome) (h : ¬(env.remote (.headAll path) = .success ∧
      (st.lookup path).isSome)) : downloadHeaders env st path = (1, none) := by
  obtain ⟨t, ht⟩ := Option.isSome_iff_exists.mp hf
  have hnamei : (dplNamei env st path).1 = .success := by simp [dplNamei, hn, ht]
  unfold downloadHeaders
  rw [hnamei]
  dsimp only
  unfold dplHeadAll
  cases hh : env.remote (.headAll path) with
  | success =>
    cases hl : st.lookup path with
    | none => rfl
    | some o => simp [hh, hl] at h
  | _ => rfl

theorem downloadHeaders_failed (h : ¬(env.remote (.namei path) = .success ∧
    (st.ftype? path).isSome)) : (downloadHeaders env st path).1 = -1 := by
  unfold downloadHeaders dplNamei
  cases hn : env.remote (.namei path) with
  | success =>
    cases hf : st.ftype? path with
    | none => rfl
    | some t => simp [hn, hf] at h
  | _ => rfl

variable (cx env st fs path) in
/-- The part of `dfs_get_local_copy` after the headers, for an entry without a cache file. -/
theorem localCopy_remote {pe : Entry} (hl : pe.ondisk ≠ .loc) (hm : pe.mdLocked = false)
    (headers : Headers) (flags : OpenFlags) :
    ∃ pe', localCopy cx env st fs pe path flags headers =
      if env.lib .usermdDict = true ∧ env.lib .usermdCopy = true then
        .ok ((fetchObject cx env st fs path (localName cx path) headers.userMeta flags).1, pe',
          (fetchObject cx env st fs path (localName cx path) headers.userMeta flags).2)
      else .ok (none, pe', fs) := by
  refine ⟨pentryMdUnlock (pentrySetUsermd env { pe with mdLocked := true } headers.userMeta).2, ?_⟩
  unfold localCopy
  simp only [pentryMdLock, hm, Bool.false_eq_true, if_false, bind, Except.bind]
  cases hd : env.lib .usermdDict with
  | false => simp [pentrySetUsermd, hd]
  | true =>
    cases hc : env.lib .usermdCopy with
    | false => simp [pentrySetUsermd, hd, hc]
    | true => simp [pentrySetUsermd, hd, hc, compareDigests, pentryMdUnlock, hl]

/-- The call of `dpl_head_all` is reached and its reply is used. -/
def HeadersUsed (env : Env) (st : Store) (path : Path) : Prop :=
  env.remote (.namei path) = .success ∧ (st.ftype? path).isSome ∧ env.lib .metadataDict = true

theorem ftype?_of_lookup {o : Obj} (ho : st.lookup path = some o) : (st.ftype? path).isSome := by
  unfold Store.ftype?
  split_ifs
  · rfl
  · simp [ho]

theorem dfsGetLocalCopy_unused {pe : Entry} {flags : OpenFlags} (h : ¬HeadersUsed env st path) :
    dfsGetLocalCopy cx env st fs pe path flags = .ok (none, pe, fs) := by
  unfold dfsGetLocalCopy
  dsimp only
  by_cases hreach : env.remote (.namei path) = .success ∧ (st.ftype? path).isSome
  · have hdict : env.lib .metadataDict = false := by
      cases hd : env.lib .metadataDict with
      | false => rfl
      | true => exact (h ⟨hreach.1, hreach.2, hd⟩).elim
    rw [if_pos (.inr hdict)]
  · rw [if_pos (.inl (downloadHeaders_failed hreach))]

theorem dfsGetLocalCopy_lost {pe : Entry} {flags : OpenFlags} (h : HeadersUsed env st path)
    (hh : ¬(env.remote (.headAll path) = .success ∧ (st.lookup path).isSome)) :
    dfsGetLocalCopy cx env st fs pe path flags = .error .nullDeref := by
  simp [dfsGetLocalCopy, downloadHeaders_reached h.1 h.2.1 hh, h.2.2]

theorem dfsGetLocalCopy_used {pe : Entry} {flags : OpenFlags} (h : HeadersUsed env st path)
    (hh : env.remote (.headAll path) = .success) {o : Obj} (ho : st.lookup path = some o) :
    dfsGetLocalCopy cx env st fs pe path flags =
      if env.lib .metadataFromHeaders = false then .ok (none, pe, fs)
      else localCopy cx env st fs pe path flags o.headers := by
  simp [dfsGetLocalCopy, downloadHeaders_ok h.1 hh ho, h.2.2]

/-- The download itself. -/
theorem fetched_full_iff (hw : fs.Wf) {o : Obj} (ho : st.lookup path = some o) {flags : OpenFlags}
    (ht : flags.trunc = false)
    (hcalls : HeadersUsed env st path ∧
      (env.remote (.headAll path) = .success ∧ (st.lookup path).isSome) ∧
      env.lib .metadataFromHeaders = true ∧
      env.lib .usermdDict = true ∧ env.lib .usermdCopy = true) (pe : Entry) :
    FullOrFailed cx st path
      (.ok ((fetchObject cx env st fs path (localName cx path) o.headers.userMeta flags).1, pe,
        (fetchObject cx env st fs path (localName cx path) o.headers.userMeta flags).2)) ↔
      CopiesFully cx env st path false := by
  obtain ⟨hused, hhead, hmd, hset⟩ := hcalls
  change FullOrFailed cx st path
    (.ok ((fetchObject cx env st fs path (localName cx path) o.userMeta flags).1, pe,
      (fetchObject cx env st fs path (localName cx path) o.userMeta flags).2)) ↔ _
  cases hk : (fetchObject cx env st fs path (localName cx path) o.userMeta flags).1 with
  | none =>
    refine iff_of_true trivial ⟨fun _ _ _ => hhead, fun _ _ _ _ => rfl, fun hd => ?_⟩
    obtain ⟨o', plain, ho', hdir, hf, hu⟩ := hd.object
    obtain rfl : o = o' := Option.some.inj (ho.symm.trans ho')
    have hsome := fetchObject_completes hf hw ho hdir hu flags
    rw [hk] at hsome
    cases hsome
  | some k =>
    obtain ⟨hf, hdir, plain, hu, hc⟩ := fetchObject_landed hw ho ht hk
    have hdown : Downloads cx env st path :=
      ⟨hused.1, hhead.1, hused.2.2, hmd, hset.1, hset.2, o, plain, ho, hdir, hf, hu⟩
    constructor
    · rintro ⟨o', b, ho', hdec, hb⟩
      obtain rfl : o = o' := Option.some.inj (ho.symm.trans ho')
      rw [hc, Option.some.injEq] at hb
      refine ⟨fun _ _ _ => hhead, fun _ _ _ _ => rfl, fun _ o' plain' ho' hu' => ?_⟩
      obtain rfl : o = o' := Option.some.inj (ho.symm.trans ho')
      obtain rfl : plain = plain' := Option.some.inj (hu.symm.trans hu')
      rw [hdec, hb]
    · intro h
      exact ⟨o, _, ho, h.decoded hdown o plain ho hu, hc⟩

/-- `dfs_get_local_copy` for an entry without a cache file. -/
theorem dfsGetLocalCopy_full_iff (hw : fs.Wf) (pe : Entry) (hl : pe.ondisk ≠ .loc)
    {flags : OpenFlags} (ht : flags.trunc = false) :
    FullOrFailed cx st path (dfsGetLocalCopy cx env st fs pe path flags) ↔
      CopiesFully cx env st path pe.mdLocked := by
  by_cases hused : HeadersUsed env st path
  swap
  · rw [dfsGetLocalCopy_unused hused]
    refine iff_of_true trivial ⟨fun hn hf hd => (hused ⟨hn, hf, hd⟩).elim, fun hn hs hd => ?_,
      fun hd o _ ho => (hused ⟨hd.namei, ftype?_of_lookup ho, hd.metadataDict⟩).elim⟩
    obtain ⟨o, ho⟩ := Option.isSome_iff_exists.mp hs
    exact (hused ⟨hn, ftype?_of_lookup ho, hd⟩).elim
  by_cases hhead : env.remote (.headAll path) = .success ∧ (st.lookup path).isSome
  swap
  · rw [dfsGetLocalCopy_lost hused hhead]
    exact iff_of_false id fun h => hhead (h.headers hused.1 hused.2.1 hused.2.2)
  obtain ⟨o, ho⟩ := Option.isSome_iff_exists.mp hhead.2
  rw [dfsGetLocalCopy_used hused hhead.1 ho]
  cases hmd : env.lib .metadataFromHeaders with
  | false =>
    refine iff_of_true trivial ⟨fun _ _ _ => hhead, fun _ _ _ h => ?_, fun hd => ?_⟩
    · exact absurd (hmd.symm.trans h) (by decide)
    · exact absurd (hmd.symm.trans hd.metadataFromHeaders) (by decide)
  | true =>
    simp only [Bool.true_eq_false, if_false]
    cases hm : pe.mdLocked with
    | true =>
      have hblocked : localCopy cx env st fs pe path flags o.headers = .error .blocked := by
        simp [localCopy, pentryMdLock, hm, bind, Except.bind]
      rw [hblocked]
      refine iff_of_false id fun h => ?_
      exact absurd (h.unlocked hused.1 hhead.2 hused.2.2 hmd) (by decide)
    | false =>
      obtain ⟨pe', hcopy⟩ := localCopy_remote cx env st fs path hl hm o.headers flags
      rw [hcopy]
      by_cases hset : env.lib .usermdDict = true ∧ env.lib .usermdCopy = true
      · rw [if_pos hset]
        exact fetched_full_iff hw ho ht ⟨hused, hhead, hmd, hset⟩ pe'
      · rw [if_neg hset]
        exact iff_of_true trivial ⟨fun _ _ _ => hhead, fun _ _ _ _ => rfl,
          fun hd => (hset ⟨hd.usermdDict, hd.usermdCopy⟩).elim⟩

/-- A download for an entry without a cache file has had all it needs. -/
theorem dfsGetLocalCopy_downloads (hw : fs.Wf) {pe pe' : Entry} (hl : pe.ondisk ≠ .loc)
    {flags : OpenFlags} (ht : flags.trunc = false) {fs' : LocalFs} {k : Nat}
    (h : dfsGetLocalCopy cx env st fs pe path flags = .ok (some k, pe', fs')) :
    Downloads cx env st path := by
  by_cases hused : HeadersUsed env st path
  swap
  · rw [dfsGetLocalCopy_unused hused] at h
    simp at h
  by_cases hhead : env.remote (.headAll path) = .success ∧ (st.lookup path).isSome
  swap
  · rw [dfsGetLocalCopy_lost hused hhead] at h
    cases h
  obtain ⟨o, ho⟩ := Option.isSome_iff_exists.mp hhead.2
  rw [dfsGetLocalCopy_used hused hhead.1 ho] at h
  cases hmd : env.lib .metadataFromHeaders with
  | false => simp [hmd] at h
  | true =>
    simp only [hmd, Bool.true_eq_false, if_false] at h
    have hm : pe.mdLocked = false := by
      unfold localCopy at h
      obtain ⟨pl, hlock, _⟩ := Except.bind_ok.mp h
      exact (pentryMdLock_ok hlock).1
    obtain ⟨qe, hcopy⟩ := localCopy_remote cx env st fs path hl hm o.headers flags
    rw [hcopy] at h
    split_ifs at h with hset
    · simp only [Except.ok.injEq, Prod.mk.injEq] at h
      obtain ⟨hf, hdir, plain, hu, _⟩ := fetchObject_landed hw ho ht h.1
      exact ⟨hused.1, hhead.1, hused.2.2, hmd, hset.1, hset.2, o, plain, ho, hdir, hf, hu⟩
    · simp at h

/-- An open that does not fail found a cache file, downloaded one or made one. -/
theorem openMode_done (hw : fs.Wf) {pe pe' : Entry} (hc : pe.ondisk = .loc ↔ pe.fd.isSome)
    {smode : StateMode} {fs' : LocalFs} {ret : Int} (hr : ret ≠ -1)
    (h : openMode cx env st fs path pe smode = .ok (ret, pe', fs')) :
    if smode = .creat then env.sys .openCache = none
    else pe.ondisk = .loc ∨ Downloads cx env st path := by
  have hex : ∀ {qe gs r}, smode ≠ .creat → r ≠ -1 →
      openExisting cx env st fs path pe (openFlags smode) = .ok (r, qe, gs) →
      pe.ondisk = .loc ∨ Downloads cx env st path := by
    intro qe gs r hm hr he
    unfold openExisting at he
    cases hfd : pe.fd with
    | some fd => exact .inl (hc.mpr (by rw [hfd]; rfl))
    | none =>
      rw [hfd] at he
      obtain ⟨⟨fd, re, gs'⟩, hg, he⟩ := Except.bind_ok.mp he
      simp only [Except.ok.injEq, Prod.mk.injEq] at he
      have hl : pe.ondisk ≠ .loc := by
        rw [Ne, hc, hfd]
        simp
      have ht : (openFlags smode).trunc = false := by
        cases smode with
        | creat => exact (hm rfl).elim
        | _ => rfl
      cases fd with
      | none => exact (hr he.1.symm).elim
      | some k => exact .inr (dfsGetLocalCopy_downloads hw hl ht hg)
  have hwr : smode ≠ .creat → openWronly cx env st fs path pe (openFlags smode) =
      .ok (ret, pe', fs') → pe.ondisk = .loc ∨ Downloads cx env st path := by
    intro hm hwr
    obtain ⟨⟨r, qe, gs⟩, he, hwr⟩ := Except.bind_ok.mp hwr
    simp only [Except.ok.injEq, Prod.mk.injEq] at hwr
    exact hex hm (hwr.1 ▸ hr) he
  cases smode with
  | rdonly => exact hex (by decide) hr h
  | wronly => exact hwr (by decide) h
  | rdwr => exact hwr (by decide) h
  | creat =>
    simp only [openMode, Except.ok.injEq] at h
    unfold openCreat at h
    rw [if_pos rfl]
    split at h
    · assumption
    · simp only [Prod.mk.injEq] at h
      exact (hr h.1.symm).elim

end Result

section Claim

variable {cx : Ctx} {env : Env} {st : Store} {path : Path}

/-- An object in the clear, with the scratch file complete and in place. -/
theorem landed_decode {o : Obj} {plain : Bytes} (he : Encrypted o.userMeta = false)
    (hr : Zipped o.userMeta → env.sys .renameScratch = none)
    (hc : Zipped o.userMeta → env.sys .fcloseScratch = none)
    (hu : unpack cx (localName cx path) o.userMeta o.data = some plain) :
    decode cx o = some (landed env o.userMeta o.data plain) := by
  have hplain : landed env o.userMeta o.data plain = plain := by
    unfold landed flushed
    split_ifs with hz h1 h2
    · rfl
    · exact (h2 (hc hz)).elim
    · exact (h1 (hr hz)).elim
    · rfl
  rw [hplain]
  unfold unpack at hu
  unfold decode
  cases hm : o.userMeta .compression with
  | none => simpa [hm, he] using hu
  | some compressed =>
    simp only [hm, he, Bool.false_eq_true, if_false] at hu ⊢
    split_ifs at hu ⊢ with h1 h2
    · exact hu
    · exact hu

/-- In every reachable state, for every object and every pattern of failures:
`dfs_get_local_copy`, as `open_existing` calls it, either fails or returns a descriptor of the
decoded object exactly when `CopiesFully` holds. -/
theorem local_copy_full_iff (cx : Ctx) (d : Daemon) (hd : d.Reachable cx) (env : Env) (path : Path)
    (a : Addr) (s : World) (hl : lookupOrPopulate env d.world path .reg = some (a, s)) (pe : Entry)
    (ha : s.heap a = some pe) (hfd : pe.fd = none) (smode : StateMode) (hm : smode ≠ .creat) :
    FullOrFailed cx s.store path
        (dfsGetLocalCopy cx env s.store s.fs (pentryIncRefcount pe) path (openFlags smode)) ↔
      CopiesFully cx env d.world.store path pe.mdLocked := by
  have hlk := lookupOrPopulate_spec hd.inv hl
  have hi := hlk.inv
  have hloc : pe.ondisk ≠ .loc := by
    intro h
    have := (hi.cached a pe ha).mp h
    rw [hfd] at this
    cases this
  have ht : (openFlags smode).trunc = false := by
    cases smode with
    | creat => exact (hm rfl).elim
    | _ => rfl
  rw [← hlk.store]
  exact dfsGetLocalCopy_full_iff hi.wf (pentryIncRefcount pe) hloc ht

/-- A compressed object under `/f`. -/
def Sample.packed : Obj :=
  { Sample.file (Sample.pack [1, 2]) with userMeta := Dict.empty.set .compression textZlib }

theorem local_copy_full_sample :
    ∃ a s pe, lookupOrPopulate Env.quiet (Sample.daemon [(['/', 'f'], Sample.packed)]).world
        ['/', 'f'] .reg = some (a, s) ∧ s.heap a = some pe ∧
      FullOrFailed Sample.plain s.store ['/', 'f'] (dfsGetLocalCopy Sample.plain Env.quiet s.store
        s.fs (pentryIncRefcount pe) ['/', 'f'] Sample.readOnly) := by
  refine ⟨_, _, _, rfl, rfl, ?_⟩
  apply (local_copy_full_iff Sample.plain _ (Sample.daemon_reachable _ _) Env.quiet ['/', 'f'] _ _
    rfl _ rfl rfl .rdonly (by decide)).mpr
  refine ⟨fun _ _ _ => ⟨rfl, rfl⟩, fun _ _ _ _ => rfl, fun _ o plain ho hu => ?_⟩
  obtain rfl : Sample.packed = o := Option.some.inj ho
  exact landed_decode rfl (fun _ => rfl) (fun _ => rfl) hu

/-- Every call goes through but one of those to the remote side. -/
def Sample.refusing (call : RemoteCall) : Env :=
  { Env.quiet with remote := fun c => if c = call then .failure else .success }

/-- When the scratch file cannot be renamed, the descriptor is returned, and it is that of the
compressed file; when `dpl_head_all` fails, its headers are used all the same. -/
theorem failures_unnoticed :
    ∃ a s pe pe' fs, lookupOrPopulate Env.quiet (Sample.daemon [(['/', 'f'], Sample.packed)]).world
        ['/', 'f'] .reg = some (a, s) ∧ s.heap a = some pe ∧
      dfsGetLocalCopy Sample.plain (failing .renameScratch) s.store s.fs (pentryIncRefcount pe)
        ['/', 'f'] (openFlags .rdonly) = .ok (some 0, pe', fs) ∧
      fs.content 0 = some (Sample.pack [1, 2]) ∧ decode Sample.plain Sample.packed = some [1, 2] ∧
      ¬FullOrFailed Sample.plain s.store ['/', 'f'] (dfsGetLocalCopy Sample.plain
        (failing .renameScratch) s.store s.fs (pentryIncRefcount pe) ['/', 'f']
        (openFlags .rdonly)) ∧
      dfsGetLocalCopy Sample.plain (Sample.refusing (.headAll ['/', 'f'])) s.store s.fs
        (pentryIncRefcount pe) ['/', 'f'] (openFlags .rdonly) = .error .nullDeref := by
  refine ⟨_, _, _, _, _, rfl, rfl, rfl, rfl, rfl, fun h => ?_, rfl⟩
  obtain ⟨o, plain, ho, hdec, hc⟩ := h
  obtain rfl : Sample.packed = o := Option.some.inj ho
  have hp : plain = [1, 2] := (Option.some.inj hdec).symm
  have hz : plain = Sample.pack [1, 2] := (Option.some.inj hc).symm
  rw [hp] at hz
  cases hz

end Claim

end DropletFs
