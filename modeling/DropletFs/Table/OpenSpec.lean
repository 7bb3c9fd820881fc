import DropletFs.Framework.Fault
import DropletFs.Model.Open
import DropletFs.Cache.Download
import DropletFs.Table.Invariant

/-! What one open does to the entry and the cache, whatever its mode and its calls'
outcomes. -/

namespace DropletFs

open CText LocalFs

theorem pentryMdLock_ok {pe pe' : Entry} (h : pentryMdLock pe = .ok pe') :
    pe.mdLocked = false ∧ pe' = { pe with mdLocked := true } := by
  unfold pentryMdLock at h
  split_ifs at h with hl
  · simp only [Except.ok.injEq] at h
    exact ⟨by simpa using hl, h.symm⟩

/-- The dictionary `pentry_set_usermd` leaves in the entry. -/
def keptUsermd (env : Env) (dict : Dict) : Option Dict :=
  if !env.lib .usermdDict then none
  else if !env.lib .usermdCopy then some Dict.empty
  else some dict

theorem pentrySetUsermd_eq (env : Env) (pe : Entry) (dict : Dict) :
    (pentrySetUsermd env pe dict).2 = { pe with usermd := keptUsermd env dict } := by
  unfold pentrySetUsermd keptUsermd
  split_ifs <;> rfl

theorem pentrySetUsermd_snd (env : Env) (pe : Entry) (dict : Dict) :
    ∃ md, (pentrySetUsermd env pe dict).2 = { pe with usermd := md } :=
  ⟨_, pentrySetUsermd_eq env pe dict⟩

theorem compareDigests_snd (pe : Entry) (headers : Headers) :
    ∃ d, (compareDigests pe headers).2 = { pe with digest := d } := by
  unfold compareDigests
  split_ifs
  · exact ⟨pe.digest, rfl⟩
  · cases headers.etag with
    | none => exact ⟨pe.digest, rfl⟩
    | some remote =>
      dsimp only
      split_ifs
      · exact ⟨pe.digest, rfl⟩
      · exact ⟨_, rfl⟩

theorem compareDigests_fst {pe : Entry} (h : pe.ondisk ≠ .loc) (headers : Headers) :
    compareDigests pe headers = (-1, pe) := by
  simp [compareDigests, h]

/-- A download changes nothing of the entry but its metadata and digest. -/
structure Described (pe pe' : Entry) : Prop where
  eq : ∃ md d l, pe' = { pe with usermd := md, digest := d, mdLocked := l }
  unlocked : pe.mdLocked = false → pe'.mdLocked = false

theorem Described.refl (pe : Entry) : Described pe pe :=
  ⟨⟨pe.usermd, pe.digest, pe.mdLocked, rfl⟩, id⟩

theorem localCopy_cases {cx : Ctx} {env : Env} {st : Store} {fs fs' : LocalFs}
    {pe pe' : Entry} {path : Path} {flags : OpenFlags} {headers : Headers} {fd : Option Nat}
    (h : localCopy cx env st fs pe path flags headers = .ok (fd, pe', fs')) :
    Described pe pe' ∧
    (fs' = fs ∧ (fd = none ∨ fd = pe.fd) ∨
      fetchObject cx env st fs path (localName cx path) headers.userMeta flags = (fd, fs')) := by
  unfold localCopy at h
  obtain ⟨pl, hl, h⟩ := Except.bind_ok.mp h
  obtain ⟨_, rfl⟩ := pentryMdLock_ok hl
  dsimp only at h
  obtain ⟨md, hmd⟩ := pentrySetUsermd_snd env { pe with mdLocked := true } headers.userMeta
  rw [hmd] at h
  split_ifs at h with h3
  · simp only [Except.ok.injEq, Prod.mk.injEq] at h
    obtain ⟨rfl, rfl, rfl⟩ := h
    exact ⟨⟨⟨md, pe.digest, false, rfl⟩, fun _ => rfl⟩, .inl ⟨rfl, .inl rfl⟩⟩
  · obtain ⟨d, hd⟩ := compareDigests_snd
      (pentryMdUnlock { pe with mdLocked := true, usermd := md }) headers
    split at h
    · rename_i qe hq
      have hqe : qe = { pe with usermd := md, digest := d, mdLocked := false } := by
        rw [hq] at hd
        exact hd
      simp only [Except.ok.injEq, Prod.mk.injEq] at h
      obtain ⟨rfl, rfl, rfl⟩ := h
      subst hqe
      exact ⟨⟨⟨md, d, false, rfl⟩, fun _ => rfl⟩, .inl ⟨rfl, .inr rfl⟩⟩
    · rename_i r qe _ hq
      have hqe : qe = { pe with usermd := md, digest := d, mdLocked := false } := by
        rw [hq] at hd
        exact hd
      simp only [Except.ok.injEq, Prod.mk.injEq] at h
      obtain ⟨rfl, rfl, rfl⟩ := h
      exact ⟨⟨⟨md, d, false, hqe⟩, fun _ => hqe ▸ rfl⟩, .inr rfl⟩

theorem downloadHeaders_some {env : Env} {st : Store} {path : Path} {headers : Headers}
    (h : (downloadHeaders env st path).2 = some headers) :
    ∃ o, st.lookup path = some o ∧ headers = o.headers := by
  unfold downloadHeaders at h
  split at h
  · unfold dplHeadAll at h
    split at h
    · rename_i hh
      split at hh
      · cases hl : st.lookup path with
        | none => simp [hl] at hh
        | some o =>
          simp only [hl, Prod.mk.injEq, true_and] at hh
          dsimp only at h
          exact ⟨o, rfl, by rw [← hh, Option.some.injEq] at h; exact h.symm⟩
      · simp_all
    · cases h
  · cases h

/-- What `dfs_get_local_copy` did when it returned: either nothing to the cache, with the
entry's own descriptor or none as its result, or a download. -/
theorem dfsGetLocalCopy_cases {cx : Ctx} {env : Env} {st : Store} {fs fs' : LocalFs}
    {pe pe' : Entry} {path : Path} {flags : OpenFlags} {fd : Option Nat}
    (h : dfsGetLocalCopy cx env st fs pe path flags = .ok (fd, pe', fs')) :
    Described pe pe' ∧
    (fs' = fs ∧ (fd = none ∨ fd = pe.fd) ∨
      ∃ o, st.lookup path = some o ∧
        fetchObject cx env st fs path (localName cx path) o.userMeta flags = (fd, fs')) := by
  have hnop : Except.ok (none, pe, fs) = Except.ok (ε := Fault) (fd, pe', fs') →
      Described pe pe' ∧ (fs' = fs ∧ (fd = none ∨ fd = pe.fd) ∨
        ∃ o, st.lookup path = some o ∧
          fetchObject cx env st fs path (localName cx path) o.userMeta flags = (fd, fs')) := by
    intro he
    simp only [Except.ok.injEq, Prod.mk.injEq] at he
    obtain ⟨rfl, rfl, rfl⟩ := he
    exact ⟨.refl pe, .inl ⟨rfl, .inl rfl⟩⟩
  unfold dfsGetLocalCopy at h
  dsimp only at h
  by_cases h1 : (downloadHeaders env st path).1 = -1 ∨ env.lib .metadataDict = false
  · rw [if_pos h1] at h
    exact hnop h
  rw [if_neg h1] at h
  cases hh : (downloadHeaders env st path).2 with
  | none => simp [hh] at h
  | some headers =>
    rw [hh] at h
    dsimp only at h
    by_cases h2 : env.lib .metadataFromHeaders = false
    · rw [if_pos h2] at h
      exact hnop h
    · rw [if_neg h2] at h
      obtain ⟨hd, hc⟩ := localCopy_cases h
      obtain ⟨o, ho, rfl⟩ := downloadHeaders_some hh
      exact ⟨hd, hc.imp id fun hf => ⟨o, ho, hf⟩⟩

theorem downloadHeaders_ok {env : Env} {path : Path} (hn : env.remote (.namei path) = .success)
    (hh : env.remote (.headAll path) = .success) {st : Store} {o : Obj}
    (ho : st.lookup path = some o) : downloadHeaders env st path = (0, some o.headers) := by
  have hnamei : (dplNamei env st path).1 = .success := by
    simp only [dplNamei, hn, Store.ftype?]
    by_cases hr : path = rootPath
    · simp [hr]
    · simp [hr, ho]
  unfold downloadHeaders
  simp only [hnamei, dplHeadAll, hh, ho]

/-- With every call going through, `dfs_get_local_copy` of a regular object yields its
unpacked data, or no descriptor when it cannot be unpacked. -/
theorem dfsGetLocalCopy_iff (cx : Ctx) {env : Env} (hok : env.AllOk) {st : Store} {fs : LocalFs}
    (hw : fs.Wf) {pe : Entry} (hl : pe.ondisk ≠ .loc) (hm : pe.mdLocked = false) {path : Path}
    (flags : OpenFlags) (ht : flags.trunc = false) {o : Obj} (ho : st.lookup path = some o)
    (hd : o.ftype ≠ .dir) (b : Bytes) :
    (∃ k pe' fs', dfsGetLocalCopy cx env st fs pe path flags = .ok (some k, pe', fs') ∧
      fs'.content k = some b) ↔
    unpack cx (localName cx path) o.userMeta o.data = some b := by
  have hhead := downloadHeaders_ok (hok.remote (.namei path)) (hok.remote (.headAll path)) ho
  have hres : ∃ pe', dfsGetLocalCopy cx env st fs pe path flags =
      .ok ((fetchObject cx env st fs path (localName cx path) o.userMeta flags).1, pe',
        (fetchObject cx env st fs path (localName cx path) o.userMeta flags).2) := by
    refine ⟨{ pe with usermd := some o.userMeta, mdLocked := false }, ?_⟩
    simp [dfsGetLocalCopy, hhead, hok.lib, localCopy, pentryMdLock, hm, pentrySetUsermd,
      pentryMdUnlock, compareDigests, hl, Obj.headers, bind, Except.bind]
  obtain ⟨pe', hres⟩ := hres
  constructor
  · rintro ⟨k, qe, gs, hg, hc⟩
    rw [hres] at hg
    simp only [Except.ok.injEq, Prod.mk.injEq] at hg
    obtain ⟨hk, _, rfl⟩ := hg
    obtain ⟨o', plain, ho', _, hu, hc'⟩ := fetchObject_content hw (hok.sys _) (hok.sys _) ht hk
    rw [ho, Option.some.injEq] at ho'
    subst ho'
    rw [hc', Option.some.injEq] at hc
    rw [hu, hc]
  · intro hu
    obtain ⟨k, hk⟩ := Option.isSome_iff_exists.mp
      (fetchObject_completes (hok.fetches path o.userMeta) hw ho hd hu flags)
    obtain ⟨o', plain, ho', _, hu', hc⟩ := fetchObject_content hw (hok.sys _) (hok.sys _) ht hk
    rw [ho, Option.some.injEq] at ho'
    subst ho'
    rw [hu, Option.some.injEq] at hu'
    exact ⟨k, pe', _, by rw [hres, hk], hu' ▸ hc⟩

/-- The outcome of an open: the entry keeps its place, refcount and exclusion, and holds a
descriptor, its old one or a new one opened the way the mode says. -/
structure OpenSpec (fs : LocalFs) (pe : Entry) (smode : StateMode) (ret : Int) (pe' : Entry)
    (fs' : LocalFs) : Prop where
  update : Update fs pe fs' pe'
  fields : pe' = { pe with
    fd := pe'.fd
    usermd := pe'.usermd
    digest := pe'.digest
    mdLocked := pe'.mdLocked
    flag := pe'.flag }
  unlocked : pe.mdLocked = false → pe'.mdLocked = false
  ondisk : pe'.ondisk = pe.ondisk
  refcount : pe'.refcount = pe.refcount
  exclude : pe'.exclude = pe.exclude
  result : ret = 0 ∧ pe'.fd.isSome ∨ ret = -1 ∧ pe'.fd = pe.fd
  acc : pe'.fd = pe.fd ∧ (smode = .creat → ret = -1) ∨
    (pe.fd = none ∨ smode = .creat) ∧ ∃ fd f, pe'.fd = some fd ∧ fs'.fds.lookup fd = some f ∧
      f.acc = (openFlags smode).acc

theorem openFlags_cacheFile (smode : StateMode) (inode : Nat) :
    CacheFile ⟨inode, (openFlags smode).acc, 0⟩ := by
  cases smode <;> simp [openFlags, CacheFile]

section Modes

variable {cx : Ctx} {env : Env} {st : Store} {fs fs' : LocalFs} {path : Path} {pe pe' : Entry}
  {smode : StateMode} {ret : Int}

theorem openCreat_spec (hw : fs.Wf) (hm : smode = .creat)
    (h : openCreat cx env fs path pe (openFlags smode) = (ret, pe', fs')) :
    OpenSpec fs pe smode ret pe' fs' := by
  unfold openCreat at h
  split at h
  · rename_i fd fs₁ _ ho
    simp only [Prod.mk.injEq] at h
    obtain ⟨rfl, rfl, rfl⟩ := h
    obtain ⟨i, hop⟩ := openFile_ok ho
    obtain ⟨hf, hnew⟩ := (Frame.refl [collapse (buildCacheTree cx path)] fs).openFile
      (by simp) ho
    refine ⟨⟨rfl, hw.openFile ho, fun fd f hl _ => hf.fds fd f hl, .inr ?_⟩, rfl, id, rfl, rfl,
      rfl, .inl ⟨rfl, rfl⟩, .inr ⟨.inr hm, fd, _, rfl, hop.lookup, rfl⟩⟩
    rintro k ⟨⟩
    exact ⟨hnew, _, hop.lookup, openFlags_cacheFile smode i⟩
  · simp only [Prod.mk.injEq] at h
    obtain ⟨rfl, rfl, rfl⟩ := h
    exact ⟨.refl hw pe, rfl, id, rfl, rfl, rfl, .inr ⟨rfl, rfl⟩, .inl ⟨rfl, fun _ => rfl⟩⟩

theorem openExisting_spec (hw : fs.Wf) (hm : smode ≠ .creat)
    (h : openExisting cx env st fs path pe (openFlags smode) = .ok (ret, pe', fs')) :
    OpenSpec fs pe smode ret pe' fs' := by
  unfold openExisting at h
  cases hfd : pe.fd with
  | some fd =>
    rw [hfd] at h
    simp only [Except.ok.injEq, Prod.mk.injEq] at h
    obtain ⟨rfl, rfl, rfl⟩ := h
    exact ⟨.refl hw pe, rfl, id, rfl, rfl, rfl, .inl ⟨rfl, by simp [hfd]⟩,
      .inl ⟨rfl, fun e => (hm e).elim⟩⟩
  | none =>
    rw [hfd] at h
    obtain ⟨⟨fd, qe, fs₁⟩, hg, h⟩ := Except.bind_ok.mp h
    simp only [Except.ok.injEq, Prod.mk.injEq] at h
    obtain ⟨rfl, rfl, rfl⟩ := h
    obtain ⟨⟨⟨md, d, l, rfl⟩, hun⟩, hcase⟩ := dfsGetLocalCopy_cases hg
    rcases hcase with ⟨rfl, hn⟩ | ⟨o, _, hfetch⟩
    · have hnone : fd = none := by
        rcases hn with hn | hn
        · exact hn
        · rw [hn, hfd]
      subst hnone
      exact ⟨⟨rfl, hw, fun _ _ hl _ => hl, .inl hfd.symm⟩, rfl, hun, rfl, rfl, rfl,
        .inr ⟨rfl, hfd.symm⟩, .inl ⟨hfd.symm, fun _ => rfl⟩⟩
    · have hf := fetchObject_frame cx env st
        (Frame.refl (downloadNames (localName cx path)) fs) path o.userMeta (openFlags smode)
      have hwf := fetchObject_wf cx env (localName cx path) hw st path o.userMeta
        (openFlags smode)
      rw [hfetch] at hf hwf
      cases fd with
      | none =>
        exact ⟨⟨rfl, hwf, fun k f hl _ => hf.1.fds k f hl, .inl hfd.symm⟩, rfl, hun, rfl, rfl, rfl,
          .inr ⟨rfl, hfd.symm⟩, .inl ⟨hfd.symm, fun _ => rfl⟩⟩
      | some k =>
        have hl := fetchObject_lookup (h := by rw [hfetch])
        rw [hfetch] at hl
        obtain ⟨i, _, hlook⟩ := hl
        refine ⟨⟨rfl, hwf, fun k f hl _ => hf.1.fds k f hl, .inr ?_⟩, rfl, hun, rfl, rfl, rfl,
          .inl ⟨rfl, rfl⟩, .inr ⟨.inl hfd, k, _, rfl, hlook, rfl⟩⟩
        rintro j ⟨⟩
        exact ⟨hf.2 k rfl, _, hlook, openFlags_cacheFile smode i⟩

theorem openWronly_spec (hw : fs.Wf) (hm : smode ≠ .creat)
    (h : openWronly cx env st fs path pe (openFlags smode) = .ok (ret, pe', fs')) :
    OpenSpec fs pe smode ret pe' fs' := by
  unfold openWronly at h
  obtain ⟨⟨r, qe, fs₁⟩, hg, h⟩ := Except.bind_ok.mp h
  simp only [Except.ok.injEq, Prod.mk.injEq] at h
  obtain ⟨rfl, rfl, rfl⟩ := h
  have hs := openExisting_spec hw hm hg
  split_ifs with hr
  · refine ⟨hs.update.entry rfl rfl, ?_, hs.unlocked, hs.ondisk, hs.refcount, hs.exclude,
      hs.result, hs.acc⟩
    rw [hs.fields]
  · exact hs

/-- Whatever the mode, an open does to the entry and the cache what `OpenSpec` says. -/
theorem openMode_spec (hw : fs.Wf)
    (h : openMode cx env st fs path pe smode = .ok (ret, pe', fs')) :
    OpenSpec fs pe smode ret pe' fs' := by
  unfold openMode at h
  cases smode with
  | rdonly => exact openExisting_spec hw (by decide) h
  | wronly => exact openWronly_spec hw (by decide) h
  | rdwr => exact openWronly_spec hw (by decide) h
  | creat =>
    simp only [Except.ok.injEq] at h
    exact openCreat_spec hw rfl h

end Modes

end DropletFs
