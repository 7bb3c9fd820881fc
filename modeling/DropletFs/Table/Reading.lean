import DropletFs.Open.Content

/-! What a read-only open and a `dfs_getattr` of a path report, by the place of its entry. -/

namespace DropletFs

open CText LocalFs

/-- The `size` of a dictionary, as it goes into an empty `struct stat`. -/
def mdSize (md : Dict) : Int := storeMeta md .size id 0

/-- The size the headers of an object state. -/
def Obj.statedSize (o : Obj) : Option Int :=
  match o.userMeta .size with
  | some _ => some (mdSize o.userMeta)
  | none => o.contentLength.map fun length => toI64 (strtoull length)

section Reading

variable {cx : Ctx} {env : Env} {s : World} {path : Path} {o : Obj}

variable (cx) in
/-- A read-only open of an entry: a cached one keeps its descriptor, any other is
downloaded, which takes its metadata lock. -/
theorem openRdonly_iff (hok : env.AllOk) {st : Store} {fs : LocalFs} (hw : fs.Wf) (pe : Entry)
    (hc : pe.ondisk = .loc ↔ pe.fd.isSome) (ho : st.lookup path = some o) (hd : o.ftype ≠ .dir)
    (b : Bytes) :
    (∃ pe' fs', openMode cx env st fs path pe .rdonly = .ok (0, pe', fs') ∧
      pe'.fd.bind fs'.content = some b) ↔
    if pe.ondisk = .loc then pe.fd.bind fs.content = some b
    else pe.mdLocked = false ∧ unpack cx (localName cx path) o.userMeta o.data = some b := by
  change (∃ pe' fs', openExisting cx env st fs path pe (openFlags .rdonly) = .ok (0, pe', fs') ∧
    _) ↔ _
  unfold openExisting
  cases hfd : pe.fd with
  | some fd =>
    rw [if_pos (hc.mpr (by simp [hfd]))]
    constructor
    · rintro ⟨pe', fs', he, hb⟩
      simp only [Except.ok.injEq, Prod.mk.injEq, true_and] at he
      obtain ⟨rfl, rfl⟩ := he
      rw [hfd] at hb
      exact hb
    · intro hb
      exact ⟨pe, fs, rfl, by rw [hfd]; exact hb⟩
  | none =>
    have hl : pe.ondisk ≠ .loc := by
      rw [Ne, hc, hfd]
      simp
    rw [if_neg hl]
    by_cases hm : pe.mdLocked = false
    · have hiff := dfsGetLocalCopy_iff cx hok hw hl hm (openFlags .rdonly) rfl ho
        hd b
      rw [and_iff_right hm, ← hiff]
      constructor
      · rintro ⟨pe', fs', he, hb⟩
        obtain ⟨⟨fd, qe, gs⟩, hg, he⟩ := Except.bind_ok.mp he
        simp only [Except.ok.injEq, Prod.mk.injEq] at he
        obtain ⟨_, rfl, rfl⟩ := he
        obtain ⟨k, rfl, hk⟩ := Option.bind_eq_some_iff.mp hb
        exact ⟨k, qe, gs, hg, hk⟩
      · rintro ⟨k, qe, gs, hg, hk⟩
        exact ⟨{ qe with fd := some k }, gs, Except.bind_ok.mpr ⟨_, hg, rfl⟩, hk⟩
    · refine iff_of_false ?_ (fun h => hm h.1)
      rintro ⟨pe', fs', he, _⟩
      obtain ⟨⟨fd, qe, gs⟩, hg, _⟩ := Except.bind_ok.mp he
      have hlock : pe.mdLocked = true := by simpa using hm
      simp [dfsGetLocalCopy, downloadHeaders_ok (hok.remote _) (hok.remote _) ho, hok.lib,
        localCopy, pentryMdLock, hlock,
        bind, Except.bind] at hg

/-- The entry that is found or added. -/
theorem lookupOrPopulate_ok (hok : env.AllOk) (hi : s.Inv) (path : Path)
    (type : TPathType) :
    ∃ a u, lookupOrPopulate env s path type = some (a, u) ∧ Looked env type s path a u ∧
      u.heap a = some ((s.entry path).getD (pentryNew env path type)) := by
  cases hh : s.hash path with
  | some a =>
    have hl : lookupOrPopulate env s path type = some (a, s) := by simp [lookupOrPopulate, hh]
    obtain ⟨pe, hpe, _⟩ := hi.entry path a hh
    exact ⟨a, s, hl, lookupOrPopulate_spec hi hl, by simp [World.entry, hh, hpe]⟩
  | none =>
    have hl : lookupOrPopulate env s path type =
        some (s.brk, s.insertEntry path (pentryNew env path type)) := by
      simp only [lookupOrPopulate, hh, populateHash, hok.lib, Bool.and_self, if_true]
    exact ⟨s.brk, _, hl, lookupOrPopulate_spec hi hl,
      by simp [World.entry, hh, World.insertEntry]⟩

variable (cx) in
/-- `dfs_open` runs one mode on the entry it found or added. -/
theorem dfsOpen_of_looked {u : World} {a : Addr} {pe : Entry} (flags : OpenFlags)
    (hl : lookupOrPopulate env s path .reg = some (a, u)) (hlook : Looked env .reg s path a u)
    (hpe : u.heap a = some pe) :
    dfsOpen cx env s path flags =
      (openMode cx env s.store s.fs path (pentryIncRefcount pe) (getModeFromFlags flags)).map
        fun r => if r.1 = -1 then (-1, some a, { u.setEntry a r.2.1 with fs := r.2.2 })
          else (0, some a, { u.setEntry a { r.2.1 with ondisk := .loc } with fs := r.2.2 }) := by
  have hget : u.deref a = .ok pe := World.deref_ok.mpr hpe
  unfold dfsOpen
  simp only [hl, hget, hlook.store, hlook.fs, bind, Except.bind]
  cases openMode cx env s.store s.fs path (pentryIncRefcount pe) (getModeFromFlags flags) with
  | error e => rfl
  | ok r =>
    obtain ⟨ret, pe', fs'⟩ := r
    simp only [Except.map]
    split_ifs <;> simp [World.setEntry, hlook.store]

/-- Opened read-only, a path reads as its cache file when it is cached, else as what its
object is unpacked to. -/
theorem dfsOpen_readOnly_iff (hok : env.AllOk) (hi : s.Inv) {flags : OpenFlags}
    (hm : getModeFromFlags flags = .rdonly) (ho : s.store.lookup path = some o)
    (hd : o.ftype ≠ .dir) (bytes : Bytes) :
    (∃ a t, dfsOpen cx env s path flags = .ok (0, some a, t) ∧ t.ReadsAs a bytes) ↔
    if ((s.entry path).getD (pentryNew env path .reg)).ondisk = .loc then
      ((s.entry path).getD (pentryNew env path .reg)).fd.bind s.fs.content = some bytes
    else ((s.entry path).getD (pentryNew env path .reg)).mdLocked = false ∧
      unpack cx (localName cx path) o.userMeta o.data = some bytes := by
  obtain ⟨a, u, hl, hlook, hpe⟩ := lookupOrPopulate_ok hok hi path .reg
  generalize (s.entry path).getD (pentryNew env path .reg) = pe at hpe ⊢
  have hiff := openRdonly_iff cx hok hi.wf (pentryIncRefcount pe)
    (hlook.inv.cached a pe hpe) ho hd bytes
  refine Iff.trans ?_ hiff
  have heq := dfsOpen_of_looked cx flags hl hlook hpe
  rw [hm] at heq
  have hne : ¬(0 : Int) = -1 := by decide
  -- what reading through the handle of a successful open yields
  have hreads : ∀ pe' fs',
      openMode cx env s.store s.fs path (pentryIncRefcount pe) .rdonly = .ok (0, pe', fs') →
      (World.ReadsAs { u.setEntry a { pe' with ondisk := .loc } with fs := fs' } a bytes ↔
        pe'.fd.bind fs'.content = some bytes) := by
    intro pe' fs' hop
    have hopen : dfsOpen cx env s path flags = .ok (0, some a,
        { u.setEntry a { pe' with ondisk := .loc } with fs := fs' }) := by
      rw [heq, hop, Except.map, if_neg hne]
    have hti := (dfsOpen_inv hi hopen).1
    have hheap : ({ u.setEntry a { pe' with ondisk := .loc } with fs := fs' } : World).heap a =
        some { pe' with ondisk := .loc } := World.setEntry_heap_self u a _
    obtain ⟨fd, hfd⟩ := Option.isSome_iff_exists.mp ((hti.cached a _ hheap).mp rfl)
    have hfd : pe'.fd = some fd := hfd
    obtain ⟨f, hf, _⟩ := hti.opened a _ fd hheap hfd
    have hcont : fs'.content fd = some (fs'.inodes f.inode).data := by
      have hf' : fs'.fds.lookup fd = some f := hf
      simp [LocalFs.content, inodeOf, hf']
    rw [World.readsAs_iff hti hheap hfd hcont, hfd, Option.bind_some, hcont, Option.some.injEq]
  constructor
  · rintro ⟨b, t, h, hr⟩
    rw [heq] at h
    obtain ⟨⟨ret, pe', fs'⟩, hop, h⟩ := Except.map_eq_ok.mp h
    dsimp only at h
    split_ifs at h with h1
    · simp at h
    · simp only [Prod.mk.injEq, true_and, Option.some.injEq] at h
      obtain ⟨rfl, rfl⟩ := h
      have h0 : ret = 0 := by
        rcases (openMode_spec hi.wf hop).result with ⟨h0, _⟩ | ⟨hm1, _⟩
        · exact h0
        · exact (h1 hm1).elim
      subst h0
      exact ⟨pe', fs', hop, (hreads pe' fs' hop).mp hr⟩
  · rintro ⟨pe', fs', hop, hb⟩
    exact ⟨a, _, by rw [heq, hop, Except.map, if_neg hne], (hreads pe' fs' hop).mpr hb⟩

theorem fillStatFromMetadata_size (st : Stat) (md : Dict) :
    (fillStatFromMetadata st md).size = storeMeta md .size id st.size := by
  unfold fillStatFromMetadata
  dsimp only
  split_ifs <;> rfl

/-- A first `getattr` reports the size the headers state. -/
theorem getattrUnset_size_iff (hok : env.AllOk) {st : Store} (ho : st.lookup path = some o)
    (pe : Entry) (buf : Stat) (n : Int) :
    (∃ stat pe' fill, getattrUnset env st pe path buf = .ok (0, stat, pe', fill) ∧
      stat.size = n) ↔ pe.mdLocked = false ∧ o.statedSize = some n := by
  have hnamei : ∃ type, dplNamei env st path = (.success, type) := by
    simp only [dplNamei, hok.remote, Store.ftype?]
    by_cases hr : path = rootPath
    · exact ⟨some .dir, by simp [hr]⟩
    · exact ⟨some o.ftype, by simp [hr, ho]⟩
  obtain ⟨type, hnamei⟩ := hnamei
  have hraw : ∃ rc, (rc = .success ∨ rc = .eisdir) ∧
      dplGetattrRaw env st path = (rc, some o.headers) := by
    simp only [dplGetattrRaw, hok.remote, ho]
    by_cases hd : o.ftype = .dir
    · exact ⟨.eisdir, .inr rfl, by simp [hd]⟩
    · exact ⟨.success, .inl rfl, by simp [hd]⟩
  obtain ⟨rc, hrc, hraw⟩ := hraw
  have hgo : ¬(rc ≠ .success ∧ rc ≠ .eisdir) := by
    rintro ⟨h1, h2⟩
    rcases hrc with h | h
    · exact h1 h
    · exact h2 h
  have hlib : ¬(env.lib .getattrDict = false ∨ env.lib .filterPrefix = false) := by
    simp [hok.lib]
  have heq : getattrUnset env st pe path buf = (do
      let p ← statOfHeaders env { setDefaultStat env (type.getD .other) with nlink := 0 } o.headers
      let pe ← pentryMdLock pe
      let pe := setFiletypeFromStat (pentrySetUsermd env pe p.2).2 p.1
      .ok (0, p.1, pentryMdUnlock { pe with ondisk := .remote }, true)) := by
    simp only [getattrUnset, hnamei, hraw]
    rw [if_neg hgo, if_neg hlib]
  -- the size comes from the headers alone: the buffer starts at zero
  have hsize : ∀ buf' : Stat, buf'.size = 0 →
      ((∃ p, statOfHeaders env buf' o.headers = .ok p ∧ p.1.size = n) ↔ o.statedSize = some n) := by
    intro buf' h0
    unfold statOfHeaders Obj.statedSize
    cases hs : o.headers.userMeta .size with
    | some v =>
      have hs' : o.userMeta .size = some v := hs
      simp [hs', fillStatFromMetadata_size, h0, mdSize, Obj.headers]
    | none =>
      have hs' : o.userMeta .size = none := hs
      cases hc : o.contentLength with
      | none => simp [hs', hc, Obj.headers]
      | some length => simp [hs', hc, Obj.headers]
  have hzero : ({ setDefaultStat env (type.getD .other) with nlink := 0 } : Stat).size = 0 := rfl
  rw [heq, ← hsize _ hzero]
  constructor
  · rintro ⟨stat, pe', fill, he, hn⟩
    obtain ⟨p, hp, he⟩ := Except.bind_ok.mp he
    obtain ⟨pl, hl, he⟩ := Except.bind_ok.mp he
    simp only [Except.ok.injEq, Prod.mk.injEq, true_and] at he
    obtain ⟨rfl, _⟩ := he
    exact ⟨(pentryMdLock_ok hl).1, p, hp, hn⟩
  · rintro ⟨hm, p, hp, hn⟩
    have hl : pentryMdLock pe = .ok { pe with mdLocked := true } := by simp [pentryMdLock, hm]
    exact ⟨p.1, _, true, Except.bind_ok.mpr ⟨p, hp, Except.bind_ok.mpr ⟨_, hl, rfl⟩⟩, hn⟩

/-- The size `dfs_getattr` reports comes from the headers, from the metadata kept in the
entry, or from the cache file. -/
theorem dfsGetattr_size_iff (hok : env.AllOk) (hi : s.Inv) (hr : path ≠ rootPath)
    (ho : s.store.lookup path = some o) (n : Int) :
    (∃ stat t, dfsGetattr env s path = .ok (0, stat, t) ∧ stat.size = n) ↔
    match ((s.entry path).getD (pentryNew env path (env.rawType path))).ondisk with
    | .unset => ((s.entry path).getD (pentryNew env path (env.rawType path))).mdLocked = false ∧
        o.statedSize = some n
    | .remote => ((s.entry path).getD (pentryNew env path (env.rawType path))).mdLocked = false ∧
        ∃ md, ((s.entry path).getD (pentryNew env path (env.rawType path))).usermd = some md ∧
          mdSize md = n
    | .loc => ∃ data,
        ((s.entry path).getD (pentryNew env path (env.rawType path))).fd.bind s.fs.content =
          some data ∧
        (data.length : Int) = n := by
  obtain ⟨a, u, hl, hlook, hpe⟩ := lookupOrPopulate_ok hok hi path (env.rawType path)
  generalize (s.entry path).getD (pentryNew env path (env.rawType path)) = pe at hpe ⊢
  have hget : u.deref a = .ok pe := World.deref_ok.mpr hpe
  unfold dfsGetattr
  simp only [if_neg hr, hl, hget, bind, Except.bind, hlook.store, hlook.fs]
  cases hod : pe.ondisk with
  | unset =>
    dsimp only
    rw [← getattrUnset_size_iff hok ho pe { Stat.zero with nlink := 1 } n]
    cases getattrUnset env s.store pe path { Stat.zero with nlink := 1 } with
    | error e => simp
    | ok r =>
      obtain ⟨ret, stat, pe', fill⟩ := r
      constructor
      · rintro ⟨stat', t, he, hn⟩
        simp only [Except.ok.injEq, Prod.mk.injEq] at he
        obtain ⟨rfl, rfl, _⟩ := he
        exact ⟨stat, pe', fill, rfl, hn⟩
      · rintro ⟨stat', qe, fill', he, hn⟩
        simp only [Except.ok.injEq, Prod.mk.injEq] at he
        obtain ⟨rfl, rfl, _, _⟩ := he
        exact ⟨stat, _, rfl, hn⟩
  | remote =>
    by_cases hm : pe.mdLocked = false
    · cases hu : pe.usermd with
      | none => simp [getattrRemote, pentryMdLock, hm, hu, bind, Except.bind]
      | some md =>
        simp [getattrRemote, pentryMdLock, hm, hu, bind, Except.bind, fillStatFromMetadata_size,
          mdSize, Stat.zero]
    · have hm' : pe.mdLocked = true := by simpa using hm
      simp [getattrRemote, pentryMdLock, hm', bind, Except.bind]
  | loc =>
    cases hfd : pe.fd with
    | none => simp [getattrLocal, hfd]
    | some fd =>
      cases hino : s.fs.inodeOf fd with
      | none => simp [getattrLocal, hfd, hok.sys, LocalFs.fstat, LocalFs.content, hino]
      | some i => simp [getattrLocal, hfd, hok.sys, LocalFs.fstat, LocalFs.content, hino]

end Reading

end DropletFs
