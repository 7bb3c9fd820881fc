import DropletFs.Model.Sample
import DropletFs.Table.Calls

/-! The content of a file across `dfs_open`. -/

namespace DropletFs

open CText LocalFs

/-- The file has an entry that is cached. -/
def World.IsLocal (s : World) (path : Path) : Prop := (s.entry path).map (·.ondisk) = some .loc

instance (s : World) (path : Path) : Decidable (s.IsLocal path) :=
  inferInstanceAs (Decidable (_ = _))

/-- The content of a file: that of its cache file when it is cached, else what the object
stands for. -/
def World.fileBytes (cx : Ctx) (s : World) (path : Path) : Option Bytes :=
  if s.IsLocal path then (s.entry path).bind fun pe => pe.fd.bind s.fs.content
  else (s.store.lookup path).bind fun o => if o.ftype = .reg then decode cx o else none

/-- The handle reads as `bytes`, at every offset and for every size. -/
def World.ReadsAs (s : World) (fh : Addr) (bytes : Bytes) : Prop :=
  ∀ env size offset, env.sys .pread = none →
    dfsRead env s fh size offset =
      .ok (((bytes.drop offset).take size).length, (bytes.drop offset).take size)

/-- What is behind a handle is what reading it yields. -/
theorem World.readsAs_iff {s : World} (hi : s.Inv) {a : Addr} {pe : Entry} {fd : Nat}
    {data : Bytes} (ha : s.heap a = some pe) (hfd : pe.fd = some fd)
    (hc : s.fs.content fd = some data) (bytes : Bytes) : s.ReadsAs a bytes ↔ data = bytes := by
  obtain ⟨f, hf, hcf⟩ := hi.opened a pe fd ha hfd
  have hdata : (s.fs.inodes f.inode).data = data := by
    simpa [LocalFs.content, inodeOf, hf] using hc
  have hread : ∀ env size offset, env.sys .pread = none →
      dfsRead env s a size offset =
        .ok (((data.drop offset).take size).length, (data.drop offset).take size) := by
    intro env size offset hsys
    simp [dfsRead, World.deref, ha, hfd, hsys, hf, hcf.canRead, hdata, bind, Except.bind]
  constructor
  · intro h
    -- one read from the start, of more than either holds
    have h1 := h Env.quiet (data.length + bytes.length) 0 rfl
    rw [hread Env.quiet _ 0 rfl] at h1
    simp only [List.drop_zero, Except.ok.injEq, Prod.mk.injEq] at h1
    rw [List.take_of_length_le (by omega), List.take_of_length_le (by omega)] at h1
    exact h1.2
  · rintro rfl env size offset hsys
    exact hread env size offset hsys

theorem World.isLocal_iff {s : World} {path : Path} {a : Addr} {pe : Entry}
    (hh : s.hash path = some a) (ha : s.heap a = some pe) :
    s.IsLocal path ↔ pe.ondisk = .loc := by
  simp [World.IsLocal, World.entry, hh, ha]

theorem World.not_isLocal {s : World} {path : Path} (hh : s.hash path = none) :
    ¬s.IsLocal path := by
  simp [World.IsLocal, World.entry, hh]

/-- A path is cached when the entry an open finds for it has a descriptor. -/
theorem Looked.isLocal_iff {env : Env} {type : TPathType} {s u : World} {path : Path} {a : Addr}
    {pe : Entry} (hi : s.Inv) (h : Looked env type s path a u) (hpe : u.heap a = some pe) :
    s.IsLocal path ↔ pe.fd.isSome := by
  rcases h.cases with rfl | ⟨hn, rfl, rfl⟩
  · exact (World.isLocal_iff h.hash hpe).trans (hi.cached a pe hpe)
  · have hpfd : pe.fd = none := by
      simp only [World.insertEntry, Function.update_self, Option.some.injEq] at hpe
      rw [← hpe]
      rfl
    simp [hpfd, World.not_isLocal hn]

/-- What a successful open leaves behind its handle. -/
inductive OpenedOn (cx : Ctx) (s : World) (path : Path) (smode : StateMode) :
    Option Bytes → Prop
  | truncated (hm : smode = .creat) : OpenedOn cx s path smode (some [])
  | cached (hm : smode ≠ .creat) (hl : s.IsLocal path) :
      OpenedOn cx s path smode (s.fileBytes cx path)
  | fetched {o plain} (hm : smode ≠ .creat) (hl : ¬s.IsLocal path)
      (ho : s.store.lookup path = some o) (hd : o.ftype ≠ .dir)
      (hu : unpack cx (localName cx path) o.userMeta o.data = some plain) :
      OpenedOn cx s path smode (some plain)

/-- The mode run on an entry, and what is behind the descriptor it leaves. -/
theorem openMode_content {cx : Ctx} {env : Env} {s : World} (hw : s.fs.Wf) {path : Path}
    (pe : Entry) {pe' : Entry} {fs : LocalFs} {smode : StateMode}
    (hren : env.sys .renameScratch = none) (hflush : env.sys .fcloseScratch = none)
    (hl : s.IsLocal path ↔ pe.fd.isSome)
    (hb : pe.fd.isSome → s.fileBytes cx path = pe.fd.bind s.fs.content)
    (h : openMode cx env s.store s.fs path pe smode = .ok (0, pe', fs)) :
    OpenedOn cx s path smode (pe'.fd.bind fs.content) := by
  have hex : smode ≠ .creat → ∀ qe gs ret,
      openExisting cx env s.store s.fs path pe (openFlags smode) = .ok (ret, qe, gs) →
      ret = 0 → OpenedOn cx s path smode (qe.fd.bind gs.content) := by
    intro hm qe gs ret hx h0
    unfold openExisting at hx
    cases hfd : pe.fd with
    | some fd =>
      rw [hfd] at hx
      simp only [Except.ok.injEq, Prod.mk.injEq] at hx
      obtain ⟨_, rfl, rfl⟩ := hx
      have hsome : pe.fd.isSome := by rw [hfd]; rfl
      rw [← hb hsome]
      exact .cached hm (hl.mpr hsome)
    | none =>
      have hnl : ¬s.IsLocal path := by
        rw [hl, hfd]
        simp
      rw [hfd] at hx
      obtain ⟨⟨fd, re, gs'⟩, hg, hx⟩ := Except.bind_ok.mp hx
      simp only [Except.ok.injEq, Prod.mk.injEq] at hx
      obtain ⟨rfl, rfl, rfl⟩ := hx
      cases fd with
      | none => simp at h0
      | some k =>
        rcases (dfsGetLocalCopy_cases hg).2 with ⟨_, hn | hn⟩ | ⟨o, _, hfetch⟩
        · cases hn
        · rw [hfd] at hn
          cases hn
        · have ht : (openFlags smode).trunc = false := by
            cases smode <;> first | rfl | exact (hm rfl).elim
          have hc := fetchObject_content (k := k) hw hren hflush ht (by rw [hfetch])
          rw [hfetch] at hc
          obtain ⟨o, plain, ho, hd, hu, hcont⟩ := hc
          change OpenedOn cx s path smode (gs'.content k)
          rw [hcont]
          exact .fetched hm hnl ho hd hu
  have hwr : smode ≠ .creat →
      openWronly cx env s.store s.fs path pe (openFlags smode) = .ok (0, pe', fs) →
      OpenedOn cx s path smode (pe'.fd.bind fs.content) := by
    intro hm hx
    obtain ⟨⟨r, qe, gs⟩, hg, hx⟩ := Except.bind_ok.mp hx
    simp only [Except.ok.injEq, Prod.mk.injEq] at hx
    obtain ⟨rfl, hq, rfl⟩ := hx
    have := hex hm qe gs 0 hg rfl
    rw [← hq]
    exact this
  unfold openMode at h
  cases smode with
  | rdonly => exact hex (by decide) pe' fs 0 h rfl
  | wronly => exact hwr (by decide) h
  | rdwr => exact hwr (by decide) h
  | creat =>
    simp only [Except.ok.injEq] at h
    unfold openCreat at h
    split at h
    · rename_i fd gs _ ho
      simp only [Prod.mk.injEq] at h
      obtain ⟨_, rfl, rfl⟩ := h
      obtain ⟨i, hop⟩ := openFile_ok ho
      have he := hop.empty (.inl rfl)
      have hc : gs.content fd = some [] := by simp [LocalFs.content, inodeOf, hop.lookup, he]
      change OpenedOn cx s path .creat (gs.content fd)
      rw [hc]
      exact .truncated rfl
    · simp at h

/-- What is behind the handle of a successful open. -/
theorem dfsOpen_content {cx : Ctx} {env : Env} {s t : World} {path : Path} {flags : OpenFlags}
    {a : Addr} (hi : s.Inv) (hren : env.sys .renameScratch = none)
    (hflush : env.sys .fcloseScratch = none)
    (h : dfsOpen cx env s path flags = .ok (0, some a, t)) :
    ∃ pe fd data, t.heap a = some pe ∧ pe.fd = some fd ∧ t.fs.content fd = some data ∧
      OpenedOn cx s path (getModeFromFlags flags) (some data) := by
  have hne : (0 : Int) ≠ -1 := by decide
  have hti := (dfsOpen_inv hi h).1
  rcases dfsOpen_cases hi h with ⟨h0, _, _⟩ | ⟨b, u, pe, qe, fs, hl, hpe, hb, ho, rfl⟩
  · cases h0
  obtain rfl : a = b := by simpa using hb
  have hloc : (s.IsLocal path ↔ pe.fd.isSome) ∧
      (pe.fd.isSome → s.fileBytes cx path = pe.fd.bind s.fs.content) := by
    rcases hl.cases with rfl | ⟨hn, rfl, rfl⟩
    · have hiff := (World.isLocal_iff hl.hash hpe).trans (hi.cached a pe hpe)
      refine ⟨hiff, fun hsome => ?_⟩
      rw [World.fileBytes, if_pos (hiff.mpr hsome)]
      simp [World.entry, hl.hash, hpe]
    · have hpfd : pe.fd = none := by
        simp only [World.insertEntry, Function.update_self, Option.some.injEq] at hpe
        rw [← hpe]
        rfl
      simp [hpfd, World.not_isLocal hn]
  have hc := openMode_content hi.wf (pentryIncRefcount pe) hren hflush hloc.1 hloc.2 ho
  obtain ⟨fd, hfd⟩ : ∃ fd, qe.fd = some fd := by
    rcases (openMode_spec hi.wf ho).result with ⟨_, hs⟩ | ⟨hs, _⟩
    · exact Option.isSome_iff_exists.mp hs
    · cases hs
  rw [hfd, Option.bind_some] at hc
  obtain ⟨f, hf, _⟩ := hti.opened a _ fd (World.setEntry_heap_self u a _)
    (by rw [if_neg hne]; exact hfd)
  obtain ⟨data, hdata⟩ : ∃ data, fs.content fd = some data := by
    have hf' : fs.fds.lookup fd = some f := hf
    exact ⟨_, by simp [LocalFs.content, inodeOf, hf']; rfl⟩
  rw [hdata] at hc
  exact ⟨_, fd, data, World.setEntry_heap_self u a _, by rw [if_neg hne]; exact hfd, hdata, hc⟩

/-- The open does not truncate, and finds the cached file or an object it downloads as what
it stands for; or it truncates an empty file. -/
def PreservesContent (cx : Ctx) (s : World) (path : Path) (flags : OpenFlags) : Prop :=
  if getModeFromFlags flags = .creat then s.fileBytes cx path = some []
  else s.IsLocal path ∨ ∃ o, s.store.lookup path = some o ∧
    unpack cx (localName cx path) o.userMeta o.data = decode cx o

/-- In every reachable state, a successful open leaves the content of a regular file
readable through its handle exactly when it selects no creating mode and needs no
decryption, or the file is empty and is created anew. -/
theorem open_preserves_iff (cx : Ctx) (d : Daemon) (hd : d.Reachable cx) (env : Env)
    (hok : env.AllOk) (path : Path) (flags : OpenFlags) (bytes : Bytes)
    (hb : d.world.fileBytes cx path = some bytes) (a : Addr) (t : World)
    (h : dfsOpen cx env d.world path flags = .ok (0, some a, t)) :
    t.ReadsAs a bytes ↔ PreservesContent cx d.world path flags := by
  have hi := hd.inv
  have hti := (dfsOpen_inv hi h).1
  obtain ⟨pe, fd, data, hpe, hfd, hdata, hon⟩ :=
    dfsOpen_content hi (hok.sys _) (hok.sys _) h
  rw [World.readsAs_iff hti hpe hfd hdata, PreservesContent]
  generalize hz : some data = z at hon
  cases hon with
  | truncated hm =>
    rw [if_pos hm, hb]
    simp only [Option.some.injEq] at hz ⊢
    rw [hz]
    exact eq_comm
  | cached hm hl =>
    rw [if_neg hm]
    rw [hb, Option.some.injEq] at hz
    exact iff_of_true hz (.inl hl)
  | fetched hm hl ho hdir hu =>
    rename_i o plain
    rw [if_neg hm]
    simp only [Option.some.injEq] at hz
    subst hz
    have hdec : decode cx o = some bytes := by
      rw [World.fileBytes, if_neg hl, ho, Option.bind_some] at hb
      split_ifs at hb
      exact hb
    constructor
    · rintro rfl
      exact .inr ⟨o, ho, hu.trans hdec.symm⟩
    · rintro (hl' | ⟨o', ho', he⟩)
      · exact (hl hl').elim
      · rw [ho, Option.some.injEq] at ho'
        subst ho'
        rw [hu, hdec, Option.some.injEq] at he
        exact he

/-- The object `/f` holds one byte. -/
def oneByte : Daemon := Sample.daemon [(['/', 'f'], Sample.file [1])]

theorem open_preserves_readOnly :
    ∃ a t, dfsOpen Sample.plain Env.quiet oneByte.world ['/', 'f'] Sample.readOnly =
      .ok (0, some a, t) ∧ t.ReadsAs a [1] := by
  refine ⟨_, _, rfl, (open_preserves_iff Sample.plain oneByte
    (Sample.daemon_reachable _ _) Env.quiet Env.quiet_allOk ['/', 'f'] Sample.readOnly [1] rfl _ _
    rfl).mpr ?_⟩
  rw [PreservesContent, if_neg (by decide)]
  exact .inr ⟨_, rfl, rfl⟩

/-- Opened write-only, neither `O_CREAT` nor `O_TRUNC` given, it is empty. -/
theorem open_destroys_writeOnly :
    Sample.writeOnly.creat = false ∧ Sample.writeOnly.trunc = false ∧
    oneByte.world.fileBytes Sample.plain ['/', 'f'] = some [1] ∧
    ∃ a t, dfsOpen Sample.plain Env.quiet oneByte.world ['/', 'f'] Sample.writeOnly =
      .ok (0, some a, t) ∧ ¬t.ReadsAs a [1] := by
  refine ⟨rfl, rfl, rfl, _, _, rfl, fun h => ?_⟩
  have hread := h Env.quiet 1 0 rfl
  cases hread

end DropletFs
