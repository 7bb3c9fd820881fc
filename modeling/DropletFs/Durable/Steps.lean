import DropletFs.Remote.Calls
import DropletFs.Durable.Ledger

/-! Each call keeps the accepted bytes in the store or in the cache. -/

namespace DropletFs

open CText LocalFs

/-- A file none of the names stands for is as it was, and so is its descriptor. -/
theorem LocalFs.Frame.file {names : List Path} {fs fs' : LocalFs} (hw : fs.Wf)
    (hf : Frame names fs fs') {fd : Nat} {f : OpenFile} (hl : fs.fds.lookup fd = some f)
    (hfree : ∀ n ∈ names, fs.files n ≠ some f.inode) :
    fs'.inodeOf fd = fs.inodeOf fd ∧ fs'.content fd = fs.content fd := by
  have hl' := hf.fds fd f hl
  refine ⟨by simp [inodeOf, hl, hl'], ?_⟩
  simp [LocalFs.content, inodeOf, hl, hl', hf.data f.inode (hw.opened fd f hl) hfree]

/-- What a step opens under the names is not another entry's file. -/
theorem LocalFs.OpenOn.ne {names : List Path} {fs fs' : LocalFs} (hw : fs.Wf)
    (hf : Frame names fs fs') {fd k j : Nat} {f : OpenFile} (hl : fs.fds.lookup fd = some f)
    (hfree : ∀ n ∈ names, fs.files n ≠ some f.inode) (hk : fs'.OpenOn names k)
    (hj : fs.inodeOf fd = some j) : fs'.inodeOf k ≠ some j := by
  obtain ⟨i, hi, n, hn, hni⟩ := hk
  rintro hij
  have hjf : f.inode = j := by simpa [inodeOf, hl] using hj
  rw [hi, Option.some.injEq] at hij
  exact hf.unnamed (hw.opened fd f hl) hfree n hn (hni.trans (by rw [hij, hjf]))

section

variable {cx : Ctx} {d : Daemon} {E : Ledger}

/-- What an open needs of the cache and the store to lose nothing: it makes its cache file
under names of its own, or finds it, or downloads the object as what it stands for. -/
def World.OpensKept (cx : Ctx) (w : World) (env : Env) (path : Path) (smode : StateMode) : Prop :=
  if smode = .creat then w.FreeOf (some path) (openNames cx path smode)
  else w.IsLocal path ∨ w.FreeOf none (openNames cx path smode) ∧
    env.sys .renameScratch = none ∧ env.sys .fcloseScratch = none ∧
    ∀ o, w.store.lookup path = some o →
      unpack cx (localName cx path) o.userMeta o.data = decode cx o

/-- What an open leaves, before its handle is given out. -/
structure OpenLeaves (cx : Ctx) (d : Daemon) (path : Path) (smode : StateMode) (a : Addr)
    (w : World) : Prop where
  entry : ∃ qe, w.heap a = some qe ∧ qe.path = path ∧
    (smode = .creat → qe.fd.bind w.fs.content = some []) ∧
    (smode ≠ .creat → cx.conf.regex path = false → w.Synced cx qe ∨
      d.handlesOn a + 1 < qe.refcount ∨ ∃ h ∈ d.handles, h.addr = a ∧ h.flags.acc ≠ .rdonly)
  source : smode ≠ .creat → d.world.IsLocal path ∨ (d.world.store.lookup path).isSome

theorem Durable.dfsOpen {env : Env} {path : Path} {flags : OpenFlags} {ret : Int}
    {fh : Option Addr} {w : World} (hD : Durable cx d E)
    (hk : d.world.OpensKept cx env path (getModeFromFlags flags))
    (h : dfsOpen cx env d.world path flags = .ok (ret, fh, w)) :
    Durable cx ⟨w, d.handles⟩
      (if getModeFromFlags flags = .creat ∧ ret = 0 then E.forget path else E) ∧
    (ret = 0 → ∃ a, fh = some a ∧ OpenLeaves cx d path (getModeFromFlags flags) a w) := by
  obtain ⟨hinv, hkeeps, _⟩ := dfsOpen_inv hD.table h
  have hlive := hD.live.of_keeps hkeeps
  rcases dfsOpen_cases hD.table h with ⟨rfl, rfl, rfl⟩ | ⟨a, u, pe, qe, fs, hl, hpe, rfl, ho, rfl⟩
  · refine ⟨?_, fun h0 => by cases h0⟩
    rw [if_neg (fun e => by cases e.2)]
    exact hD
  generalize hmode : getModeFromFlags flags = smode at hk ho ⊢
  have hDu := hD.looked hl
  have hs := openMode_spec hD.table.wf ho
  have hpp : pe.path = path := by
    obtain ⟨re, hre, hp⟩ := hl.heap
    rw [hpe, Option.some.injEq] at hre
    rw [hre, hp]
  have hloc := hl.isLocal_iff hD.table hpe
  have hsys : smode ≠ .creat → pe.fd = none →
      d.world.FreeOf none (openNames cx path smode) ∧
      env.sys .renameScratch = none ∧ env.sys .fcloseScratch = none ∧
      ∀ o, d.world.store.lookup path = some o →
        unpack cx (localName cx path) o.userMeta o.data = decode cx o := by
    intro hm hn
    rw [World.OpensKept, if_neg hm] at hk
    rcases hk with hk | hk
    · rw [hloc, hn] at hk
      cases hk
    · exact hk
  have hran := openMode_ran (pentryIncRefcount pe) hD.table.wf
    (fun hm hn => ⟨(hsys hm hn).2.1, (hsys hm hn).2.2.1⟩) ho
  -- the files of the other entries
  have hother : ∀ b re fd, b ≠ a → u.heap b = some re → re.fd = some fd →
      ∃ f, d.world.fs.fds.lookup fd = some f ∧ ∀ names but,
        d.world.FreeOf but names → but ≠ some re.path → ∀ n ∈ names,
          d.world.fs.files n ≠ some f.inode := by
    intro b re fd hb hre hfd
    rw [hl.heap_of_ne hb] at hre
    obtain ⟨f, hf, _⟩ := hD.table.opened b re fd hre hfd
    exact ⟨f, hf, fun names but hfree hp =>
      hfree b re fd f.inode hre hp hfd (by simp [inodeOf, hf])⟩
  have hpath : ∀ b re, b ≠ a → u.heap b = some re → re.path ≠ path := by
    intro b re hb hre hp
    have h1 := hl.inv.linked b re hre
    rw [hp, hl.hash, Option.some.injEq] at h1
    exact hb h1.symm
  generalize hqe : (if ret = -1 then qe else { qe with ondisk := .loc }) = qe'
  have hq : qe'.path = path ∧ qe'.fd = qe.fd ∧ qe'.flag = qe.flag ∧ qe'.exclude = pe.exclude ∧
      qe'.refcount = pe.refcount + 1 ∧
      (ret ≠ 0 → qe'.ondisk = pe.ondisk) ∧ (ret = 0 → qe'.ondisk = .loc) := by
    have hp : qe.path = path := hs.update.path.trans hpp
    rw [← hqe]
    split_ifs with hr
    · refine ⟨hp, rfl, rfl, hs.exclude, hs.refcount, fun _ => hs.ondisk, fun h0 => ?_⟩
      rw [h0] at hr
      cases hr
    · refine ⟨hp, rfl, rfl, hs.exclude, hs.refcount, fun h0 => ?_, fun _ => rfl⟩
      rcases hs.result with hres | hres
      · exact (h0 hres.1).elim
      · exact (hr hres.1).elim
  obtain ⟨hq1, hq2, hq3, hq4, hq5, hq6, hq7⟩ := hq
  rw [hqe] at hinv hlive
  have ha' : ({ u.setEntry a qe' with fs := fs } : World).heap a = some qe' :=
    World.setEntry_heap_self u a qe'
  have hex : qe'.exclude = true → cx.conf.regex path = true := by
    rw [hq4, ← hpp]
    exact hDu.excluded a pe hpe
  have hold : cx.conf.regex path = false → EntryOk cx ⟨u, d.handles⟩ E a pe :=
    fun hr => hDu.entry a pe hpe (hpp ▸ hr)
  have hcached := hDu.table.cached a pe hpe
  have hsynced : ∀ fs' : LocalFs, qe'.fd.bind fs'.content = pe.fd.bind u.fs.content →
      u.Synced cx pe → World.Synced cx { u.setEntry a qe' with fs := fs' } qe' :=
    fun fs' hc hsy => hsy.congr (hq1.trans hpp.symm) rfl hc
  have helse : ∀ fs' : LocalFs, (∀ b re fd, b ≠ a → u.heap b = some re → re.fd = some fd →
      fs'.inodeOf fd = u.fs.inodeOf fd ∧ fs'.content fd = u.fs.content fd) →
      Elsewhere a path ⟨u, d.handles⟩ ⟨{ u.setEntry a qe' with fs := fs' }, d.handles⟩ :=
    fun fs' hf => ⟨rfl, fun b hb => World.setEntry_heap_of_ne hb qe', hf, fun _ _ => rfl,
      fun b _ => ⟨rfl, fun h hh _ => hh⟩⟩
  cases hran with
  | kept hfd hflag hret =>
    have hfd' : qe'.fd = pe.fd := hq2.trans hfd
    have hE : ¬(smode = .creat ∧ ret = 0) := fun e => (hret e.2).1 e.1
    have hc : qe'.fd.bind d.world.fs.content = pe.fd.bind u.fs.content := by rw [hfd', hl.fs]
    have hwas : qe'.ondisk = .loc → pe.ondisk = .loc := by
      intro hq
      by_cases h0 : ret = 0
      · exact hcached.mpr (hret h0).2
      · exact hq6 h0 ▸ hq
    rw [if_neg hE]
    refine ⟨hDu.own (helse _ fun b re fd _ _ _ => ?_) hpe hpp ha' hq1 hinv hlive ?_ hex
      (fun _ _ => rfl) fun hr => ?_, fun h0 =>
      ⟨a, rfl, ⟨qe', ha', hq1, fun hm => ?_, fun _ hr => ?_⟩,
        fun _ => .inl (hloc.mpr (hret h0).2)⟩⟩
    · rw [hl.fs]
      exact ⟨rfl, rfl⟩
    · intro b re fd gd i hb hre hbfd hgd hi hij
      rw [hfd'] at hgd
      exact hb (hDu.apart b a re pe fd gd i hre hpe hbfd hgd hi (hl.fs ▸ hij))
    · have he := hold hr
      refine ⟨fun hcl => hsynced _ hc (he.clean (hflag (hq3 ▸ hcl))), fun hlo => ?_,
        fun data hd => ?_,
        fun hlo => ?_⟩
      · rcases he.settled (hwas hlo) with hsy | hlt | hw
        · exact .inl (hsynced _ hc hsy)
        · refine .inr (.inl ?_)
          change d.handlesOn a < qe'.refcount
          change d.handlesOn a < pe.refcount at hlt
          omega
        · exact .inr (.inr hw)
      · rw [hq1, ← hpp]
        exact he.cached data (hc ▸ hd)
      · have h0 : ret ≠ 0 := fun h0 => hlo (hq7 h0)
        rw [hq1, ← hpp]
        exact (he.stored (hq6 h0 ▸ hlo)).congr rfl
    · exact ((hret h0).1 hm).elim
    · rcases (hold hr).settled (hcached.mpr (hret h0).2) with hsy | hlt | hw
      · exact .inl (hsynced _ hc hsy)
      · refine .inr (.inl ?_)
        change d.handlesOn a < pe.refcount at hlt
        omega
      · exact .inr (.inr hw)
  | lost hm hn hfd hflag hf =>
    have hfd' : qe'.fd = none := hq2.trans hfd
    have hfree := (hsys hm hn).1
    have hE : ¬(smode = .creat ∧ (-1 : Int) = 0) := fun e => hm e.1
    rw [if_neg hE]
    refine ⟨hDu.own (helse _ fun b re fd hb hre hbfd => ?_) hpe hpp ha' hq1 hinv hlive ?_ hex
      (fun _ _ => rfl) fun hr => ?_, fun h0 => by cases h0⟩
    · obtain ⟨f, hlk, hno⟩ := hother b re fd hb hre hbfd
      rw [hl.fs]
      exact hf.file hD.table.wf hlk (hno _ _ hfree (by simp))
    · intro b re fd gd i _ _ _ hgd
      rw [hfd'] at hgd
      cases hgd
    · have he := hold hr
      have hnl : ¬pe.ondisk = .loc := by
        rw [hcached]
        change ¬(pentryIncRefcount pe).fd.isSome = true
        rw [hn]
        simp
      refine ⟨fun hcl => ?_, fun hlo => ?_, fun data hd => ?_, fun hlo => ?_⟩
      · obtain ⟨o, data, _, _, hcont⟩ := he.clean (hflag (hq3 ▸ hcl))
        change (pentryIncRefcount pe).fd.bind u.fs.content = some data at hcont
        rw [hn] at hcont
        cases hcont
      · exact (hnl (hq6 (by decide) ▸ hlo)).elim
      · rw [hfd'] at hd
        cases hd
      · rw [hq1, ← hpp]
        exact (he.stored hnl).congr rfl
  | fetched hm hn hfd hf hon ho' hu hc =>
    rename_i k o plain _
    have hfd' : qe'.fd = some k := hq2.trans hfd
    obtain ⟨hfree, _, _, hdec⟩ := hsys hm hn
    have hE : ¬(smode = .creat ∧ (0 : Int) = 0) := fun e => hm e.1
    have hsync : World.Synced cx { u.setEntry a qe' with fs := fs } qe' := by
      refine ⟨o, plain, ?_, (hdec o ho').symm.trans hu, ?_⟩
      · change u.store.lookup qe'.path = some o
        rw [hq1, hl.store, ho']
      · rw [hfd']
        exact hc
    rw [if_neg hE]
    refine ⟨hDu.own (helse _ fun b re fd hb hre hbfd => ?_) hpe hpp ha' hq1 hinv hlive ?_ hex
      (fun _ _ => rfl) fun hr => ?_, fun _ => ⟨a, rfl, ⟨qe', ha', hq1, fun hm' => (hm hm').elim,
        fun _ _ => .inl hsync⟩, fun _ => .inr (by rw [ho']; rfl)⟩⟩
    · obtain ⟨f, hlk, hno⟩ := hother b re fd hb hre hbfd
      rw [hl.fs]
      exact hf.file hD.table.wf hlk (hno _ _ hfree (by simp))
    · intro b re fd gd i hb hre hbfd hgd hi
      obtain ⟨f, hlk, hno⟩ := hother b re fd hb hre hbfd
      rw [hfd', Option.some.injEq] at hgd
      subst hgd
      exact hon.ne hD.table.wf hf hlk (hno _ _ hfree (by simp)) (hl.fs ▸ hi)
    · have he := hold hr
      have hnl : ¬pe.ondisk = .loc := by
        rw [hcached]
        change ¬(pentryIncRefcount pe).fd.isSome = true
        rw [hn]
        simp
      refine ⟨fun _ => hsync, fun _ => .inl hsync, fun data hd => ?_, fun hlo =>
        (hlo (hq7 rfl)).elim⟩
      intro i b hb
      rw [hq1, ← hpp] at hb
      obtain ⟨o', data', hlk, hdc, hi⟩ := he.stored hnl i b hb
      change u.store.lookup pe.path = some o' at hlk
      rw [hpp, hl.store, ho', Option.some.injEq] at hlk
      subst hlk
      rw [hfd'] at hd
      have hd' : fs.content k = some data := hd
      rw [hc, Option.some.injEq] at hd'
      rw [← hdec o ho', hu, Option.some.injEq] at hdc
      rw [← hd', hdc]
      exact hi
  | made hm hfd hflag hf hon hc =>
    rename_i k _
    have hfd' : qe'.fd = some k := hq2.trans hfd
    rw [World.OpensKept, if_pos hm] at hk
    have hcont : qe'.fd.bind fs.content = some [] := by
      rw [hfd']
      exact hc
    rw [if_pos ⟨hm, rfl⟩]
    refine ⟨hDu.own (helse _ fun b re fd hb hre hbfd => ?_) hpe hpp ha' hq1 hinv hlive ?_ hex
      (fun q hq => Function.update_of_ne hq _ _) fun hr => ?_,
      fun _ => ⟨a, rfl, ⟨qe', ha', hq1, fun _ => hcont, fun hm' => (hm' hm).elim⟩,
        fun hm' => (hm' hm).elim⟩⟩
    · obtain ⟨f, hlk, hno⟩ := hother b re fd hb hre hbfd
      rw [hl.fs]
      exact hf.file hD.table.wf hlk (hno _ _ hk (by simpa using (hpath b re hb hre).symm))
    · intro b re fd gd i hb hre hbfd hgd hi
      obtain ⟨f, hlk, hno⟩ := hother b re fd hb hre hbfd
      rw [hfd', Option.some.injEq] at hgd
      subst hgd
      exact hon.ne hD.table.wf hf hlk (hno _ _ hk (by simpa using (hpath b re hb hre).symm))
        (hl.fs ▸ hi)
    · refine ⟨fun hcl => ?_, fun _ => .inr (.inl ?_), fun data hd i b hb => ?_,
        fun hlo => (hlo (hq7 rfl)).elim⟩
      · rw [hq3, hflag] at hcl
        cases hcl
      · have hle := hDu.live.counted a pe hpe
        change d.handlesOn a ≤ pe.refcount at hle
        change d.handlesOn a < qe'.refcount
        omega
      · rw [hq1] at hb
        simp [Ledger.forget] at hb

/-- Forgetting what was accepted asks for less. -/
theorem Durable.forget (hD : Durable cx d E) (path : Path) : Durable cx d (E.forget path) := by
  have hle : ∀ q i b, E.forget path q i = some b → E q i = some b := by
    intro q i b hb
    by_cases hq : q = path
    · simp [Ledger.forget, hq] at hb
    · simpa [Ledger.forget, hq] using hb
  refine ⟨hD.table, hD.live, hD.apart, hD.excluded, fun a pe ha hr => ?_, fun p hp hr => ?_⟩
  · have he := hD.entry a pe ha hr
    exact ⟨he.clean, he.settled, fun data hd i b hb => he.cached data hd i b (hle _ _ _ hb),
      fun hl i b hb => he.stored hl i b (hle _ _ _ hb)⟩
  · exact fun i b hb => hD.absent p hp hr i b (hle _ _ _ hb)

/-- Giving out a handle asks that the entry's content be in the store, or the handle be one
whose release uploads. -/
theorem Durable.grant {w : World} {hs : List Handle} {h : Handle} (hD : Durable cx ⟨w, hs⟩ E)
    (hl : Daemon.Live ⟨w, hs ++ [h]⟩)
    (hset : ∀ pe, w.heap h.addr = some pe → cx.conf.regex pe.path = false → w.Synced cx pe ∨
      Daemon.handlesOn ⟨w, hs⟩ h.addr + 1 < pe.refcount ∨
      (∃ g ∈ hs, g.addr = h.addr ∧ g.flags.acc ≠ .rdonly) ∨ h.flags.acc ≠ .rdonly) :
    Durable cx ⟨w, hs ++ [h]⟩ E := by
  refine ⟨hD.table, hl, hD.apart, hD.excluded, fun a pe ha hr => ?_, hD.absent⟩
  have he := hD.entry a pe ha hr
  refine ⟨he.clean, fun hlo => ?_, he.cached, he.stored⟩
  rw [Daemon.handlesOn_append]
  by_cases hea : h.addr = a
  · subst hea
    rw [if_pos rfl]
    rcases hset pe ha hr with hsy | hlt | ⟨g, hg, hga, hacc⟩ | hacc
    · exact .inl hsy
    · exact .inr (.inl hlt)
    · exact .inr (.inr ⟨g, List.mem_append_left _ hg, hga, hacc⟩)
    · exact .inr (.inr ⟨h, List.mem_append_right _ (List.mem_singleton_self _), rfl, hacc⟩)
  · rw [if_neg hea]
    rcases he.settled hlo with hsy | hlt | ⟨g, hg, hga, hacc⟩
    · exact .inl hsy
    · exact .inr (.inl hlt)
    · exact .inr (.inr ⟨g, List.mem_append_left _ hg, hga, hacc⟩)

theorem opensAnew_iff {env : Env} {w u : World} {path : Path} {flags : OpenFlags} {ret : Int}
    {fh : Option Addr} (hi : w.Inv) (h : dfsOpen cx env w path flags = .ok (ret, fh, u)) :
    opensAnew cx env w path flags = true ↔ getModeFromFlags flags = .creat ∧ ret = 0 := by
  have hg := (dfsOpen_inv hi h).2.2
  rw [opensAnew, h, Bool.and_eq_true, decide_eq_true_eq]
  refine and_congr_right fun _ => ?_
  constructor
  · intro he
    split at he
    · rename_i heq
      simp only [Except.ok.injEq, Prod.mk.injEq] at heq
      exact heq.1
    · cases he
  · rintro rfl
    rcases hg with ⟨_, hg⟩ | hg
    · obtain ⟨a, _, rfl, _⟩ := hg.entry
      rfl
    · cases hg

/-- `dfs_create` describes the entry it opened and puts an empty object in the store. -/
theorem createOpened_effect {env : Env} {st st' : Store} {fs fs' : LocalFs} {path : Path}
    {mode : Nat} {exclude : Bool} {pe pe' : Entry} {ret : Int}
    (h : createOpened env st fs path mode exclude pe = .ok (ret, pe', fs', st')) :
    (∀ fd, fs'.inodeOf fd = fs.inodeOf fd ∧ fs'.content fd = fs.content fd) ∧
    (st' = st ∨ exclude = false ∧ st' = st.insert path (emptyObj .reg)) ∧
    (ret = 0 → exclude = false → st' = st.insert path (emptyObj .reg)) := by
  have hsame : ∀ fd, fs.inodeOf fd = fs.inodeOf fd ∧ fs.content fd = fs.content fd :=
    fun _ => ⟨rfl, rfl⟩
  have hmode : ∀ k fd, (fs.fchmod k mode).inodeOf fd = fs.inodeOf fd ∧
      (fs.fchmod k mode).content fd = fs.content fd := by
    intro k fd
    unfold LocalFs.fchmod
    cases hk : fs.fds.lookup k with
    | none => exact ⟨rfl, rfl⟩
    | some f =>
      refine ⟨rfl, ?_⟩
      simp only [LocalFs.content, LocalFs.chmod, inodeOf]
      cases fs.fds.lookup fd with
      | none => rfl
      | some g =>
        simp only [Option.map_some, Option.some.injEq]
        by_cases hg : g.inode = f.inode
        · simp [hg]
        · simp [hg]
  unfold createOpened at h
  dsimp only at h
  cases hfd : pe.fd with
  | none =>
    simp only [hfd, Except.ok.injEq, Prod.mk.injEq] at h
    obtain ⟨rfl, _, rfl, rfl⟩ := h
    exact ⟨hsame, .inl rfl, fun h0 => by cases h0⟩
  | some fd =>
    rw [hfd] at h
    dsimp only at h
    split at h
    · simp only [Except.ok.injEq, Prod.mk.injEq] at h
      obtain ⟨rfl, _, rfl, rfl⟩ := h
      exact ⟨hsame, .inl rfl, fun h0 => ((Errno.neg_num_lt _).ne h0).elim⟩
    · simp only [Except.ok.injEq, Prod.mk.injEq] at h
      obtain ⟨rfl, _, rfl, rfl⟩ := h
      exact ⟨hsame, .inl rfl, fun h0 => ((Errno.neg_num_lt _).ne h0).elim⟩
    · cases hst : env.sys .fstatCreate with
      | some e =>
        simp only [hst, Except.ok.injEq, Prod.mk.injEq] at h
        obtain ⟨rfl, _, rfl, rfl⟩ := h
        exact ⟨hmode fd, .inl rfl, fun h0 => ((Errno.neg_num_lt _).ne h0).elim⟩
      | none =>
        simp only [hst] at h
        split_ifs at h with h1 h2 h3
        · simp only [Except.ok.injEq, Prod.mk.injEq] at h
          obtain ⟨rfl, _, rfl, rfl⟩ := h
          exact ⟨hmode fd, .inl rfl, fun h0 => by cases h0⟩
        · obtain ⟨pl, hl, h⟩ := Except.bind_ok.mp h
          simp only [Except.ok.injEq, Prod.mk.injEq] at h
          obtain ⟨_, _, rfl, rfl⟩ := h
          exact ⟨hmode fd, .inl rfl, fun _ hx => by simp [hx] at h3⟩
        · obtain ⟨pl, hl, h⟩ := Except.bind_ok.mp h
          rcases dplMknod_cases env st path with hmk | ⟨hmk, hst'⟩
          · rw [hmk] at h
            simp only [Except.ok.injEq, Prod.mk.injEq] at h
            obtain ⟨_, _, rfl, rfl⟩ := h
            exact ⟨hmode fd, .inr ⟨by simpa using h3, rfl⟩, fun _ _ => rfl⟩
          · generalize dplMknod env st path = r at hmk hst' h
            obtain ⟨rc, sr⟩ := r
            dsimp only at hmk hst'
            subst hst'
            cases rc with
            | success => exact (hmk rfl).elim
            | _ =>
              simp only [Except.ok.injEq, Prod.mk.injEq] at h
              obtain ⟨rfl, _, rfl, rfl⟩ := h
              exact ⟨hmode fd, .inl rfl, fun h0 => by cases h0⟩

theorem createOpens_false {env : Env} {s t : World} {path : Path} {mode : Nat}
    {flags : OpenFlags} {ret : Int} {fh : Option Addr}
    (hn : createOpens cx env s path mode = false)
    (h : dfsCreate cx env s path mode flags = .ok (ret, fh, t)) : ret = -1 ∧ t = s := by
  unfold dfsCreate at h
  by_cases hreg : sIsreg mode = true
  · by_cases hx : cx.conf.regex path = true
    · simp [createOpens, hreg, hx] at hn
    · simp only [createOpens, hreg, hx, Bool.true_and, Bool.false_or, Bool.or_eq_false_iff,
        decide_eq_false_iff_not] at hn
      simp only [hreg, hx, Bool.not_true, Bool.false_eq_true, if_false, hn.1, hn.2, ne_eq,
        not_false_eq_true, and_self, if_true, Except.ok.injEq, Prod.mk.injEq] at h
      exact ⟨h.1.symm, h.2.2.symm⟩
  · simp only [hreg, Bool.not_false, if_true, Except.ok.injEq, Prod.mk.injEq] at h
    exact ⟨h.1.symm, h.2.2.symm⟩

theorem decode_emptyObj (cx : Ctx) : decode cx (emptyObj .reg) = some [] := rfl

/-- A create that makes its file anew, before its handle is given out. -/
theorem Durable.dfsCreate {env : Env} {path : Path} {mode : Nat} {flags : OpenFlags} {ret : Int}
    {fh : Option Addr} {w : World} (hD : Durable cx d E) (hm : getModeFromFlags flags = .creat)
    (hk : d.world.FreeOf (some path) (openNames cx path .creat))
    (h : dfsCreate cx env d.world path mode flags = .ok (ret, fh, w)) :
    Durable cx ⟨w, d.handles⟩
      (if createOpens cx env d.world path mode && opensAnew cx env d.world path flags
        then E.forget path else E) ∧
    (ret = 0 → ∃ a pe, fh = some a ∧ w.heap a = some pe ∧ pe.path = path ∧
      (cx.conf.regex path = false → w.Synced cx pe)) := by
  by_cases hco : createOpens cx env d.world path mode = true
  swap
  · obtain ⟨rfl, rfl⟩ := createOpens_false (by simpa using hco) h
    simp only [hco, Bool.false_and, Bool.false_eq_true, if_false]
    exact ⟨hD, fun h0 => by cases h0⟩
  simp only [hco, Bool.true_and]
  have hinv := (dfsCreate_inv hD.table h).1
  have hlive := hD.live.of_keeps (dfsCreate_inv hD.table h).2.1
  rcases dfsCreate_cases h with ⟨rfl, rfl, rfl⟩ | ⟨r, u, ho, hcase⟩
  · refine ⟨?_, fun h0 => by cases h0⟩
    split_ifs
    · exact hD.forget path
    · exact hD
  obtain ⟨hDu, hleaves⟩ := hD.dfsOpen (by rw [World.OpensKept, hm, if_pos rfl]; exact hk) ho
  have hiff := opensAnew_iff hD.table ho
  have hledger : (if opensAnew cx env d.world path flags = true then E.forget path else E) =
      if getModeFromFlags flags = .creat ∧ r = 0 then E.forget path else E := by
    by_cases hb : opensAnew cx env d.world path flags = true
    · rw [if_pos hb, if_pos (hiff.mp hb)]
    · rw [if_neg hb, if_neg (fun e => hb (hiff.mpr e))]
  rw [hledger]
  rcases hcase with ⟨rfl, rfl, _⟩ | ⟨hr, a, pe, pe', fs', st', rfl, ha, hc, rfl⟩
  · exact ⟨hDu, fun h0 => by cases h0⟩
  have h0 : r = 0 := by
    rcases (dfsOpen_inv hD.table ho).2.2 with hret | hret
    · exact hret.1
    · exact (hr hret).elim
  obtain ⟨b, hb, ⟨qe, hqe, hqp, hempty, _⟩, _⟩ := hleaves h0
  obtain rfl : a = b := by simpa using hb
  obtain rfl : qe = pe := by
    rw [ha, Option.some.injEq] at hqe
    exact hqe.symm
  obtain ⟨md, l, hpe', _, _, _⟩ := createOpened_spec (dfsOpen_inv hD.table ho).1.wf hc
  obtain ⟨hfile, hst, hput⟩ := createOpened_effect hc
  generalize (if getModeFromFlags flags = .creat ∧ r = 0 then E.forget path else E) = E' at hDu ⊢
  have hcont : pe'.fd.bind fs'.content = some [] := by
    rw [← hempty hm, hpe']
    cases qe.fd with
    | none => rfl
    | some fd => exact (hfile fd).2
  have ha' : ({ u.setEntry a pe' with fs := fs', store := st' } : World).heap a = some pe' :=
    World.setEntry_heap_self u a pe'
  have hpp : pe'.path = path := by rw [hpe', ← hqp]
  have hsync : st' = u.store.insert path (emptyObj .reg) →
      World.Synced cx { u.setEntry a pe' with fs := fs', store := st' } pe' := by
    intro he
    refine ⟨emptyObj .reg, [], ?_, decode_emptyObj cx, hcont⟩
    rw [hpp, he]
    exact AList.lookup_insert _
  refine ⟨hDu.own (a := a) ⟨rfl, fun b hb => World.setEntry_heap_of_ne hb pe',
    fun b re fd _ _ _ => hfile fd, fun q hq => ?_, fun b _ => ⟨rfl, fun h hh _ => hh⟩⟩
    ha hqp ha' hpp
    hinv hlive ?_ ?_ (fun _ _ => rfl) fun hx => ?_, fun hz => ⟨a, pe', rfl, ha', hpp, fun hx => ?_⟩⟩
  · change st'.lookup q = u.store.lookup q
    rcases hst with rfl | ⟨_, rfl⟩
    · rfl
    · exact AList.lookup_insert_ne hq
  · intro b re fd gd i hbn hre hbfd hgd hi hij
    have hgd' : qe.fd = some gd := by
      rw [hpe'] at hgd
      exact hgd
    rw [show ({ u.setEntry a pe' with fs := fs', store := st' } : World).fs.inodeOf gd =
      u.fs.inodeOf gd from (hfile gd).1] at hij
    exact hbn (hDu.apart b a re qe fd gd i hre ha hbfd hgd' hi hij)
  · intro hxe
    rw [hpe'] at hxe
    exact hxe
  · have he := hDu.entry a qe ha (hqp ▸ hx)
    have hkeep : st' = u.store → u.Synced cx qe →
        World.Synced cx { u.setEntry a pe' with fs := fs', store := st' } pe' := by
      rintro rfl hs
      refine hs.congr (hpp.trans hqp.symm) rfl ?_
      exact hcont.trans (hempty hm).symm
    have hsy : u.Synced cx qe →
        World.Synced cx { u.setEntry a pe' with fs := fs', store := st' } pe' := by
      intro hs
      rcases hst with hst | ⟨_, hst⟩
      · exact hkeep hst hs
      · exact hsync hst
    refine ⟨fun hcl => hsy (he.clean (by rw [hpe'] at hcl; exact hcl)), fun hlo => ?_,
      fun data hd => ?_, fun hlo => ?_⟩
    · rw [hpe'] at hlo
      rcases he.settled hlo with hs | hlt | hw
      · exact .inl (hsy hs)
      · refine .inr (.inl ?_)
        rw [hpe']
        exact hlt
      · exact .inr (.inr hw)
    · rw [hpp, ← hqp]
      refine he.cached data ?_
      change pe'.fd.bind fs'.content = some data at hd
      rw [← hd, hcont]
      exact hempty hm
    · exfalso
      have hsome : qe.fd.isSome := by
        have := hempty hm
        cases hf : qe.fd with
        | none => simp [hf] at this
        | some _ => rfl
      rw [hpe'] at hlo
      exact hlo ((hDu.table.cached a qe ha).mpr hsome)
  · exact hsync (hput hz hx)

end

end DropletFs
