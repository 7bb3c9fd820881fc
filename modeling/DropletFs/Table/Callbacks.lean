import DropletFs.Table.OpenSpec
import DropletFs.Model.Getattr
import DropletFs.Model.Namespace
import DropletFs.Model.Release

/-! Callbacks that remove no entry: each keeps the invariant of the table and every entry
in it. -/

namespace DropletFs

open CText LocalFs

/-- What looking up a path, or adding it, leaves. -/
structure Looked (env : Env) (type : TPathType) (s : World) (path : Path) (a : Addr)
    (t : World) : Prop where
  inv : t.Inv
  keeps : s.Keeps t
  hash : t.hash path = some a
  fs : t.fs = s.fs
  store : t.store = s.store
  ring : t.ring = s.ring
  cases : t = s ∨ s.hash path = none ∧ a = s.brk ∧ t = s.insertEntry path (pentryNew env path type)

theorem populateHash_some {env : Env} {s t : World} {path : Path} {type : TPathType} {a : Addr}
    (h : populateHash env s path type = some (a, t)) :
    a = s.brk ∧ t = s.insertEntry path (pentryNew env path type) := by
  unfold populateHash at h
  split_ifs at h with hl
  · simp only [Option.some.injEq, Prod.mk.injEq] at h
    exact ⟨h.1.symm, h.2.symm⟩

theorem lookupOrPopulate_spec {env : Env} {type : TPathType} {s t : World} {path : Path}
    {a : Addr} (hi : s.Inv) (h : lookupOrPopulate env s path type = some (a, t)) :
    Looked env type s path a t := by
  unfold lookupOrPopulate at h
  cases hh : s.hash path with
  | some b =>
    rw [hh] at h
    simp only [Option.some.injEq, Prod.mk.injEq] at h
    obtain ⟨rfl, rfl⟩ := h
    exact ⟨hi, .refl s, hh, rfl, rfl, rfl, .inl rfl⟩
  | none =>
    rw [hh] at h
    obtain ⟨rfl, rfl⟩ := populateHash_some h
    exact ⟨hi.insertEntry hh rfl rfl (by simp [pentryNew]), .insertEntry hi _ _,
      by simp [World.insertEntry], rfl, rfl, rfl, .inr ⟨hh, rfl, rfl⟩⟩

theorem Looked.heap {env : Env} {type : TPathType} {s t : World} {path : Path} {a : Addr}
    (h : Looked env type s path a t) :
    ∃ pe, t.heap a = some pe ∧ pe.path = path := h.inv.entry path a h.hash

theorem Looked.heap_of_ne {env : Env} {type : TPathType} {s u : World} {path : Path} {a b : Addr}
    (h : Looked env type s path a u) (hne : b ≠ a) : u.heap b = s.heap b := by
  rcases h.cases with rfl | ⟨_, rfl, rfl⟩
  · rfl
  · simp [World.insertEntry, hne]

/-- `dfs_open` ran one mode on the entry of the path. -/
theorem dfsOpen_cases {cx : Ctx} {env : Env} {s t : World} {path : Path} {flags : OpenFlags}
    {ret : Int} {fh : Option Addr} (hi : s.Inv)
    (h : dfsOpen cx env s path flags = .ok (ret, fh, t)) :
    ret = -1 ∧ fh = none ∧ t = s ∨
    ∃ a u pe qe fs, Looked env .reg s path a u ∧ u.heap a = some pe ∧ fh = some a ∧
      openMode cx env s.store s.fs path (pentryIncRefcount pe) (getModeFromFlags flags) =
        .ok (ret, qe, fs) ∧
      t = { u.setEntry a (if ret = -1 then qe else { qe with ondisk := .loc }) with fs := fs } := by
  unfold dfsOpen at h
  cases hl : lookupOrPopulate env s path .reg with
  | none =>
    rw [hl] at h
    simp only [Except.ok.injEq, Prod.mk.injEq] at h
    exact .inl ⟨h.1.symm, h.2.1.symm, h.2.2.symm⟩
  | some au =>
    obtain ⟨a, u⟩ := au
    have hlook := lookupOrPopulate_spec hi hl
    rw [hl] at h
    obtain ⟨pe, hpe, h⟩ := Except.bind_ok.mp h
    obtain ⟨⟨r, qe, fs⟩, ho, h⟩ := Except.bind_ok.mp h
    rw [hlook.store, hlook.fs] at ho
    refine .inr ⟨a, u, pe, qe, fs, hlook, World.deref_ok.mp hpe, ?_⟩
    have hret := (openMode_spec hi.wf ho).result
    by_cases hr : r = -1
    · simp only [hr, if_true, Except.ok.injEq, Prod.mk.injEq] at h
      obtain ⟨rfl, rfl, rfl⟩ := h
      exact ⟨rfl, hr ▸ ho, by simp [World.setEntry]⟩
    · have h0 : r = 0 := by
        rcases hret with hret | hret
        · exact hret.1
        · exact (hr hret.1).elim
      simp only [hr, if_false, Except.ok.injEq, Prod.mk.injEq] at h
      obtain ⟨rfl, rfl, rfl⟩ := h
      exact ⟨rfl, h0 ▸ ho, by simp [World.setEntry]⟩

/-- What a handle given out by an open or a create is worth at that moment. -/
structure Granted (s : World) (path : Path) (fh : Option Addr) (t : World) : Prop where
  entry : ∃ a pe, fh = some a ∧ t.heap a = some pe ∧ pe.path = path ∧ pe.fd.isSome ∧
    1 ≤ pe.refcount ∧ ∀ old, s.heap a = some old → old.refcount + 1 ≤ pe.refcount

theorem Granted.update {s t u : World} {path : Path} {fh : Option Addr}
    (h : Granted s path fh t) (hk : t.Keeps u) : Granted s path fh u := by
  obtain ⟨a, pe, hfh, ha, hp, hfd, h1, hr⟩ := h.entry
  obtain ⟨qe, hq, hqp, hqf, hqr⟩ := hk a pe ha
  exact ⟨a, qe, hfh, hq, hqp.trans hp, hqf hfd, h1.trans hqr, fun old ho => (hr old ho).trans hqr⟩

theorem dfsOpen_inv {cx : Ctx} {env : Env} {s t : World} {path : Path} {flags : OpenFlags}
    {ret : Int} {fh : Option Addr} (hi : s.Inv)
    (h : dfsOpen cx env s path flags = .ok (ret, fh, t)) :
    t.Inv ∧ s.Keeps t ∧ (ret = 0 ∧ Granted s path fh t ∨ ret = -1) := by
  rcases dfsOpen_cases hi h with ⟨rfl, rfl, rfl⟩ | ⟨a, u, pe, qe, fs, hl, hpe, rfl, ho, rfl⟩
  · exact ⟨hi, .refl t, .inr rfl⟩
  · have hs := openMode_spec hi.wf ho
    rw [← hl.fs] at hs
    have hpp : pe.path = path := by
      obtain ⟨re, hre, hp⟩ := hl.heap
      rw [hpe, Option.some.injEq] at hre
      rw [hre, hp]
    have hup : Update u.fs pe fs qe := ⟨hs.update.path, hs.update.wf, hs.update.fds, hs.update.fd⟩
    have hc := hl.inv.cached a pe hpe
    have hrc : qe.refcount = pe.refcount + 1 := hs.refcount
    have hfdk : pe.fd.isSome → qe.fd.isSome := by
      rcases hs.result with ⟨_, hfd⟩ | ⟨_, hfd⟩
      · exact fun _ => hfd
      · rw [hfd]
        exact id
    by_cases hr : ret = -1
    · rw [if_pos hr]
      have hfd : qe.fd = pe.fd := by
        rcases hs.result with ⟨h0, _⟩ | ⟨_, hfd⟩
        · rw [h0] at hr
          cases hr
        · exact hfd
      refine ⟨hl.inv.update hpe hup ?_, hl.keeps.trans ?_, .inr hr⟩
      · rw [hs.ondisk, hfd]
        exact hc
      · exact .of_update hpe rfl hup.path hfdk (by omega)
    · rw [if_neg hr]
      obtain ⟨h0, hfd⟩ : ret = 0 ∧ qe.fd.isSome := by
        rcases hs.result with hs | hs
        · exact hs
        · exact (hr hs.1).elim
      refine ⟨hl.inv.update hpe (hup.entry rfl rfl) (by simp [hfd]), hl.keeps.trans ?_,
        .inl ⟨h0, a, _, rfl, World.setEntry_heap_self u a _, ?_, hfd, ?_, ?_⟩⟩
      · exact .of_update hpe rfl hup.path hfdk (show pe.refcount ≤ qe.refcount by omega)
      · exact hup.path.trans hpp
      · change 1 ≤ qe.refcount
        omega
      · intro old hold
        obtain ⟨re, hre, _, _, hrr⟩ := hl.keeps a old hold
        rw [hpe, Option.some.injEq] at hre
        subst hre
        change old.refcount + 1 ≤ qe.refcount
        omega

/-- `dfs_create` changes its entry's metadata and exclusion, and the mode of its file. -/
theorem createOpened_spec {env : Env} {st st' : Store} {fs fs' : LocalFs} {path : Path}
    {mode : Nat} {exclude : Bool} {pe pe' : Entry} {ret : Int} (hw : fs.Wf)
    (h : createOpened env st fs path mode exclude pe = .ok (ret, pe', fs', st')) :
    ∃ md l, pe' = { pe with exclude := exclude, usermd := md, mdLocked := l } ∧
      fs'.fds = fs.fds ∧ fs'.files = fs.files ∧ fs'.Wf := by
  have hmode : ∀ fd, (fs.fchmod fd mode).fds = fs.fds ∧ (fs.fchmod fd mode).files = fs.files := by
    intro fd
    unfold LocalFs.fchmod
    cases fs.fds.lookup fd <;> exact ⟨rfl, rfl⟩
  unfold createOpened at h
  dsimp only at h
  cases hfd : pe.fd with
  | none =>
    rw [hfd] at h
    simp only [Except.ok.injEq, Prod.mk.injEq] at h
    obtain ⟨_, rfl, rfl, _⟩ := h
    exact ⟨pe.usermd, pe.mdLocked, rfl, rfl, rfl, hw⟩
  | some fd =>
    obtain ⟨hf1, hf2⟩ := hmode fd
    have hw' := hw.fchmod fd mode
    rw [hfd] at h
    dsimp only at h
    split at h
    · simp only [Except.ok.injEq, Prod.mk.injEq] at h
      obtain ⟨_, rfl, rfl, _⟩ := h
      exact ⟨pe.usermd, pe.mdLocked, rfl, rfl, rfl, hw⟩
    · simp only [Except.ok.injEq, Prod.mk.injEq] at h
      obtain ⟨_, rfl, rfl, _⟩ := h
      exact ⟨pe.usermd, pe.mdLocked, rfl, rfl, rfl, hw⟩
    · cases hst : env.sys .fstatCreate with
      | some e =>
        simp only [hst, Except.ok.injEq, Prod.mk.injEq] at h
        obtain ⟨_, rfl, rfl, _⟩ := h
        exact ⟨pe.usermd, pe.mdLocked, rfl, hf1, hf2, hw'⟩
      | none =>
        simp only [hst] at h
        split_ifs at h with h1 h2
        · simp only [Except.ok.injEq, Prod.mk.injEq] at h
          obtain ⟨_, rfl, rfl, _⟩ := h
          exact ⟨pe.usermd, pe.mdLocked, rfl, hf1, hf2, hw'⟩
        all_goals
          obtain ⟨pl, hl, h⟩ := Except.bind_ok.mp h
          obtain ⟨_, rfl⟩ := pentryMdLock_ok hl
          dsimp only at h
          obtain ⟨md, hmd⟩ := pentrySetUsermd_snd env
            { pe with fd := some fd, exclude := exclude, mdLocked := true } _
          rw [hmd] at h
        · simp only [Except.ok.injEq, Prod.mk.injEq] at h
          obtain ⟨_, rfl, rfl, _⟩ := h
          exact ⟨md, false, by rw [← hfd]; rfl, hf1, hf2, hw'⟩
        · split at h <;>
          · simp only [Except.ok.injEq, Prod.mk.injEq] at h
            obtain ⟨_, rfl, rfl, _⟩ := h
            exact ⟨md, false, by rw [← hfd]; rfl, hf1, hf2, hw'⟩

/-- `dfs_create` stopped before it opened, stopped at the open, or went on to describe the
entry it opened. -/
theorem dfsCreate_cases {cx : Ctx} {env : Env} {s t : World} {path : Path} {mode : Nat}
    {flags : OpenFlags} {ret : Int} {fh : Option Addr}
    (h : dfsCreate cx env s path mode flags = .ok (ret, fh, t)) :
    ret = -1 ∧ fh = none ∧ t = s ∨
    ∃ r u, dfsOpen cx env s path flags = .ok (r, fh, u) ∧
      (ret = -1 ∧ t = u ∧ (r = -1 ∨ fh = none) ∨
        r ≠ -1 ∧ ∃ a pe pe' fs st, fh = some a ∧ u.heap a = some pe ∧
          createOpened env u.store u.fs path mode (cx.conf.regex path) pe =
            .ok (ret, pe', fs, st) ∧
          t = { u.setEntry a pe' with fs := fs, store := st }) := by
  unfold dfsCreate at h
  dsimp only at h
  generalize (if cx.conf.regex path then Status.success else (dplNamei env s.store path).1) = rc
    at h
  split_ifs at h with h1 h2
  · simp only [Except.ok.injEq, Prod.mk.injEq] at h
    exact .inl ⟨h.1.symm, h.2.1.symm, h.2.2.symm⟩
  · simp only [Except.ok.injEq, Prod.mk.injEq] at h
    exact .inl ⟨h.1.symm, h.2.1.symm, h.2.2.symm⟩
  · obtain ⟨⟨r, gh, u⟩, ho, h⟩ := Except.bind_ok.mp h
    dsimp only at h
    cases gh with
    | none =>
      simp only [Except.ok.injEq, Prod.mk.injEq] at h
      obtain ⟨rfl, rfl, rfl⟩ := h
      exact .inr ⟨r, u, ho, .inl ⟨rfl, rfl, .inr rfl⟩⟩
    | some a =>
      dsimp only at h
      split_ifs at h with h3
      · simp only [Except.ok.injEq, Prod.mk.injEq] at h
        obtain ⟨rfl, rfl, rfl⟩ := h
        exact .inr ⟨r, u, ho, .inl ⟨rfl, rfl, .inl h3⟩⟩
      · obtain ⟨pe, hpe, h⟩ := Except.bind_ok.mp h
        obtain ⟨⟨r', pe', fs', st'⟩, hc, h⟩ := Except.bind_ok.mp h
        simp only [Except.ok.injEq, Prod.mk.injEq] at h
        obtain ⟨rfl, rfl, rfl⟩ := h
        exact .inr ⟨r, u, ho, .inr ⟨h3, a, pe, pe', fs', st', rfl, World.deref_ok.mp hpe, hc, rfl⟩⟩

theorem dfsCreate_inv {cx : Ctx} {env : Env} {s t : World} {path : Path} {mode : Nat}
    {flags : OpenFlags} {ret : Int} {fh : Option Addr} (hi : s.Inv)
    (h : dfsCreate cx env s path mode flags = .ok (ret, fh, t)) :
    t.Inv ∧ s.Keeps t ∧ (Granted s path fh t ∨ ret ≠ 0) := by
  rcases dfsCreate_cases h with ⟨rfl, _, rfl⟩ | ⟨r, u, ho, hcase⟩
  · exact ⟨hi, .refl t, .inr (by decide)⟩
  obtain ⟨hiu, hku, hret⟩ := dfsOpen_inv hi ho
  rcases hcase with ⟨rfl, rfl, _⟩ | ⟨hr, a, pe, pe', fs', st', rfl, ha, hc, rfl⟩
  · exact ⟨hiu, hku, .inr (by decide)⟩
  have hg : Granted s path (some a) u := by
    rcases hret with hret | hret
    · exact hret.2
    · exact (hr hret).elim
  obtain ⟨md, l, hq, hf1, _, hw⟩ := createOpened_spec hiu.wf hc
  have hup : Update u.fs pe fs' pe' :=
    ⟨by rw [hq], hw, fun fd f hf _ => hf1 ▸ hf, .inl (by rw [hq])⟩
  have hk : u.Keeps { u.setEntry a pe' with fs := fs', store := st' } :=
    .of_update ha rfl hup.path (by rw [hq]; exact id) (by rw [hq])
  have hcached : pe'.ondisk = .loc ↔ pe'.fd.isSome := by
    rw [hq]
    exact hiu.cached a pe ha
  exact ⟨(hiu.update ha hup hcached).congr rfl rfl rfl rfl, hku.trans hk, .inl (hg.update hk)⟩

/-- The first test of `set_filetype_from_stat` always holds. -/
theorem setFiletypeFromStat_eq (pe : Entry) (st : Stat) :
    setFiletypeFromStat pe st = { pe with filetype := .reg } := by
  have hbit : st.mode ||| sIfreg ≠ 0 := by
    intro h
    exact absurd (Nat.or_eq_zero_iff.mp h).2 (by decide)
  rw [setFiletypeFromStat, if_pos hbit]

theorem dplGetattrRaw_ok {env : Env} {store : Store} {path : Path} {rc : Status}
    {headers : Option Headers} (h : dplGetattrRaw env store path = (rc, headers))
    (hh : headers.isSome) : ∃ o, store.lookup path = some o ∧ headers = some o.headers := by
  unfold dplGetattrRaw at h
  cases hr : env.remote (.getattrRaw path) with
  | success =>
    rw [hr] at h
    cases ho : store.lookup path with
    | none =>
      simp only [ho, Prod.mk.injEq] at h
      simp [← h.2] at hh
    | some o =>
      simp only [ho, Prod.mk.injEq] at h
      exact ⟨o, rfl, h.2.symm⟩
  | _ =>
    simp only [hr, Prod.mk.injEq] at h
    simp [← h.2] at hh

/-- A first `getattr` either fails and leaves the entry, or finds the object and turns the
entry into a remote one. -/
theorem getattrUnset_spec {env : Env} {store : Store} {pe pe' : Entry} {path : Path}
    {st st' : Stat} {ret : Int} {fill : Bool}
    (h : getattrUnset env store pe path st = .ok (ret, st', pe', fill)) :
    ret ≠ 0 ∧ pe' = pe ∨
    ret = 0 ∧ ∃ o type dict, store.lookup path = some o ∧
      statOfHeaders env { setDefaultStat env type with nlink := 0 } o.headers = .ok (st', dict) ∧
      pe' = { pe with
        usermd := keptUsermd env dict, filetype := .reg, ondisk := .remote,
        mdLocked := false } := by
  have hnop : ∀ {r : Int} {st : Stat}, r ≠ 0 →
      Except.ok (r, st, pe, false) = Except.ok (ε := Fault) (ret, st', pe', fill) →
      ret ≠ 0 ∧ pe' = pe := by
    intro r st hr he
    simp only [Except.ok.injEq, Prod.mk.injEq] at he
    obtain ⟨rfl, _, rfl, _⟩ := he
    exact ⟨hr, rfl⟩
  unfold getattrUnset at h
  cases hn : dplNamei env store path with
  | mk rc type =>
    rw [hn] at h
    by_cases hrc : rc = .success
    · subst hrc
      dsimp only at h
      cases hg : dplGetattrRaw env store path with
      | mk rc headers =>
        rw [hg] at h
        dsimp only at h
        by_cases h1 : rc ≠ .success ∧ rc ≠ .eisdir
        · rw [if_pos h1] at h
          exact .inl (hnop (by decide) h)
        rw [if_neg h1] at h
        by_cases h2 : env.lib .getattrDict = false ∨ env.lib .filterPrefix = false
        · rw [if_pos h2] at h
          exact .inl (hnop (by decide) h)
        rw [if_neg h2] at h
        cases headers with
        | none => cases h
        | some headers =>
          obtain ⟨o, ho, hh⟩ := dplGetattrRaw_ok hg rfl
          obtain ⟨⟨st₂, dict⟩, hst, h⟩ := Except.bind_ok.mp h
          obtain ⟨pl, hl, h⟩ := Except.bind_ok.mp h
          obtain ⟨_, rfl⟩ := pentryMdLock_ok hl
          dsimp only at h
          rw [pentrySetUsermd_eq] at h
          rw [setFiletypeFromStat_eq] at h
          simp only [Except.ok.injEq, Prod.mk.injEq] at h
          obtain ⟨rfl, rfl, rfl, _⟩ := h
          rw [Option.some.injEq] at hh
          exact .inr ⟨rfl, o, _, dict, ho, hh ▸ hst, rfl⟩
    · have hcode : rc.code ≠ 0 := fun hc => hrc (Status.code_eq_zero.mp hc)
      cases rc with
      | success => exact (hrc rfl).elim
      | _ => exact .inl (hnop hcode h)

theorem getattrRemote_spec {pe pe' : Entry} {st st' : Stat} {ret : Int}
    (h : getattrRemote pe st = .ok (ret, st', pe')) :
    ∃ l, pe' = { pe with mdLocked := l } := by
  unfold getattrRemote at h
  obtain ⟨pl, hl, h⟩ := Except.bind_ok.mp h
  obtain ⟨_, rfl⟩ := pentryMdLock_ok hl
  dsimp only at h
  cases hu : pe.usermd with
  | none =>
    simp only [hu, Except.ok.injEq, Prod.mk.injEq] at h
    exact ⟨true, by rw [← h.2.2, ← hu]⟩
  | some md =>
    simp only [hu, Except.ok.injEq, Prod.mk.injEq] at h
    exact ⟨false, by rw [← h.2.2, ← hu]; rfl⟩

/-- An entry updated in place, with its path, descriptor and references as they were. -/
theorem World.Inv.setEntry_keeps {s : World} (hi : s.Inv) {a : Addr} {pe : Entry}
    (ha : s.heap a = some pe) (pe' : Entry) (hp : pe'.path = pe.path) (hf : pe'.fd = pe.fd)
    (hr : pe'.refcount = pe.refcount)
    (ho : pe'.ondisk = pe.ondisk ∨ pe.ondisk = .unset ∧ pe'.ondisk = .remote) :
    (s.setEntry a pe').Inv ∧ s.Keeps (s.setEntry a pe') :=
  ⟨hi.setEntry ha hp hf ho, .of_update ha rfl hp (by rw [hf]; exact id) hr.ge⟩

/-- The ways for `dfs_getattr` to return. -/
inductive Stats (env : Env) (s : World) (path : Path) : Int → Stat → World → Prop
  | root (hr : path = rootPath) :
      Stats env s path 0 { Stat.zero with nlink := 1, mode := sIfdir } s
  | noEntry (hl : lookupOrPopulate env s path (env.rawType path) = none) :
      Stats env s path (-1) { Stat.zero with nlink := 1 } s
  | remote {a u pe pe' ret st} (hr : path ≠ rootPath)
      (hl : lookupOrPopulate env s path (env.rawType path) = some (a, u)) (ha : u.heap a = some pe)
      (ho : pe.ondisk = .remote)
      (hg : getattrRemote pe { Stat.zero with nlink := 1 } = .ok (ret, st, pe')) :
      Stats env s path ret st (u.setEntry a { pe' with atime := env.now })
  | loc {a u pe ret st} (hr : path ≠ rootPath)
      (hl : lookupOrPopulate env s path (env.rawType path) = some (a, u)) (ha : u.heap a = some pe)
      (ho : pe.ondisk = .loc)
      (hg : getattrLocal env u.fs pe { Stat.zero with nlink := 1 } = (ret, st)) :
      Stats env s path ret st (u.setEntry a { pe with atime := env.now })
  | unset {a u pe pe' ret st fill} (hr : path ≠ rootPath)
      (hl : lookupOrPopulate env s path (env.rawType path) = some (a, u)) (ha : u.heap a = some pe)
      (ho : pe.ondisk = .unset)
      (hg : getattrUnset env u.store pe path { Stat.zero with nlink := 1 } =
        .ok (ret, st, pe', fill)) :
      Stats env s path ret st (if fill
        then hashFillDirent (u.setEntry a { pe' with atime := env.now }) path
        else u.setEntry a { pe' with atime := env.now })

theorem dfsGetattr_cases {env : Env} {s t : World} {path : Path} {ret : Int} {st : Stat}
    (h : dfsGetattr env s path = .ok (ret, st, t)) : Stats env s path ret st t := by
  unfold dfsGetattr at h
  dsimp only at h
  by_cases hr : path = rootPath
  · simp only [hr, if_true, Except.ok.injEq, Prod.mk.injEq] at h
    obtain ⟨rfl, rfl, rfl⟩ := h
    exact .root hr
  rw [if_neg hr] at h
  cases hl : lookupOrPopulate env s path (env.rawType path) with
  | none =>
    simp only [hl, Except.ok.injEq, Prod.mk.injEq] at h
    obtain ⟨rfl, rfl, rfl⟩ := h
    exact .noEntry hl
  | some au =>
    obtain ⟨a, u⟩ := au
    rw [hl] at h
    obtain ⟨pe, hpe, h⟩ := Except.bind_ok.mp h
    have ha := World.deref_ok.mp hpe
    cases ho : pe.ondisk with
    | remote =>
      rw [ho] at h
      obtain ⟨⟨r, st', pe'⟩, hg, h⟩ := Except.bind_ok.mp h
      simp only [Except.ok.injEq, Prod.mk.injEq] at h
      obtain ⟨rfl, rfl, rfl⟩ := h
      exact .remote hr hl ha ho hg
    | loc =>
      rw [ho] at h
      generalize hg : getattrLocal env u.fs pe { Stat.zero with nlink := 1 } = r at h
      simp only [Except.ok.injEq, Prod.mk.injEq] at h
      obtain ⟨rfl, rfl, rfl⟩ := h
      have hs := Stats.loc hr hl ha ho hg
      rwa [ho] at hs
    | unset =>
      rw [ho] at h
      obtain ⟨⟨r, st', pe', fill⟩, hg, h⟩ := Except.bind_ok.mp h
      simp only [Except.ok.injEq, Prod.mk.injEq] at h
      obtain ⟨rfl, rfl, rfl⟩ := h
      exact .unset hr hl ha ho hg

theorem hashFillDirent_keeps {s : World} (hi : s.Inv) (path : Path) :
    (hashFillDirent s path).Inv ∧ s.Keeps (hashFillDirent s path) := by
  unfold hashFillDirent
  cases beforeLastSlash path with
  | none => exact ⟨hi, .refl s⟩
  | some d =>
    exact ⟨hi.onEntry (fun _ => rfl) (fun _ => rfl) (fun _ => rfl),
      .onEntry (fun _ => rfl) (fun _ => rfl) (fun _ => rfl)⟩

theorem dfsGetattr_inv {env : Env} {s t : World} {path : Path} {ret : Int} {st : Stat}
    (hi : s.Inv) (h : dfsGetattr env s path = .ok (ret, st, t)) : t.Inv ∧ s.Keeps t := by
  cases dfsGetattr_cases h with
  | root => exact ⟨hi, .refl s⟩
  | noEntry => exact ⟨hi, .refl s⟩
  | remote hr hl ha ho hg =>
    rename_i a u pe pe'
    have hlook := lookupOrPopulate_spec hi hl
    obtain ⟨l, hq⟩ := getattrRemote_spec hg
    obtain ⟨h1, h2⟩ := hlook.inv.setEntry_keeps ha { pe' with atime := env.now }
      (by rw [hq]) (by rw [hq]) (by rw [hq]) (.inl (by rw [hq]))
    exact ⟨h1, hlook.keeps.trans h2⟩
  | loc hr hl ha ho hg =>
    rename_i a u pe
    have hlook := lookupOrPopulate_spec hi hl
    obtain ⟨h1, h2⟩ := hlook.inv.setEntry_keeps ha { pe with atime := env.now } rfl rfl rfl
      (.inl rfl)
    exact ⟨h1, hlook.keeps.trans h2⟩
  | unset hr hl ha ho hg =>
    rename_i a u pe pe' fill
    have hlook := lookupOrPopulate_spec hi hl
    have hset : (u.setEntry a { pe' with atime := env.now }).Inv ∧
        u.Keeps (u.setEntry a { pe' with atime := env.now }) := by
      rcases getattrUnset_spec hg with ⟨_, rfl⟩ | ⟨_, o, type, dict, _, _, rfl⟩
      · exact hlook.inv.setEntry_keeps ha _ rfl rfl rfl (.inl rfl)
      · exact hlook.inv.setEntry_keeps ha _ rfl rfl rfl (.inr ⟨ho, rfl⟩)
    have hfill := hashFillDirent_keeps hset.1 path
    split_ifs
    · exact ⟨hfill.1, (hlook.keeps.trans hset.2).trans hfill.2⟩
    · exact ⟨hset.1, hlook.keeps.trans hset.2⟩

theorem changeCacheFile_some {env : Env} {fs fs' : LocalFs} {pe : Entry}
    {change : LocalFs → Nat → LocalFs} {call : SysCall}
    (h : changeCacheFile env fs pe change call = some fs') :
    fs' = fs ∨ ∃ fd, pe.fd = some fd ∧ fs' = change fs fd := by
  unfold changeCacheFile at h
  cases hfd : pe.fd with
  | none =>
    simp only [hfd, Option.some.injEq] at h
    exact .inl h.symm
  | some fd =>
    rw [hfd] at h
    dsimp only at h
    split_ifs at h
    · simp only [Option.some.injEq] at h
      exact .inl h.symm
    · split at h
      · simp only [Option.some.injEq] at h
        exact .inr ⟨fd, rfl, h.symm⟩
      · simp only [Option.some.injEq] at h
        exact .inl h.symm
      · cases h

/-- What `dfs_chmod` and `dfs_chown` leave: the entry with new metadata, and the cache
file changed or not. -/
theorem setAttributes_cases {env : Env} {s t : World} {path : Path} {upd : Dict → Dict}
    {change : LocalFs → Nat → LocalFs} {call : SysCall} {ret : Int}
    (h : setAttributes env s path upd change call = .ok (ret, t)) :
    t = s ∨ ∃ a pe md fs st, s.hash path = some a ∧ s.heap a = some pe ∧
      (fs = s.fs ∨ ∃ fd, pe.fd = some fd ∧ fs = change s.fs fd) ∧
      (st = s.store ∨ st = (dplSetattr env s.store path md).2) ∧
      t = { s.setEntry a { pe with usermd := some md, mdLocked := false } with
        fs := fs, store := st } := by
  unfold setAttributes at h
  cases ha : s.hash path with
  | none =>
    simp only [ha, Except.ok.injEq, Prod.mk.injEq] at h
    exact .inl h.2.symm
  | some a =>
    rw [ha] at h
    obtain ⟨pe, hpe, h⟩ := Except.bind_ok.mp h
    have hpe := World.deref_ok.mp hpe
    cases hu : pe.usermd with
    | none => simp [hu] at h
    | some md =>
      rw [hu] at h
      obtain ⟨pl, hl, h⟩ := Except.bind_ok.mp h
      obtain ⟨_, rfl⟩ := pentryMdLock_ok hl
      refine .inr ⟨a, pe, upd md, ?_⟩
      dsimp only at h
      split at h
      · simp only [Except.ok.injEq, Prod.mk.injEq] at h
        exact ⟨s.fs, s.store, rfl, hpe, .inl rfl, .inl rfl, h.2.symm⟩
      · rename_i fs hfs
        simp only [Except.ok.injEq, Prod.mk.injEq] at h
        exact ⟨fs, _, rfl, hpe, changeCacheFile_some hfs, .inr rfl, h.2.symm⟩

/-- `dfs_chmod` and `dfs_chown`, for any change of the cache file that leaves names and
descriptors alone. -/
theorem setAttributes_inv {env : Env} {s t : World} {path : Path} {upd : Dict → Dict}
    {change : LocalFs → Nat → LocalFs} {call : SysCall} {ret : Int} (hi : s.Inv)
    (hw : ∀ fs fd, LocalFs.Wf fs → (change fs fd).Wf) (hf : ∀ fs fd, (change fs fd).fds = fs.fds)
    (h : setAttributes env s path upd change call = .ok (ret, t)) : t.Inv ∧ s.Keeps t := by
  rcases setAttributes_cases h with rfl | ⟨a, pe, md, fs, st, _, ha, hfs, _, rfl⟩
  · exact ⟨hi, .refl t⟩
  · have hfs' : fs.Wf ∧ fs.fds = s.fs.fds := by
      rcases hfs with rfl | ⟨fd, _, rfl⟩
      · exact ⟨hi.wf, rfl⟩
      · exact ⟨hw _ _ hi.wf, hf _ _⟩
    obtain ⟨h1, h2⟩ := hi.setEntry_keeps ha { pe with usermd := some md, mdLocked := false } rfl
      rfl rfl (.inl rfl)
    exact ⟨(h1.withFs hfs'.1 hfs'.2).congr rfl rfl rfl rfl, h2.trans (.of_heap rfl)⟩

theorem dfsChmod_inv {env : Env} {s t : World} {path : Path} {mode : Nat} {ret : Int}
    (hi : s.Inv) (h : dfsChmod env s path mode = .ok (ret, t)) : t.Inv ∧ s.Keeps t := by
  refine setAttributes_inv hi (fun fs fd hw => hw.fchmod fd mode) (fun fs fd => ?_) h
  unfold LocalFs.fchmod
  cases fs.fds.lookup fd <;> rfl

theorem dfsChown_inv {env : Env} {s t : World} {path : Path} {uid gid : Nat} {ret : Int}
    (hi : s.Inv) (h : dfsChown env s path uid gid = .ok (ret, t)) : t.Inv ∧ s.Keeps t := by
  refine setAttributes_inv hi (fun fs fd hw => ?_) (fun fs fd => ?_) h
  · unfold LocalFs.fchown
    cases fs.fds.lookup fd with
    | none => exact hw
    | some f => exact ⟨hw.named, hw.opened, hw.inj⟩
  · unfold LocalFs.fchown
    cases fs.fds.lookup fd <;> rfl

/-- `dfs_write` writes through the descriptor of its entry, or does nothing. -/
theorem dfsWrite_cases {env : Env} {s t : World} {fh : Addr} {buf : Bytes} {offset : Nat}
    {ret : Int} (h : dfsWrite env s fh buf offset = .ok (ret, t)) :
    ∃ pe, s.heap fh = some pe ∧ (t = s ∧ (pe.fd = none ∨ ret < 0) ∨
      ∃ fd f, pe.fd = some fd ∧ s.fs.fds.lookup fd = some f ∧ f.acc.canWrite = true ∧
        ret = (env.written buf).length ∧
        t = { s with
          fs := s.fs.writeInode f.inode
            (pokeBytes (s.fs.inodes f.inode).data offset (env.written buf)) }) := by
  unfold dfsWrite at h
  obtain ⟨pe, hpe, h⟩ := Except.bind_ok.mp h
  refine ⟨pe, World.deref_ok.mp hpe, ?_⟩
  cases hfd : pe.fd with
  | none =>
    simp only [hfd, Except.ok.injEq, Prod.mk.injEq] at h
    exact .inl ⟨h.2.symm, .inl rfl⟩
  | some fd =>
    rw [hfd] at h
    dsimp only at h
    split at h
    · rename_i f _ hf
      by_cases hc : f.acc.canWrite = true
      · simp only [hc, if_true, Except.ok.injEq, Prod.mk.injEq] at h
        exact .inr ⟨fd, f, rfl, hf, hc, h.1.symm, h.2.symm⟩
      · simp only [hc, Bool.false_eq_true, if_false, Except.ok.injEq, Prod.mk.injEq] at h
        exact .inl ⟨h.2.symm, .inr (h.1 ▸ Errno.neg_num_lt _)⟩
    · simp only [Except.ok.injEq, Prod.mk.injEq] at h
      exact .inl ⟨h.2.symm, .inr (h.1 ▸ Errno.neg_num_lt _)⟩
    · simp only [Except.ok.injEq, Prod.mk.injEq] at h
      exact .inl ⟨h.2.symm, .inr (h.1 ▸ Errno.neg_num_lt _)⟩

theorem dfsWrite_inv {env : Env} {s t : World} {fh : Addr} {buf : Bytes} {offset : Nat}
    {ret : Int} (hi : s.Inv) (h : dfsWrite env s fh buf offset = .ok (ret, t)) :
    t.Inv ∧ s.Keeps t := by
  obtain ⟨pe, _, ⟨rfl, _⟩ | ⟨fd, f, _, _, _, _, rfl⟩⟩ := dfsWrite_cases h
  · exact ⟨hi, .refl t⟩
  · exact ⟨hi.withFs (hi.wf.writeInode _ _) rfl, .of_heap rfl⟩

theorem dfsMkdir_inv {env : Env} {s : World} {path : Path} (hi : s.Inv) :
    (dfsMkdir env s path).2.Inv ∧ s.Keeps (dfsMkdir env s path).2 := by
  have hst : ∀ st, { s with store := st }.Inv := fun st => hi.congr rfl rfl rfl rfl
  have hk : ∀ st, s.Keeps { s with store := st } := fun st => .of_heap rfl
  unfold dfsMkdir
  split
  · rename_i st _
    dsimp only
    split
    · exact ⟨(hst st).onEntry (fun _ => rfl) (fun _ => rfl) (fun _ => rfl),
        (hk st).trans (.onEntry (fun _ => rfl) (fun _ => rfl) (fun _ => rfl))⟩
    · rename_i hn
      split
      · rename_i a u hp
        obtain ⟨_, rfl⟩ := populateHash_some hp
        exact ⟨(hst st).insertEntry hn rfl rfl (by simp [pentryNew]),
          (hk st).trans (.insertEntry (hst st) _ _)⟩
      · exact ⟨hst st, hk st⟩
  · exact ⟨hst _, hk _⟩

theorem dfsMknod_inv {env : Env} {s : World} {path : Path} (hi : s.Inv) :
    (dfsMknod env s path).2.Inv ∧ s.Keeps (dfsMknod env s path).2 := by
  unfold dfsMknod
  split <;> exact ⟨hi.congr rfl rfl rfl rfl, .of_heap rfl⟩

/-- `dfs_symlink` works on the store only. -/
theorem dfsSymlink_cases {cx : Ctx} {env : Env} {s t : World} {oldpath newpath : Path}
    {ret : Int} (h : dfsSymlink cx env s oldpath newpath = .ok (ret, t)) :
    ∃ st, t = { s with store := st } := by
  unfold dfsSymlink at h
  split at h
  · rename_i st _
    dsimp only at h
    by_cases hdict : (!env.lib .symlinkDict) = true
    · simp only [if_pos hdict, Except.ok.injEq, Prod.mk.injEq] at h
      exact ⟨st, h.2.symm⟩
    rw [if_neg hdict] at h
    obtain ⟨opath, _, h⟩ := Except.bind_ok.mp h
    split_ifs at h
    · simp only [Except.ok.injEq, Prod.mk.injEq] at h
      exact ⟨st, h.2.symm⟩
    · split at h <;>
      · simp only [Except.ok.injEq, Prod.mk.injEq] at h
        exact ⟨_, h.2.symm⟩
  · simp only [Except.ok.injEq, Prod.mk.injEq] at h
    exact ⟨_, h.2.symm⟩

theorem dfsSymlink_inv {cx : Ctx} {env : Env} {s t : World} {oldpath newpath : Path}
    {ret : Int} (hi : s.Inv) (h : dfsSymlink cx env s oldpath newpath = .ok (ret, t)) :
    t.Inv ∧ s.Keeps t := by
  obtain ⟨st, rfl⟩ := dfsSymlink_cases h
  exact ⟨hi.congr rfl rfl rfl rfl, .of_heap rfl⟩

theorem World.tmpstrPrintf_ok {s t : World} {args : List Str} {p : Str}
    (h : s.tmpstrPrintf args = .ok (p, t)) :
    .tmp s.ring.next ∉ args ∧ p = .tmp s.ring.next ∧
    t = { s with ring := s.ring.push (snprintf tmpstrMax (args.flatMap s.text)) } := by
  unfold World.tmpstrPrintf at h
  split_ifs at h with ho
  · simp only [Except.ok.injEq, Prod.mk.injEq] at h
    exact ⟨ho, h.1.symm, h.2.symm⟩

theorem dfsRmdir_inv {cx : Ctx} {env : Env} {s t : World} {path : Str} {ret : Int}
    (hi : s.Inv) (h : dfsRmdir cx env s path = .ok (ret, t)) : t.Inv ∧ s.Keeps t := by
  unfold dfsRmdir at h
  dsimp only at h
  split at h
  · obtain ⟨⟨p, u⟩, ht, h⟩ := Except.bind_ok.mp h
    obtain ⟨_, _, rfl⟩ := World.tmpstrPrintf_ok ht
    simp only [Except.ok.injEq, Prod.mk.injEq] at h
    obtain ⟨_, rfl⟩ := h
    have hf := fun (qe : Entry) p => pentryRemoveDirent_fields qe p
    refine ⟨World.Inv.onEntry ?_ (fun qe => (hf qe _).1) (fun qe => (hf qe _).2.1)
      (fun qe => (hf qe _).2.2.1), World.Keeps.trans ?_ (.onEntry (fun qe => (hf qe _).1)
        (fun qe => (hf qe _).2.1) (fun qe => (hf qe _).2.2.2))⟩
    · exact hi.congr rfl rfl rfl rfl
    · exact .of_heap rfl
  · simp only [Except.ok.injEq, Prod.mk.injEq] at h
    obtain ⟨_, rfl⟩ := h
    exact ⟨hi.congr rfl rfl rfl rfl, .of_heap rfl⟩

/-- The cache file of a path, as `dfs_release` and `dfs_unlink` spell it. -/
def slashName (cx : Ctx) (path : Path) : Path := tmpstr (cx.conf.cacheDir ++ ['/'] ++ path)

section Release

variable {cx : Ctx} {env : Env} {st : Store} {fs : LocalFs} {path : Path}

theorem overwrite_fds (fs : LocalFs) (name : Path) (data : Bytes) :
    (fs.overwrite name data).fds = fs.fds := by
  unfold LocalFs.overwrite
  cases fs.files (collapse name) <;> rfl

variable (cx env) in
theorem zipUpload_frame (fd : Nat) (locname zlocal : Path) (size : Nat) (dict : Dict)
    (hw : fs.Wf) :
    Frame [collapse zlocal] fs (zipUpload cx env fs fd locname zlocal size dict).2 ∧
    (zipUpload cx env fs fd locname zlocal size dict).2.Wf ∧
    (zipUpload cx env fs fd locname zlocal size dict).2.fds = fs.fds := by
  have h0 := Frame.refl [collapse zlocal] fs
  unfold zipUpload
  split
  · split_ifs with h1
    · exact ⟨h0, hw, rfl⟩
    · dsimp only
      have h2 := fun z => (h0.overwrite (List.mem_singleton_self _) []).overwrite
        (List.mem_singleton_self _) z
      have h3 := fun z => (hw.overwrite zlocal []).overwrite zlocal z
      split_ifs <;>
        exact ⟨h2 _, h3 _, by rw [overwrite_fds, overwrite_fds]⟩
  · exact ⟨h0, hw, rfl⟩

variable (cx env fs path) in
/-- The cache files an upload leaves, with the descriptor of the entry where it was. -/
def uploadFiles (fd : Nat) (stat : Stat) : LocalFs :=
  if env.lib .releaseDict ∧ startsWithNoCase cx.conf.compressionMethod textZlib = true then
    (zipUpload cx env fs fd (slashName cx path) (scratchName (slashName cx path))
      (toU64 stat.size) (fillMetadataFromStat env Dict.empty stat)).2.tryUnlink env .unlinkScratch
        (scratchName (slashName cx path))
  else fs

/-- An upload that does not come to compression does not touch the cache. -/
theorem uploadFiles_same (hz : startsWithNoCase cx.conf.compressionMethod textZlib = true →
    env.lib .releaseDict = false) (fd : Nat) (stat : Stat) :
    uploadFiles cx env fs path fd stat = fs := by
  unfold uploadFiles
  rw [if_neg]
  rintro ⟨hd, hc⟩
  rw [hz hc] at hd
  cases hd

theorem tryUnlink_sentFrom (call : SysCall) (fd : Nat) (up : Upload) (n : Nat) (name : Path) :
    (fs.sentFrom fd up n).tryUnlink env call name =
      (fs.tryUnlink env call name).sentFrom fd up n := by
  unfold LocalFs.sentFrom LocalFs.advance LocalFs.tryUnlink LocalFs.unlink
  split_ifs
  · cases fs.fds.lookup fd <;> rfl
  all_goals rfl

/-- What has been read through a descriptor shows in its offset only. -/
theorem sentFrom_setOffset (fd : Nat) (up : Upload) (n : Nat) :
    (fs.sentFrom fd up n).setOffset fd 0 = fs.setOffset fd 0 := by
  unfold LocalFs.sentFrom
  split_ifs
  · exact advance_setOffset fs fd n 0
  · rfl

variable (cx env st fs path) in
/-- An upload moves the descriptor of the entry, and does nothing else to it. -/
theorem releaseUpload_moves (fd : Nat) (stat : Stat) :
    (releaseUpload cx env st fs path fd stat).2.1 = uploadFiles cx env fs path fd stat ∨
    ∃ up n, (releaseUpload cx env st fs path fd stat).2.1 =
      (uploadFiles cx env fs path fd stat).sentFrom fd up n := by
  unfold releaseUpload uploadFiles slashName
  dsimp only
  by_cases h1 : env.lib .releaseDict = true
  · rw [if_neg (by simp [h1])]
    by_cases h2 : startsWithNoCase cx.conf.compressionMethod textZlib = true
    · rw [if_pos h2, if_pos ⟨h1, h2⟩]
      generalize zipUpload cx env fs fd _ _ _ _ = zipped
      obtain ⟨up | up, fs'⟩ := zipped
      · exact .inl rfl
      · exact .inr ⟨up, (sendUpload cx env st path up).2.2, tryUnlink_sentFrom _ _ _ _ _⟩
    · rw [if_neg h2, if_neg fun h => h2 h.2]
      let up : Upload :=
        ⟨fs.remaining fd, true, toU64 stat.size, fillMetadataFromStat env Dict.empty stat⟩
      exact .inr ⟨up, (sendUpload cx env st path up).2.2, rfl⟩
  · rw [if_pos (by simp [h1]), if_neg fun h => h1 h.1]
    exact .inl rfl

variable (cx env st fs path) in
/-- Once the descriptor is back at its start, nothing tells how far an upload has come. -/
theorem releaseUpload_reset (fd : Nat) (stat : Stat) :
    (releaseUpload cx env st fs path fd stat).2.1.setOffset fd 0 =
      (uploadFiles cx env fs path fd stat).setOffset fd 0 := by
  obtain h | ⟨up, n, h⟩ := releaseUpload_moves cx env st fs path fd stat
  · rw [h]
  · rw [h, sentFrom_setOffset]

variable (cx env path) in
/-- The upload works on the scratch file of its path, and on no other. -/
theorem uploadFiles_frame (hw : fs.Wf) (fd : Nat) (stat : Stat) :
    Frame [collapse (scratchName (slashName cx path))] fs
      (uploadFiles cx env fs path fd stat) ∧
    (uploadFiles cx env fs path fd stat).Wf ∧
    (uploadFiles cx env fs path fd stat).fds = fs.fds := by
  unfold uploadFiles
  split_ifs with h
  · obtain ⟨h3, h4, h5⟩ := zipUpload_frame cx env fd
      (slashName cx path) (scratchName (slashName cx path)) (toU64 stat.size)
      (fillMetadataFromStat env Dict.empty stat) hw
    exact ⟨h3.tryUnlink env _ (List.mem_singleton_self _), h4.tryUnlink env _ _, by simpa using h5⟩
  · exact ⟨Frame.refl _ fs, hw, rfl⟩

theorem setOffset_lookup {fd k : Nat} {f : OpenFile} (h : fs.fds.lookup k = some f)
    (hf : CacheFile f) : (fs.setOffset fd 0).fds.lookup k = some f := by
  unfold LocalFs.setOffset
  cases hg : fs.fds.lookup fd with
  | none => exact h
  | some g =>
    by_cases he : k = fd
    · subst he
      rw [h, Option.some.injEq] at hg
      subst hg
      simp [← hf.1]
    · simpa [AList.lookup_insert_ne he] using h

theorem pentryDecRefcount_ok {pe pe' : Entry} (h : pentryDecRefcount pe = .ok pe') :
    0 < pe.refcount ∧ pe' = { pe with refcount := pe.refcount - 1 } := by
  unfold pentryDecRefcount at h
  split_ifs at h with h0
  · simp only [Except.ok.injEq] at h
    exact ⟨Nat.pos_of_ne_zero h0, h.symm⟩

/-- A release gives back at most one reference, and leaves path, descriptor and place. -/
structure Released (fs : LocalFs) (pe : Entry) (fs' : LocalFs) (pe' : Entry) : Prop where
  update : Update fs pe fs' pe'
  fields : pe' = { pe with refcount := pe'.refcount, flag := pe'.flag, locked := pe'.locked }
  fd : pe'.fd = pe.fd
  ondisk : pe'.ondisk = pe.ondisk
  exclude : pe'.exclude = pe.exclude
  usermd : pe'.usermd = pe.usermd
  unlocked : pe.locked = false → pe'.locked = false
  refcount : pe.refcount ≤ pe'.refcount + 1

theorem releaseEntry_spec {st' : Store} {fs' : LocalFs} {flags : OpenFlags} {pe pe' : Entry}
    {ret : Int} (hw : fs.Wf)
    (h : releaseEntry cx env st fs path flags pe = .ok (ret, pe', fs', st')) :
    Released fs pe fs' pe' := by
  unfold releaseEntry at h
  cases hfd : pe.fd with
  | none =>
    simp only [hfd, Except.ok.injEq, Prod.mk.injEq] at h
    obtain ⟨_, rfl, rfl, _⟩ := h
    exact ⟨(Update.refl hw pe).entry rfl rfl, rfl, hfd ▸ rfl, rfl, rfl, rfl, fun _ => rfl,
      Nat.le_succ _⟩
  | some fd =>
    rw [hfd] at h
    dsimp only at h
    split at h
    · rename_i stat _ _
      obtain ⟨qe, hq, h⟩ := Except.bind_ok.mp h
      obtain ⟨hpos, rfl⟩ := pentryDecRefcount_ok hq
      have hr : pe.refcount ≤ pe.refcount - 1 + 1 := by omega
      split_ifs at h with h1 h2
      · simp only [Except.ok.injEq, Prod.mk.injEq] at h
        obtain ⟨_, rfl, rfl, _⟩ := h
        exact ⟨(Update.refl hw pe).entry rfl rfl, rfl, rfl, rfl, rfl, rfl, id, hr⟩
      · simp only [Except.ok.injEq, Prod.mk.injEq] at h
        obtain ⟨_, rfl, rfl, _⟩ := h
        exact ⟨(Update.refl hw pe).entry rfl rfl, rfl, rfl, rfl, rfl, rfl, fun _ => rfl, hr⟩
      · simp only [Except.ok.injEq, Prod.mk.injEq] at h
        obtain ⟨_, rfl, rfl, _⟩ := h
        obtain ⟨_, hw', hfds⟩ := uploadFiles_frame cx env path hw fd stat
        rw [releaseUpload_reset]
        refine ⟨⟨rfl, hw'.setOffset fd 0, ?_, .inl rfl⟩, rfl, rfl, rfl, rfl, rfl, fun _ => rfl, hr⟩
        intro k f hf hcf
        rw [← hfds] at hf
        exact setOffset_lookup hf hcf
    · simp only [Except.ok.injEq, Prod.mk.injEq] at h
      obtain ⟨_, rfl, rfl, _⟩ := h
      exact ⟨⟨rfl, hw.setOffset fd 0, fun k f hf hcf => setOffset_lookup hf hcf, .inl rfl⟩,
        rfl, hfd ▸ rfl, rfl, rfl, rfl, fun _ => rfl, Nat.le_succ _⟩

end Release

/-- `dfs_release` works on the entry behind the handle and on no other. -/
theorem dfsRelease_cases {cx : Ctx} {env : Env} {s t : World} {path : Path} {flags : OpenFlags}
    {fh : Addr} {ret : Int} (h : dfsRelease cx env s path flags fh = .ok (ret, t)) :
    ∃ pe pe' fs st, s.heap fh = some pe ∧
      releaseEntry cx env s.store s.fs path flags pe = .ok (ret, pe', fs, st) ∧
      t = { s.setEntry fh pe' with fs := fs, store := st } := by
  unfold dfsRelease at h
  obtain ⟨pe, hpe, h⟩ := Except.bind_ok.mp h
  obtain ⟨⟨r, pe', fs, st⟩, hr, h⟩ := Except.bind_ok.mp h
  simp only [Except.ok.injEq, Prod.mk.injEq] at h
  obtain ⟨rfl, rfl⟩ := h
  exact ⟨pe, pe', fs, st, World.deref_ok.mp hpe, hr, rfl⟩

theorem dfsRelease_inv {cx : Ctx} {env : Env} {s t : World} {path : Path} {flags : OpenFlags}
    {fh : Addr} {ret : Int} (hi : s.Inv) (h : dfsRelease cx env s path flags fh = .ok (ret, t)) :
    t.Inv ∧ ∀ a pe, s.heap a = some pe → ∃ pe', t.heap a = some pe' ∧ pe'.path = pe.path ∧
      (pe.fd.isSome → pe'.fd.isSome) ∧
      pe.refcount ≤ pe'.refcount + if a = fh then 1 else 0 := by
  obtain ⟨pe, pe', fs, st, ha, hr, rfl⟩ := dfsRelease_cases h
  have hs := releaseEntry_spec hi.wf hr
  refine ⟨(hi.update ha hs.update ?_).congr rfl rfl rfl rfl, ?_⟩
  · rw [hs.ondisk, hs.fd]
    exact hi.cached fh pe ha
  · intro b qe hb
    by_cases he : b = fh
    · subst he
      rw [ha, Option.some.injEq] at hb
      subst hb
      exact ⟨pe', World.setEntry_heap_self s b pe', hs.update.path, by rw [hs.fd]; exact id,
        by simpa using hs.refcount⟩
    · exact ⟨qe, (World.setEntry_heap_of_ne he pe').trans hb, rfl, id, by omega⟩

end DropletFs
