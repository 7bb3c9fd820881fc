import DropletFs.Cache.Descriptors
import DropletFs.Framework.Resources
import DropletFs.Open.LocalCopy

/-! The descriptors of the cache files against those the table knows of. -/

namespace DropletFs

open CText LocalFs Resources

/-- The descriptors the entries hold. -/
def World.recorded (s : World) : Set Nat := {fd | ∃ a pe, s.heap a = some pe ∧ pe.fd = some fd}

/-- The descriptors in use beyond those the daemon started with are those of the entries in the
table. -/
def Daemon.Accounted (base : Set Nat) (d : Daemon) : Prop :=
  d.world.fs.openFds \ base =
    {fd | ∃ key pe, d.world.entry key = some pe ∧ pe.fd = some fd}

/-- A download of the path gets its data and cannot unpack them. -/
def LosesTrack (cx : Ctx) (env : Env) (st : Store) (path : Path) : Prop :=
  HeadersUsed env st path ∧ env.remote (.headAll path) = .success ∧
    env.lib .metadataFromHeaders = true ∧ env.lib .usermdDict = true ∧
    env.lib .usermdCopy = true ∧
    ∃ o, st.lookup path = some o ∧ env.Receives path o ∧
      ¬env.Unzips cx (localName cx path) o.userMeta o.data

/-- An open that does not forget a descriptor: a file to be made anew is not cached yet, or
cannot be made; any other is cached, or its download does not stop between the data and the
unpacked file. -/
def World.OpenTracked (cx : Ctx) (w : World) (env : Env) (path : Path) (flags : OpenFlags) : Prop :=
  lookupOrPopulate env w path .reg = none ∨
  if getModeFromFlags flags = .creat then ¬w.IsLocal path ∨ env.sys .openCache ≠ none
  else w.IsLocal path ∨ ¬LosesTrack cx env w.store path

/-- The calls of the run, and what each must meet. -/
def FileCall (c : Call) : Prop :=
  match c.op with
  | .open .. | .create .. | .release _ | .unlink _ | .gc _ => True
  | _ => False

def Tracked (cx : Ctx) (d : Daemon) (c : Call) : Prop :=
  match c.op with
  | .open path flags => d.world.OpenTracked cx c.env path flags
  | .create path mode flags =>
    sIsreg mode = false ∨
    cx.conf.regex path = false ∧ (dplNamei c.env d.world.store path).1 ≠ .success ∧
      (dplNamei c.env d.world.store path).1 ≠ .enoent ∨
    d.world.OpenTracked cx c.env path flags
  | _ => True

section Copy

variable {cx : Ctx} {env : Env} {st : Store} {fs fs' : LocalFs} {path : Path}

theorem dfsGetLocalCopy_holds (hw : fs.Wf) {pe pe' : Entry} (hl : pe.ondisk ≠ .loc)
    {flags : OpenFlags} {fd : Option Nat}
    (h : dfsGetLocalCopy cx env st fs pe path flags = .ok (fd, pe', fs')) :
    LosesTrack cx env st path ∧ Leaks fs.openFds (fd, fs') ∨
      ¬LosesTrack cx env st path ∧ Holds fs.openFds fd fs' := by
  have hnothing : ∀ {qe}, Except.ok (none, qe, fs) = Except.ok (ε := Fault) (fd, pe', fs') →
      Holds fs.openFds fd fs' := by
    rintro qe ⟨⟩
    rfl
  by_cases hused : HeadersUsed env st path
  swap
  · rw [dfsGetLocalCopy_unused hused] at h
    exact .inr ⟨fun hl => hused hl.1, hnothing h⟩
  by_cases hhead : env.remote (.headAll path) = .success ∧ (st.lookup path).isSome
  swap
  · rw [dfsGetLocalCopy_lost hused hhead] at h
    cases h
  obtain ⟨o, ho⟩ := Option.isSome_iff_exists.mp hhead.2
  rw [dfsGetLocalCopy_used hused hhead.1 ho] at h
  cases hmd : env.lib .metadataFromHeaders with
  | false =>
    rw [if_pos hmd] at h
    refine .inr ⟨fun hl => ?_, hnothing h⟩
    exact absurd (hmd.symm.trans hl.2.2.1) (by decide)
  | true =>
    rw [if_neg (by simp [hmd])] at h
    cases hm : pe.mdLocked with
    | true => simp [localCopy, pentryMdLock, hm, bind, Except.bind] at h
    | false =>
      obtain ⟨qe, hcopy⟩ := localCopy_remote cx env st fs path hl hm o.headers flags
      rw [hcopy] at h
      by_cases hset : env.lib .usermdDict = true ∧ env.lib .usermdCopy = true
      swap
      · rw [if_neg hset] at h
        exact .inr ⟨fun hl => hset ⟨hl.2.2.2.1, hl.2.2.2.2.1⟩, hnothing h⟩
      · rw [if_pos hset] at h
        simp only [Except.ok.injEq, Prod.mk.injEq] at h
        obtain ⟨rfl, rfl, rfl⟩ := h
        have hiff : LosesTrack cx env st path ↔
            env.Receives path o ∧ ¬env.Unzips cx (localName cx path) o.userMeta o.data := by
          constructor
          · rintro ⟨-, -, -, -, -, o', ho', hr, hu⟩
            obtain rfl : o = o' := Option.some.inj (ho.symm.trans ho')
            exact ⟨hr, hu⟩
          · intro hr
            exact ⟨hused, hhead.1, hmd, hset.1, hset.2, o, ho, hr⟩
        rw [hiff]
        rcases fetchObject_holds cx env (localName cx path) hw ho flags with hf | hf
        · exact .inl ⟨⟨hf.1, hf.2.1⟩, hf.2.2⟩
        · exact .inr hf

end Copy

section Recorded

variable {s t : World}

theorem World.recorded_of_heap (h : t.heap = s.heap) : t.recorded = s.recorded := by
  unfold World.recorded
  rw [h]

/-- The table knows every entry of the heap. -/
theorem World.Inv.recorded_entries (hi : s.Inv) :
    {fd | ∃ key pe, s.entry key = some pe ∧ pe.fd = some fd} = s.recorded := by
  ext fd
  constructor
  · rintro ⟨key, pe, he, hfd⟩
    obtain ⟨a, -, ha⟩ := Option.bind_eq_some_iff.mp he
    exact ⟨a, pe, ha, hfd⟩
  · rintro ⟨a, pe, ha, hfd⟩
    exact ⟨pe.path, pe, Option.bind_eq_some_iff.mpr ⟨a, hi.linked a pe ha, ha⟩, hfd⟩

theorem Looked.recorded {env : Env} {type : TPathType} {path : Path} {a : Addr} (hi : s.Inv)
    (h : Looked env type s path a t) :
    t.recorded = s.recorded := by
  rcases h.cases with rfl | ⟨-, rfl, rfl⟩
  · rfl
  · ext fd
    constructor
    · rintro ⟨b, pe, hb, hfd⟩
      by_cases he : b = s.brk
      · subst he
        simp only [World.insertEntry, Function.update_self, Option.some.injEq] at hb
        rw [← hb] at hfd
        cases hfd
      · exact ⟨b, pe, by simpa [World.insertEntry, he] using hb, hfd⟩
    · rintro ⟨b, pe, hb, hfd⟩
      have hne : b ≠ s.brk := Nat.ne_of_lt (hi.bound b pe hb)
      exact ⟨b, pe, by simpa [World.insertEntry, hne] using hb, hfd⟩

variable {a : Addr} {pe pe' : Entry}

theorem World.recorded_setEntry_same (ha : s.heap a = some pe) (h : pe'.fd = pe.fd) :
    (s.setEntry a pe').recorded = s.recorded := by
  ext fd
  constructor
  · rintro ⟨b, qe, hb, hfd⟩
    by_cases he : b = a
    · subst he
      rw [World.setEntry_heap_self, Option.some.injEq] at hb
      exact ⟨b, pe, ha, by rw [← h, hb, hfd]⟩
    · rw [World.setEntry_heap_of_ne he] at hb
      exact ⟨b, qe, hb, hfd⟩
  · rintro ⟨b, qe, hb, hfd⟩
    by_cases he : b = a
    · subst he
      obtain rfl : pe = qe := Option.some.inj (ha.symm.trans hb)
      exact ⟨b, pe', by simp, h.trans hfd⟩
    · exact ⟨b, qe, by rwa [World.setEntry_heap_of_ne he], hfd⟩

/-- An entry gets a descriptor in place of the one it had. -/
theorem World.Inv.recorded_setEntry (hi : s.Inv) (ha : s.heap a = some pe) {k : Nat}
    (h : pe'.fd = some k) :
    (s.setEntry a pe').recorded = insert k (s.recorded \ {fd | pe.fd = some fd}) := by
  ext fd
  constructor
  · rintro ⟨b, qe, hb, hfd⟩
    by_cases he : b = a
    · subst he
      rw [World.setEntry_heap_self, Option.some.injEq] at hb
      subst hb
      exact .inl (Option.some.inj (hfd.symm.trans h))
    · rw [World.setEntry_heap_of_ne he] at hb
      exact .inr ⟨⟨b, qe, hb, hfd⟩, fun hp => he (hi.distinct b a qe pe fd hb ha hfd hp)⟩
  · rintro (rfl | ⟨⟨b, qe, hb, hfd⟩, hne⟩)
    · exact ⟨a, pe', by simp, h⟩
    · have he : b ≠ a := by
        rintro rfl
        obtain rfl : pe = qe := Option.some.inj (ha.symm.trans hb)
        exact hne hfd
      exact ⟨b, qe, by rwa [World.setEntry_heap_of_ne he], hfd⟩

theorem World.recorded_onEntry (s : World) (path : Path) {f : Entry → Entry}
    (hf : ∀ pe, (f pe).fd = pe.fd) : (s.onEntry path f).recorded = s.recorded := by
  unfold World.onEntry
  cases s.hash path with
  | none => rfl
  | some a =>
    dsimp only
    cases ha : s.heap a with
    | none => rfl
    | some pe => exact World.recorded_setEntry_same ha (hf pe)

/-- The removal of an entry closes its descriptor. -/
theorem World.Inv.hashRemove_moves (hi : s.Inv) (path : Path) :
    Moves s.fs.openFds s.recorded True (s.hashRemove path).fs.openFds
      (s.hashRemove path).recorded := by
  cases hh : s.hash path with
  | none =>
    have he : s.hashRemove path = s := by simp [World.hashRemove, hh]
    rw [he]
    exact .same
  | some a =>
    obtain ⟨pe, ha, -⟩ := hi.entry path a hh
    have hfs : (s.hashRemove path).fs = s.fs.closeOpt pe.fd := by
      simp [World.hashRemove, hh, World.pentryFree, ha]
    have hheap : ∀ b, (s.hashRemove path).heap b = if b = a then none else s.heap b := by
      intro b
      rw [World.hashRemove_heap, hh]
      simp only [Option.some.injEq, eq_comm]
    cases hfd : pe.fd with
    | none =>
      have hrec : (s.hashRemove path).recorded = s.recorded := by
        ext fd
        constructor
        · rintro ⟨b, qe, hb, hq⟩
          rw [hheap] at hb
          split_ifs at hb
          exact ⟨b, qe, hb, hq⟩
        · rintro ⟨b, qe, hb, hq⟩
          have hne : b ≠ a := by
            rintro rfl
            obtain rfl : pe = qe := Option.some.inj (ha.symm.trans hb)
            rw [hfd] at hq
            cases hq
          exact ⟨b, qe, by rw [hheap, if_neg hne, hb], hq⟩
      rw [hfs, hfd, hrec]
      exact .same
    | some k =>
      have hrec : (s.hashRemove path).recorded = s.recorded \ {k} := by
        ext fd
        constructor
        · rintro ⟨b, qe, hb, hq⟩
          rw [hheap] at hb
          split_ifs at hb with he
          refine ⟨⟨b, qe, hb, hq⟩, ?_⟩
          rintro rfl
          exact he (hi.distinct b a qe pe fd hb ha hq hfd)
        · rintro ⟨⟨b, qe, hb, hq⟩, hne⟩
          have he : b ≠ a := by
            rintro rfl
            obtain rfl : pe = qe := Option.some.inj (ha.symm.trans hb)
            exact hne (Option.some.inj (hq.symm.trans hfd))
          exact ⟨b, qe, by rw [hheap, if_neg he, hb], hq⟩
      rw [hfs, hfd, hrec]
      change Moves _ _ _ (s.fs.close k).openFds _
      rw [openFds_close]
      exact .drop ⟨a, pe, ha, hfd⟩

end Recorded

section Open

variable {cx : Ctx} {env : Env} {s t : World} {path : Path} {ret : Int}

/-- What a mode other than `creat` does: nothing to the descriptors when the file is cached. -/
theorem openExisting_holds {st : Store} {fs fs' : LocalFs} (hw : fs.Wf) {pe pe' : Entry}
    (hl : pe.fd = none → pe.ondisk ≠ .loc) {flags : OpenFlags}
    (h : openExisting cx env st fs path pe flags = .ok (ret, pe', fs')) :
    pe.fd.isSome ∧ pe'.fd = pe.fd ∧ fs' = fs ∨
      pe.fd = none ∧ (LosesTrack cx env st path ∧ Leaks fs.openFds (pe'.fd, fs') ∨
        ¬LosesTrack cx env st path ∧ Holds fs.openFds pe'.fd fs') := by
  unfold openExisting at h
  cases hfd : pe.fd with
  | some k =>
    rw [hfd] at h
    simp only [Except.ok.injEq, Prod.mk.injEq] at h
    obtain ⟨-, rfl, rfl⟩ := h
    exact .inl ⟨rfl, hfd, rfl⟩
  | none =>
    rw [hfd] at h
    obtain ⟨⟨fd, qe, gs⟩, hg, h⟩ := Except.bind_ok.mp h
    simp only [Except.ok.injEq, Prod.mk.injEq] at h
    obtain ⟨-, rfl, rfl⟩ := h
    exact .inr ⟨rfl, dfsGetLocalCopy_holds hw (hl hfd) hg⟩

theorem openMode_holds {st : Store} {fs fs' : LocalFs} (hw : fs.Wf) {pe pe' : Entry}
    (hl : pe.fd = none → pe.ondisk ≠ .loc) {smode : StateMode} (hm : smode ≠ .creat)
    (h : openMode cx env st fs path pe smode = .ok (ret, pe', fs')) :
    pe.fd.isSome ∧ pe'.fd = pe.fd ∧ fs' = fs ∨
      pe.fd = none ∧ (LosesTrack cx env st path ∧ Leaks fs.openFds (pe'.fd, fs') ∨
        ¬LosesTrack cx env st path ∧ Holds fs.openFds pe'.fd fs') := by
  have hwr : openWronly cx env st fs path pe (openFlags smode) = .ok (ret, pe', fs') →
      pe.fd.isSome ∧ pe'.fd = pe.fd ∧ fs' = fs ∨
        pe.fd = none ∧ (LosesTrack cx env st path ∧ Leaks fs.openFds (pe'.fd, fs') ∨
          ¬LosesTrack cx env st path ∧ Holds fs.openFds pe'.fd fs') := by
    intro h
    obtain ⟨⟨r, qe, gs⟩, hg, h⟩ := Except.bind_ok.mp h
    simp only [Except.ok.injEq, Prod.mk.injEq] at h
    obtain ⟨-, hpe, rfl⟩ := h
    have hfd : pe'.fd = qe.fd := by
      rw [← hpe]
      split_ifs <;> rfl
    rw [hfd]
    exact openExisting_holds hw hl hg
  unfold openMode at h
  cases smode with
  | rdonly => exact openExisting_holds hw hl h
  | wronly => exact hwr h
  | rdwr => exact hwr h
  | creat => exact (hm rfl).elim

/-- The move a mode makes on the entry it runs on. -/
theorem openMode_moves (hi : s.Inv) {a : Addr} {pe qe : Entry} (ha : s.heap a = some pe)
    {smode : StateMode} {fs : LocalFs}
    (h : openMode cx env s.store s.fs path (pentryIncRefcount pe) smode = .ok (ret, qe, fs))
    (re : Entry) (hre : re.fd = qe.fd) :
    ∃ kept, Moves s.fs.openFds s.recorded kept fs.openFds (s.setEntry a re).recorded ∧
      (kept ↔ if smode = .creat then pe.fd = none ∨ env.sys .openCache ≠ none
        else pe.fd.isSome ∨ ¬LosesTrack cx env s.store path) := by
  by_cases hm : smode = .creat
  · subst hm
    simp only [if_true]
    unfold openMode at h
    simp only [Except.ok.injEq] at h
    unfold openCreat at h
    cases hsys : env.sys .openCache with
    | some e =>
      simp only [hsys, Prod.mk.injEq] at h
      obtain ⟨-, rfl, rfl⟩ := h
      rw [World.recorded_setEntry_same ha hre]
      exact ⟨True, .same, by simp⟩
    | none =>
      obtain ⟨⟨k, gs⟩, hopen⟩ := Option.isSome_iff_exists.mp
        (openFile_isSome s.fs (buildCacheTree cx path) (openFlags .creat) 0o644 (.inl rfl))
      simp only [hsys, hopen, Prod.mk.injEq] at h
      obtain ⟨-, rfl, rfl⟩ := h
      obtain ⟨hk, hfds⟩ := openFds_openFile hopen
      rw [hi.recorded_setEntry ha hre, hfds]
      cases hfd : pe.fd with
      | none =>
        have hempty : {fd : Nat | (none : Option Nat) = some fd} = ∅ := by
          ext fd
          simp
        rw [hempty, Set.sdiff_empty]
        exact ⟨True, .gain hk, by simp⟩
      | some old =>
        have hsingle : {fd | some old = some fd} = {old} := by
          ext fd
          simp [eq_comm]
        rw [hsingle]
        exact ⟨False, .swap hk ⟨a, pe, ha, hfd⟩, by simp⟩
  · rw [if_neg hm]
    have hl : (pentryIncRefcount pe).fd = none → (pentryIncRefcount pe).ondisk ≠ .loc := by
      intro hn he
      have hsome := (hi.cached a pe ha).mp he
      change pe.fd = none at hn
      rw [hn] at hsome
      cases hsome
    rcases openMode_holds hi.wf hl hm h with ⟨hsome, hfd, rfl⟩ | ⟨hnone, hcase⟩
    · rw [World.recorded_setEntry_same ha (hre.trans hfd)]
      exact ⟨True, .same, iff_of_true trivial (.inl hsome)⟩
    · change pe.fd = none at hnone
      have hkept : (pe.fd.isSome ∨ ¬LosesTrack cx env s.store path) ↔
          ¬LosesTrack cx env s.store path := by simp [hnone]
      rw [hkept]
      rcases hcase with ⟨hlost, hqe, k, hk, hfds⟩ | ⟨hkeep, hh⟩
      · dsimp only at hqe hfds
        rw [World.recorded_setEntry_same ha (by rw [hre, hqe, hnone]), hfds]
        exact ⟨False, .leak hk, iff_of_false id (not_not.mpr hlost)⟩
      · refine ⟨True, ?_, iff_of_true trivial hkeep⟩
        cases hqe : qe.fd with
        | none =>
          rw [hqe] at hh
          rw [World.recorded_setEntry_same ha (by rw [hre, hqe, hnone])]
          have hsame : fs.openFds = s.fs.openFds := hh
          rw [hsame]
          exact .same
        | some k =>
          rw [hqe] at hh
          have hempty : {fd | pe.fd = some fd} = ∅ := by
            ext fd
            simp [hnone]
          rw [hi.recorded_setEntry ha (hre.trans hqe), hempty, Set.sdiff_empty, hh.2]
          exact .gain hh.1

theorem dfsOpen_moves {flags : OpenFlags} {fh : Option Addr} (hi : s.Inv)
    (h : dfsOpen cx env s path flags = .ok (ret, fh, t)) :
    ∃ kept, Moves s.fs.openFds s.recorded kept t.fs.openFds t.recorded ∧
      (kept ↔ s.OpenTracked cx env path flags) := by
  unfold World.OpenTracked
  cases hlp : lookupOrPopulate env s path .reg with
  | none =>
    simp only [dfsOpen, hlp, Except.ok.injEq, Prod.mk.injEq] at h
    obtain ⟨-, -, rfl⟩ := h
    exact ⟨True, .same, by simp⟩
  | some r =>
    rcases dfsOpen_cases hi h with ⟨-, rfl, -⟩ | ⟨a, u, pe, qe, fs, hl, hpe, -, ho, rfl⟩
    · simp only [dfsOpen, hlp] at h
      obtain ⟨pe, -, h⟩ := Except.bind_ok.mp h
      obtain ⟨⟨r, qe, fs⟩, -, h⟩ := Except.bind_ok.mp h
      split_ifs at h <;> simp at h
    · rw [← hl.store, ← hl.fs] at ho
      obtain ⟨kept, hm, hk⟩ := openMode_moves hl.inv hpe ho
        (if ret = -1 then qe else { qe with ondisk := .loc }) (by split_ifs <;> rfl)
      rw [hl.fs, hl.recorded hi] at hm
      refine ⟨kept, hm, hk.trans ?_⟩
      simp only [reduceCtorEq, false_or, hl.isLocal_iff hi hpe, hl.store,
        Option.not_isSome_iff_eq_none]

end Open

section Callbacks

variable {cx : Ctx} {env : Env} {s t : World} {path : Path} {ret : Int}

/-- Once the file is open, `dfs_create` opens and closes nothing. -/
theorem createAfterOpen_openFds {u : World} (hi : u.Inv) {mode : Nat} {r : Int}
    {fh gh : Option Addr}
    (h : (match gh with
      | none => Except.ok (-1, gh, u)
      | some a =>
        if r = -1 then .ok (-1, gh, u)
        else do
          let pe ← u.deref a
          let (ret, pe, fs, st) ← createOpened env u.store u.fs path mode (cx.conf.regex path) pe
          .ok (ret, gh, { u.setEntry a pe with fs := fs, store := st })) = .ok (ret, fh, t)) :
    t.fs.openFds = u.fs.openFds ∧ t.recorded = u.recorded := by
  cases gh with
  | none =>
    simp only [Except.ok.injEq, Prod.mk.injEq] at h
    obtain ⟨-, -, rfl⟩ := h
    exact ⟨rfl, rfl⟩
  | some a =>
    dsimp only at h
    split_ifs at h
    · simp only [Except.ok.injEq, Prod.mk.injEq] at h
      obtain ⟨-, -, rfl⟩ := h
      exact ⟨rfl, rfl⟩
    · obtain ⟨pe, hpe, h⟩ := Except.bind_ok.mp h
      obtain ⟨⟨r', pe', fs, st⟩, hc, h⟩ := Except.bind_ok.mp h
      simp only [Except.ok.injEq, Prod.mk.injEq] at h
      obtain ⟨-, -, rfl⟩ := h
      obtain ⟨md, l, rfl, hfds, -, -⟩ := createOpened_spec hi.wf hc
      exact ⟨openFds_of_fds hfds, World.recorded_setEntry_same (World.deref_ok.mp hpe) rfl⟩

theorem dfsCreate_moves {mode : Nat} {flags : OpenFlags} {fh : Option Addr} (hi : s.Inv)
    (h : dfsCreate cx env s path mode flags = .ok (ret, fh, t)) :
    ∃ kept, Moves s.fs.openFds s.recorded kept t.fs.openFds t.recorded ∧
      (kept ↔ sIsreg mode = false ∨
        cx.conf.regex path = false ∧ (dplNamei env s.store path).1 ≠ .success ∧
          (dplNamei env s.store path).1 ≠ .enoent ∨
        s.OpenTracked cx env path flags) := by
  unfold dfsCreate at h
  dsimp only at h
  cases hmode : sIsreg mode with
  | false =>
    simp only [hmode, Bool.not_false, if_true, Except.ok.injEq, Prod.mk.injEq] at h
    obtain ⟨-, -, rfl⟩ := h
    exact ⟨True, .same, by simp⟩
  | true =>
    have hcond : ((if cx.conf.regex path then Status.success
        else (dplNamei env s.store path).1) ≠ .success ∧
          (if cx.conf.regex path then Status.success else
          (dplNamei env s.store path).1) ≠ .enoent) ↔
        cx.conf.regex path = false ∧ (dplNamei env s.store path).1 ≠ .success ∧
          (dplNamei env s.store path).1 ≠ .enoent := by
      cases cx.conf.regex path <;> simp
    rw [hmode] at h
    simp only [Bool.not_true, Bool.false_eq_true, if_false] at h
    by_cases hstop : cx.conf.regex path = false ∧ (dplNamei env s.store path).1 ≠ .success ∧
        (dplNamei env s.store path).1 ≠ .enoent
    · rw [if_pos (hcond.mpr hstop)] at h
      simp only [Except.ok.injEq, Prod.mk.injEq] at h
      obtain ⟨-, -, rfl⟩ := h
      exact ⟨True, .same, iff_of_true trivial (.inr (.inl hstop))⟩
    · rw [if_neg (fun hc => hstop (hcond.mp hc))] at h
      obtain ⟨⟨r, gh, u⟩, ho, h⟩ := Except.bind_ok.mp h
      obtain ⟨kept, hm, hk⟩ := dfsOpen_moves hi ho
      refine ⟨kept, ?_, hk.trans (by simp [hstop])⟩
      have hui := (dfsOpen_inv hi ho).1
      rcases createAfterOpen_openFds hui h with ⟨hfs, hrec⟩
      rw [hfs, hrec]
      exact hm

theorem releaseEntry_openFds {st st' : Store} {fs fs' : LocalFs} (hw : fs.Wf) {flags : OpenFlags}
    {pe pe' : Entry} (h : releaseEntry cx env st fs path flags pe = .ok (ret, pe', fs', st')) :
    fs'.openFds = fs.openFds := by
  unfold releaseEntry at h
  cases hfd : pe.fd with
  | none =>
    simp only [hfd, Except.ok.injEq, Prod.mk.injEq] at h
    obtain ⟨-, -, rfl, -⟩ := h
    rfl
  | some fd =>
    rw [hfd] at h
    dsimp only at h
    split at h
    · rename_i stat _ _
      obtain ⟨qe, -, h⟩ := Except.bind_ok.mp h
      split_ifs at h
      · simp only [Except.ok.injEq, Prod.mk.injEq] at h
        obtain ⟨-, -, rfl, -⟩ := h
        rfl
      · simp only [Except.ok.injEq, Prod.mk.injEq] at h
        obtain ⟨-, -, rfl, -⟩ := h
        rfl
      · simp only [Except.ok.injEq, Prod.mk.injEq] at h
        obtain ⟨-, -, rfl, -⟩ := h
        rw [releaseUpload_reset, openFds_setOffset]
        exact openFds_of_fds (uploadFiles_frame cx env path hw fd stat).2.2
    · simp only [Except.ok.injEq, Prod.mk.injEq] at h
      obtain ⟨-, -, rfl, -⟩ := h
      exact openFds_setOffset fs fd 0

theorem dfsRelease_moves {flags : OpenFlags} {fh : Addr} (hi : s.Inv)
    (h : dfsRelease cx env s path flags fh = .ok (ret, t)) :
    Moves s.fs.openFds s.recorded True t.fs.openFds t.recorded := by
  obtain ⟨pe, pe', fs, st, ha, hr, rfl⟩ := dfsRelease_cases h
  have hrec := World.recorded_setEntry_same ha (releaseEntry_spec hi.wf hr).fd
  change Moves _ _ _ fs.openFds (s.setEntry fh pe').recorded
  rw [hrec, releaseEntry_openFds hi.wf hr]
  exact .same

theorem dfsUnlink_moves {path : Str} (hi : s.Inv) (h : dfsUnlink cx env s path = .ok (ret, t)) :
    Moves s.fs.openFds s.recorded True t.fs.openFds t.recorded := by
  rcases dfsUnlink_cases h with ⟨-, -, rfl⟩ | ⟨store, u, -, -, hu, hcase⟩
  · exact .same
  · have hi' : u.Inv := by
      rw [hu]
      exact (hi.tryUnlink env _ (slashName cx (s.text path))).congr rfl rfl rfl rfl
    have hfds : u.fs.openFds = s.fs.openFds := by
      rw [hu]
      exact openFds_of_fds (tryUnlink_fds _ _ _ _)
    have hrec : u.recorded = s.recorded := World.recorded_of_heap (by rw [hu]; rfl)
    rw [← hfds, ← hrec]
    rcases hcase with ⟨-, -, rfl⟩ | ⟨-, he⟩
    · exact .same
    · obtain ⟨-, freed, v, -, rfl, ht⟩ := unlinkEntry_cases he
      have hmove := hi'.hashRemove_moves (u.text path)
      rcases ht with ⟨_, rfl⟩ | ⟨parent, _, rfl⟩
      · exact hmove
      · rw [World.recorded_onEntry _ _ fun pe => by unfold pentryRemoveDirent; split_ifs <;> rfl]
        obtain ⟨heap, hon⟩ := World.onEntry_eq
          { u.hashRemove (u.text path) with ring := u.ring.push (tmpstr freed) } parent
          fun dir => pentryRemoveDirent dir (World.text
            { u.hashRemove (u.text path) with ring := u.ring.push (tmpstr freed) } path)
        rw [hon]
        exact hmove

theorem gcCallback_moves (hi : s.Inv) (path : Path) :
    Moves s.fs.openFds s.recorded True (gcCallback cx env s path).fs.openFds
      (gcCallback cx env s path).recorded := by
  rcases gcCallback_cases cx env s path with h | ⟨pe, -, -, -, -, h⟩
  · rw [h]
    exact .same
  · rw [h]
    have hmove := (hi.tryUnlink env .unlinkGc (slashName cx path)).hashRemove_moves path
    rwa [openFds_of_fds (tryUnlink_fds env .unlinkGc s.fs (slashName cx path))] at hmove

end Callbacks

/-- What a call of the run does to the descriptors. -/
theorem Calls.moves {cx : Ctx} {env : Env} {d d' : Daemon} {op : Op} {ret : Int}
    (hi : d.world.Inv) (hop : FileCall ⟨op, env⟩) (h : Calls cx env d op ret d') :
    ∃ kept, Moves d.world.fs.openFds d.world.recorded kept d'.world.fs.openFds d'.world.recorded ∧
      (kept ↔ Tracked cx d ⟨op, env⟩) := by
  cases h with
  | opened h => exact dfsOpen_moves hi h
  | openFailed _ h => exact dfsOpen_moves hi h
  | created h => exact dfsCreate_moves hi h
  | createFailed _ h => exact dfsCreate_moves hi h
  | released _ h => exact ⟨True, dfsRelease_moves hi h, Iff.rfl⟩
  | notReleased => exact ⟨True, .same, Iff.rfl⟩
  | unlink h => exact ⟨True, dfsUnlink_moves hi h, Iff.rfl⟩
  | gc => exact ⟨True, gcCallback_moves hi _, Iff.rfl⟩
  | _ => exact hop.elim

/-- In every run of opens, creates, releases, unlinks and collector passes, whichever of their
calls fail: the descriptors are accounted for in every state exactly when no open forgets one. -/
theorem descriptors_accounted_iff (cx : Ctx) (store : Store) (fs : LocalFs) (ring : Ring)
    (hw : fs.Wf) (calls : List Call) (hcalls : ∀ c ∈ calls, FileCall c) (d : Daemon)
    (hr : Transition.exec (Daemon.step cx) (.init store fs ring) calls = .ok d) :
    Transition.Always (Daemon.step cx) (Daemon.Accounted fs.openFds) (.init store fs ring) calls ↔
      Transition.Meets (Daemon.step cx) (Tracked cx) (.init store fs ring) calls := by
  have hempty : (Daemon.init store fs ring).world.recorded = ∅ := by
    ext fd
    refine iff_of_false ?_ (Set.notMem_empty fd)
    rintro ⟨a, pe, ha, -⟩
    cases ha
  have hinit : (Daemon.init store fs ring).world.Inv := Daemon.init_inv hw
  refine Transition.always_iff_meets
    (I := fun d => d.world.Inv ∧ Sound fs.openFds d.world.fs.openFds d.world.recorded)
    ?_ ?_ ⟨hinit, ?_⟩ ?_ hcalls hr
  · rintro s ⟨op, env⟩ t ⟨hi, hs⟩ hop ht
    obtain ⟨ret, hc⟩ := Daemon.step_cases ht
    obtain ⟨kept, hm, -⟩ := hc.moves hi hop
    exact ⟨hc.inv hi, hs.moves hm⟩
  · rintro s ⟨op, env⟩ t ⟨hi, hs⟩ hop ha ht
    obtain ⟨ret, hc⟩ := Daemon.step_cases ht
    obtain ⟨kept, hm, hk⟩ := hc.moves hi hop
    have hbefore : Exact fs.openFds s.world.fs.openFds s.world.recorded :=
      ha.trans hi.recorded_entries
    have hafter : t.Accounted fs.openFds ↔
        Exact fs.openFds t.world.fs.openFds t.world.recorded := by
      unfold Daemon.Accounted Exact
      rw [(hc.inv hi).recorded_entries]
    rw [hafter, hbefore.moves_iff hs hm, hk]
  · rw [hempty]
    exact ⟨subset_rfl, Set.empty_subset _, fun _ _ => id⟩
  · unfold Daemon.Accounted
    rw [hinit.recorded_entries, hempty]
    exact Set.sdiff_self

/-- `/f` is opened, found cached, released and collected. -/
theorem descriptors_accounted_sample :
    Transition.Always (Daemon.step Sample.plain) (Daemon.Accounted Sample.fs.openFds)
      (Sample.daemon [(['/', 'f'], Sample.file [1])]) openTwice := by
  apply (descriptors_accounted_iff Sample.plain _ Sample.fs Sample.ring Sample.fs_wf openTwice ?_ _
    rfl).mpr
  · refine ⟨.inr (.inr ?_), .inr (.inl rfl), trivial, trivial⟩
    rintro ⟨-, -, -, -, -, o, ho, -, hu⟩
    obtain rfl : Sample.file [1] = o := Option.some.inj ho
    refine hu ⟨rfl, fun hz => ?_⟩
    obtain ⟨_, hc, -⟩ := hz
    cases hc
  · simp [openTwice, FileCall, Sample.call]

/-- A descriptor in use other than that of the one entry there is. -/
theorem not_accounted {base : Set Nat} {d : Daemon} {fd : Nat} (path : Path) (k : Nat)
    (ho : fd ∈ d.world.fs.openFds) (hb : fd ∉ base) (hne : fd ≠ k)
    (hone : ∀ key, key ≠ path → d.world.hash key = none)
    (hk : (d.world.entry path).bind (·.fd) = some k) : ¬d.Accounted base := by
  intro h
  obtain ⟨key, pe, he, hfd⟩ := h.subset ⟨ho, hb⟩
  by_cases hkey : key = path
  · rw [hkey] at he
    rw [he, Option.bind_some, hfd, Option.some.injEq] at hk
    exact hne hk
  · rw [World.entry, hone key hkey] at he
    cases he

/-- A cached file that is opened for writing is opened anew, and its old descriptor is lost. -/
theorem reopened_descriptor_lost :
    ∃ d, Transition.exec (Daemon.step Sample.plain) (Sample.daemon [(['/', 'f'], Sample.file [1])])
        [Sample.call (.open ['/', 'f'] Sample.readOnly),
          Sample.call (.open ['/', 'f'] Sample.writeOnly)] = .ok d ∧
      0 ∈ d.world.fs.openFds ∧ (d.world.entry ['/', 'f']).bind (·.fd) = some 1 ∧
      ¬d.Accounted Sample.fs.openFds := by
  have hopen : ∀ {fs : LocalFs}, fs.fds.lookup 0 = some ⟨0, .rdonly, 0⟩ → 0 ∈ fs.openFds :=
    fun h => AList.lookup_isSome.mp (by rw [h]; rfl)
  refine ⟨_, rfl, hopen rfl, rfl, not_accounted ['/', 'f'] 1 (hopen rfl)
    (fun hb => by cases hb) (by decide) (fun key hkey => ?_) rfl⟩
  exact Function.update_of_ne hkey _ _

end DropletFs
