import DropletFs.Table.Creation
import DropletFs.Table.Garbage

/-! The dictionaries `dfs_chmod` and `dfs_chown` assert: which callbacks leave an entry without one
for a path that has an object. -/

namespace DropletFs

open CText LocalFs

/-- The entry of a path that exists remotely has a dictionary, so the assertions hold. -/
structure Daemon.MetadataHeld (d : Daemon) : Prop where
  usermd : ∀ path pe, d.world.entry path = some pe → d.world.store.ftype? path ≠ none →
    pe.usermd ≠ none
  chmod : ∀ env path mode, d.world.store.ftype? path ≠ none →
    dfsChmod env d.world path mode ≠ .error .assertion
  chown : ∀ env path uid gid, d.world.store.ftype? path ≠ none →
    dfsChown env d.world path uid gid ≠ .error .assertion

/-- The first stat of a path that exists fills in the dictionary, or fails for an entry that has
one. -/
def World.StatFills (s : World) (env : Env) (path : Path) : Prop :=
  path ≠ rootPath → lookupOrPopulate env s path (env.rawType path) ≠ none →
    (s.entryOr env path (env.rawType path)).ondisk = .unset →
    s.store.ftype? path ≠ none →
      ((∃ o, Stated env s.store path o) → env.lib .usermdDict = true) ∧
      ((¬∃ o, Stated env s.store path o) → (s.entryOr env path (env.rawType path)).usermd.isSome)

/-- An open gets as far as the dictionary of the object. -/
def OpenSets (env : Env) (st : Store) (path : Path) (pe : Entry) (smode : StateMode) : Prop :=
  smode ≠ .creat ∧ pe.fd = none ∧ HeadersUsed env st path ∧ env.lib .metadataFromHeaders = true

/-- An open of a path that exists sets the dictionary, or leaves one. -/
def World.OpenFills (s : World) (env : Env) (path : Path) (flags : OpenFlags) : Prop :=
  lookupOrPopulate env s path .reg ≠ none → s.store.ftype? path ≠ none →
    (OpenSets env s.store path (s.entryOr env path .reg) (getModeFromFlags flags) →
      env.lib .usermdDict = true) ∧
    (¬OpenSets env s.store path (s.entryOr env path .reg) (getModeFromFlags flags) →
      (s.entryOr env path .reg).usermd.isSome)

/-- A create stops before its open, or sets the dictionary, or puts nothing and opens as well as an
open does. -/
def World.CreateFills (cx : Ctx) (s : World) (env : Env) (path : Path) (mode : Nat)
    (flags : OpenFlags) : Prop :=
  s.CreateStops cx env path mode ∨
  s.OpenCompletes cx env path flags ∧ ¬CreateKeeps env ∨
  s.OpenFills env path flags ∧ ¬(s.OpenCompletes cx env path flags ∧
    CreateCompletes cx env s.store path ∧ cx.conf.regex path = false)

/-- The entry of the path, if there is one, has a dictionary. -/
def World.Filled (s : World) (path : Path) : Prop := ∀ pe, s.entry path = some pe → pe.usermd.isSome

/-- A directory is made for an entry with a dictionary, or there is no memory for a new one. -/
def World.MkdirFills (s : World) (env : Env) (path : Path) : Prop :=
  (dplMkdir env s.store path).1 = .success →
    s.Filled path ∧ (s.hash path = none → populateHash env s path .dir = none)

def World.MoveFills (s : World) (env : Env) (oldpath newpath : Path) : Prop :=
  (dplFcopy env s.store oldpath newpath).1 = .success → s.Filled newpath

/-- What the calls inside a rename of a directory are to meet. -/
def fillGuard (env : Env) : RenameGuard where
  mkdir s path := s.MkdirFills env path
  file s oldpath newpath := s.MoveFills env (s.text oldpath) (s.text newpath)
  rmdir _ _ := True

def World.RenameFills (cx : Ctx) (s : World) (env : Env) (oldpath newpath : Path) : Prop :=
  match (dplNamei env s.store oldpath).2.getD (env.junk oldpath) with
  | .other => True
  | .reg => s.MoveFills env oldpath newpath
  | .dir => renameDirectoryMeets cx env (fillGuard env) env.stack s (.ext oldpath) (.ext newpath)

/-- The steps that leave no entry without a dictionary for a path that exists. -/
def KeepsMetadata (cx : Ctx) (d : Daemon) (c : Call) : Prop :=
  match c.op with
  | .getattr path => d.world.StatFills c.env path
  | .open path flags => d.world.OpenFills c.env path flags
  | .create path mode flags => d.world.CreateFills cx c.env path mode flags
  | .mkdir path => d.world.MkdirFills c.env path
  | .mknod path => (dplMknod c.env d.world.store path).1 = .success → d.world.Filled path
  | .symlink _ path => (dplMknod c.env d.world.store path).1 = .success → d.world.Filled path
  | .rename old new => d.world.RenameFills cx c.env old (renameTarget old new)
  | .release i => ∀ h pe, d.handles[i]? = some h → d.world.heap h.addr = some pe →
      d.Sends cx c.env h pe → d.world.Filled h.path
  | _ => True

/-- The entry has a dictionary, if its path exists. -/
def HasMetadata : EntryProp := fun _ o pe => o.isSome ∨ pe.path = rootPath → pe.usermd.isSome

theorem HasMetadata.congr {a : Addr} {o o' : Option Obj} {pe pe' : Entry} (h : HasMetadata a o pe)
    (hp : pe'.path = pe.path) (ho : o'.isSome → o.isSome)
    (hu : pe.usermd.isSome → pe'.usermd.isSome) :
    HasMetadata a o' pe' := fun he => hu (h (he.imp ho fun hr => hp ▸ hr))

theorem HasMetadata.steady : Steady HasMetadata :=
  ⟨fun _ h => h, fun _ h => h, fun _ _ h => h⟩

theorem ftype?_ne_none_iff {st : Store} {path : Path} :
    st.ftype? path ≠ none ↔ (st.lookup path).isSome ∨ path = rootPath := by
  by_cases hr : path = rootPath
  · simp [Store.ftype?, hr]
  · rw [Store.ftype?_of_ne hr]
    simp [hr, Option.isSome_iff_ne_none]

section Table

variable {s t u : World} {P : EntryProp} {path : Path} {a : Addr} {pe : Entry}

theorem World.All.filled_entry (hi : s.Inv) (hs : s.All HasMetadata) (he : s.entry path = some pe)
    (hx : s.store.ftype? path ≠ none) : pe.usermd.isSome := by
  obtain ⟨a, hh, ha⟩ := Option.bind_eq_some_iff.mp he
  obtain ⟨qe, hq, hpath⟩ := hi.entry path a hh
  obtain rfl : pe = qe := Option.some.inj (ha.symm.trans hq)
  have hpe := hs a pe ha
  rw [hpath] at hpe
  apply hpe
  rw [hpath]
  exact ftype?_ne_none_iff.mp hx

end Table

section Steps

variable {cx : Ctx} {env : Env} {d : Daemon} {s t : World} {path : Path} {ret : Int}

theorem keptUsermd_isSome (dict : Dict) :
    (keptUsermd env dict).isSome ↔ env.lib .usermdDict = true := by
  unfold keptUsermd
  cases env.lib .usermdDict with
  | false => simp
  | true =>
    simp only [Bool.not_true, Bool.false_eq_true, if_false]
    split <;> simp

theorem dfsGetattr_metadata {st : Stat} (hi : s.Inv) (hs : s.All HasMetadata)
    (hg : s.StatFills env path) (h : dfsGetattr env s path = .ok (ret, st, t)) :
    t.All HasMetadata := by
  cases dfsGetattr_cases h with
  | root => exact hs
  | noEntry => exact hs
  | remote _ hl ha ho hget =>
    have hlook := lookupOrPopulate_spec hi hl
    obtain ⟨qe, hq, hpath⟩ := hlook.heap
    obtain rfl := Option.some.inj (ha.symm.trans hq)
    obtain ⟨l, rfl⟩ := getattrRemote_spec hget
    have hpe := hs _ _ (hlook.heap_old ha (by rw [ho]; decide))
    rw [hpath] at hpe
    exact hs.lookedSet hlook hpath (hpe.congr rfl id id)
  | loc _ hl ha ho hget =>
    have hlook := lookupOrPopulate_spec hi hl
    obtain ⟨qe, hq, hpath⟩ := hlook.heap
    obtain rfl := Option.some.inj (ha.symm.trans hq)
    have hpe := hs _ _ (hlook.heap_old ha (by rw [ho]; decide))
    rw [hpath] at hpe
    exact hs.lookedSet hlook hpath (hpe.congr rfl id id)
  | unset hr hl ha ho hget =>
    rename_i a u pe pe' fill
    have hlook : Looked env _ s path a u := lookupOrPopulate_spec hi hl
    obtain ⟨qe, hq, hpath⟩ := hlook.heap
    obtain rfl : pe = qe := Option.some.inj (ha.symm.trans hq)
    obtain rfl := hlook.entryOr ha
    have hfills := hg hr (by rw [hl]; simp) ho
    have hset : (u.setEntry a { pe' with atime := env.now }).All HasMetadata := by
      rcases getattrUnset_spec hget with ⟨hret, rfl⟩ | ⟨rfl, o, type, dict, hobj, _, rfl⟩
      · refine hs.lookedSet hlook (by exact hpath) ?_
        intro he
        rw [hpath] at he
        refine (hfills (ftype?_ne_none_iff.mpr he)).2 ?_
        intro hst
        obtain ⟨o, hst⟩ := hst
        exact hret (getattrUnset_returns (hlook.store ▸ hst) hr hget)
      · refine hs.lookedSet hlook (by exact hpath) ?_
        intro he
        rw [hpath] at he
        obtain ⟨o', ho'⟩ := getattrUnset_done hr (.inl rfl) hget
        rw [hlook.store] at ho'
        exact (keptUsermd_isSome dict).mpr ((hfills (ftype?_ne_none_iff.mpr he)).1 ⟨o', ho'⟩)
    split
    · unfold hashFillDirent
      cases beforeLastSlash path with
      | none => exact hset
      | some dir => exact hset.onEntry (fun _ => rfl) fun _ _ _ _ hqe => hqe
    · exact hset

theorem localCopy_usermd {st : Store} {fs fs' : LocalFs} {pe pe' : Entry} {flags : OpenFlags}
    {headers : Headers} {fd : Option Nat}
    (h : localCopy cx env st fs pe path flags headers = .ok (fd, pe', fs')) :
    pe'.usermd = keptUsermd env headers.userMeta := by
  unfold localCopy at h
  obtain ⟨pl, hl, h⟩ := Except.bind_ok.mp h
  obtain ⟨_, rfl⟩ := pentryMdLock_ok hl
  dsimp only at h
  rw [pentrySetUsermd_eq] at h
  split_ifs at h
  · simp only [Except.ok.injEq, Prod.mk.injEq] at h
    rw [← h.2.1]
    rfl
  · obtain ⟨dg, hdg⟩ := compareDigests_snd (pentryMdUnlock { pe with
      mdLocked := true, usermd := keptUsermd env headers.userMeta }) headers
    split at h
    · rename_i qe hq
      rw [hq] at hdg
      simp only [Except.ok.injEq, Prod.mk.injEq] at h
      rw [← h.2.1, show qe = _ from hdg]
      rfl
    · rename_i r qe _ hq
      rw [hq] at hdg
      simp only [Except.ok.injEq, Prod.mk.injEq] at h
      rw [← h.2.1, show qe = _ from hdg]
      rfl

/-- An open that gets to the object's headers keeps a copy of them, and no other changes the
dictionary. -/
theorem openMode_usermd {st : Store} {fs fs' : LocalFs} {pe pe' : Entry} {smode : StateMode}
    (h : openMode cx env st fs path pe smode = .ok (ret, pe', fs')) :
    (OpenSets env st path pe smode → (pe'.usermd.isSome ↔ env.lib .usermdDict = true)) ∧
    (¬OpenSets env st path pe smode → pe'.usermd = pe.usermd) := by
  have hex : ∀ {fl r qe gs}, smode ≠ .creat →
      openExisting cx env st fs path pe fl = .ok (r, qe, gs) →
      (OpenSets env st path pe smode → (qe.usermd.isSome ↔ env.lib .usermdDict = true)) ∧
      (¬OpenSets env st path pe smode → qe.usermd = pe.usermd) := by
    intro fl r qe gs hm he
    unfold openExisting at he
    cases hfd : pe.fd with
    | some fd =>
      simp only [hfd, Except.ok.injEq, Prod.mk.injEq] at he
      refine ⟨fun hset => ?_, fun _ => by rw [← he.2.1]⟩
      rw [hset.2.1] at hfd
      cases hfd
    | none =>
      rw [hfd] at he
      obtain ⟨⟨fd, re, gs'⟩, hg, he⟩ := Except.bind_ok.mp he
      simp only [Except.ok.injEq, Prod.mk.injEq] at he
      have hkept : qe.usermd = re.usermd := by rw [← he.2.1]
      rw [hkept]
      by_cases hused : HeadersUsed env st path
      swap
      · simp only [dfsGetLocalCopy_unused hused, Except.ok.injEq, Prod.mk.injEq] at hg
        rw [← hg.2.1]
        exact ⟨fun hset => (hused hset.2.2.1).elim, fun _ => rfl⟩
      by_cases hhead : env.remote (.headAll path) = .success ∧ (st.lookup path).isSome
      swap
      · rw [dfsGetLocalCopy_lost hused hhead] at hg
        cases hg
      obtain ⟨o, ho⟩ := Option.isSome_iff_exists.mp hhead.2
      rw [dfsGetLocalCopy_used hused hhead.1 ho] at hg
      cases hmd : env.lib .metadataFromHeaders with
      | false =>
        simp only [hmd, if_true, Except.ok.injEq, Prod.mk.injEq] at hg
        rw [← hg.2.1]
        refine ⟨fun hset => ?_, fun _ => rfl⟩
        rw [hset.2.2.2] at hmd
        cases hmd
      | true =>
        rw [if_neg (by simp [hmd])] at hg
        rw [localCopy_usermd hg]
        exact ⟨fun _ => keptUsermd_isSome _, fun hno => (hno ⟨hm, hfd, hused, hmd⟩).elim⟩
  have hwr : ∀ {fl}, smode ≠ .creat → openWronly cx env st fs path pe fl = .ok (ret, pe', fs') →
      (OpenSets env st path pe smode → (pe'.usermd.isSome ↔ env.lib .usermdDict = true)) ∧
      (¬OpenSets env st path pe smode → pe'.usermd = pe.usermd) := by
    intro fl hm hw
    obtain ⟨⟨r, qe, gs⟩, he, hw⟩ := Except.bind_ok.mp hw
    simp only [Except.ok.injEq, Prod.mk.injEq] at hw
    have hkept : pe'.usermd = qe.usermd := by
      rw [← hw.2.1]
      split_ifs <;> rfl
    rw [hkept]
    exact hex hm he
  cases smode with
  | rdonly => exact hex (by decide) h
  | wronly => exact hwr (by decide) h
  | rdwr => exact hwr (by decide) h
  | creat =>
    refine ⟨fun hset => (hset.1 rfl).elim, fun _ => ?_⟩
    simp only [openMode, openCreat, Except.ok.injEq] at h
    split at h
    · simp only [Prod.mk.injEq] at h
      rw [← h.2.1]
    · simp only [Prod.mk.injEq] at h
      rw [← h.2.1]

/-- What an open leaves of an entry whose path exists has a dictionary. -/
theorem World.OpenFills.usermd {flags : OpenFlags} {qe : Entry} {fs : LocalFs}
    (hg : s.OpenFills env path flags) (hl : lookupOrPopulate env s path .reg ≠ none)
    (hx : s.store.ftype? path ≠ none)
    (h : openMode cx env s.store s.fs path (pentryIncRefcount (s.entryOr env path .reg))
      (getModeFromFlags flags) = .ok (ret, qe, fs)) : qe.usermd.isSome := by
  obtain ⟨hset, hkeep⟩ := hg hl hx
  obtain ⟨h1, h2⟩ := openMode_usermd h
  by_cases hsets : OpenSets env s.store path (s.entryOr env path .reg) (getModeFromFlags flags)
  · exact (h1 hsets).mpr (hset hsets)
  · rw [h2 hsets]
    exact hkeep hsets

theorem dfsOpen_metadata {flags : OpenFlags} {fh : Option Addr} (hi : s.Inv)
    (hs : s.All HasMetadata) (hg : s.OpenFills env path flags)
    (h : dfsOpen cx env s path flags = .ok (ret, fh, t)) : t.All HasMetadata := by
  by_cases hl : lookupOrPopulate env s path .reg = none
  · simp only [dfsOpen, hl, Except.ok.injEq, Prod.mk.injEq] at h
    rw [← h.2.2]
    exact hs
  rcases dfsOpen_cases hi h with ⟨_, _, rfl⟩ | ⟨a, u, pe, qe, fs, hlook, ha, rfl, hm, rfl⟩
  · exact hs
  obtain ⟨re, hre, hpath⟩ := hlook.heap
  obtain rfl : pe = re := Option.some.inj (ha.symm.trans hre)
  obtain rfl := hlook.entryOr ha
  have hqp : qe.path = path := (openMode_spec hi.wf hm).update.path.trans hpath
  have hset : (u.setEntry a (if ret = -1 then qe else { qe with ondisk := .loc })).All
      HasMetadata := by
    refine hs.lookedSet hlook ?_ ?_
    · split_ifs
      · exact hqp
      · exact hqp
    · intro he
      have hsome : qe.usermd.isSome := by
        apply hg.usermd hl ?_ hm
        rw [ftype?_ne_none_iff]
        split_ifs at he
        · rwa [hqp] at he
        · rwa [show ({ qe with ondisk := .loc } : Entry).path = path from hqp] at he
      split_ifs
      · exact hsome
      · exact hsome
  exact hset.of_eq rfl rfl

theorem dfsCreate_metadata {mode : Nat} {flags : OpenFlags} {fh : Option Addr} (hi : s.Inv)
    (hs : s.All HasMetadata) (hg : s.CreateFills cx env path mode flags)
    (h : dfsCreate cx env s path mode flags = .ok (ret, fh, t)) : t.All HasMetadata := by
  by_cases hstop : s.CreateStops cx env path mode
  · obtain rfl := dfsCreate_stops hstop h
    exact hs
  replace hg := hg.resolve_left hstop
  have hl : lookupOrPopulate env s path .reg ≠ none := fun hn => hstop (.inr (.inr hn))
  obtain ⟨r, a, u, pe, qe, fs, hlook, ha, hm, hcase⟩ := dfsCreate_goes hi hstop h
  obtain ⟨re, hre, hpath⟩ := hlook.heap
  obtain rfl : pe = re := Option.some.inj (ha.symm.trans hre)
  obtain rfl := hlook.entryOr ha
  have hspec := openMode_spec hi.wf hm
  have hqp : qe.path = path := hspec.update.path.trans hpath
  rcases hcase with ⟨rfl, rfl, rfl⟩ | ⟨rfl, pe', fs', st, hc, rfl⟩
  · have hfills : s.OpenFills env path flags := by
      rcases hg with ⟨hopen, _⟩ | ⟨hfills, _⟩
      · exact absurd (hi.openMode_zero hopen hm) (by decide)
      · exact hfills
    refine World.All.of_eq (s := u.setEntry a qe) (hs.lookedSet hlook hqp ?_) rfl rfl
    intro he
    rw [hqp] at he
    exact hfills.usermd hl (ftype?_ne_none_iff.mpr he) hm
  · have hopen := hi.openCompletes (by decide) hm
    obtain ⟨fd, hfd⟩ := Option.isSome_iff_exists.mp
      (hspec.result.resolve_right fun hm1 => absurd hm1.1 (by decide)).2
    obtain ⟨f, hf⟩ := hi.openMode_lookup hm hfd
    obtain ⟨md, l, hpe, _⟩ := createOpened_spec hspec.update.wf hc
    have hpp : pe'.path = path := by
      rw [hpe]
      exact hqp
    have husermd := createOpened_usermd (by exact hfd) hf hc
    have hold : s.store.ftype? path ≠ none → pe'.usermd.isSome := by
      intro hx
      rcases husermd with ⟨hk, hsame⟩ | ⟨_, _, hsome⟩
      · rcases hg with ⟨_, hno⟩ | ⟨hfills, _⟩
        · exact (hno hk).elim
        · rw [hsame]
          show qe.usermd.isSome
          exact hfills.usermd hl hx hm
      · exact hsome
    have hset : (u.setEntry a pe').All HasMetadata := by
      refine hs.lookedSet hlook hpp fun he => hold ?_
      rw [hpp] at he
      exact ftype?_ne_none_iff.mpr he
    rcases createOpened_put hc with rfl | ⟨hdone, hx, rfl⟩
    · exact hset.of_eq rfl hlook.store.symm
    · -- the object was put after the dictionary was set
      have hsome : pe'.usermd.isSome := by
        rcases husermd with ⟨hk, _⟩ | ⟨_, _, hsome⟩
        · rcases hg with ⟨_, hno⟩ | ⟨_, hno⟩
          · exact (hno hk).elim
          · exact (hno ⟨hopen, hdone, hx⟩).elim
        · exact hsome
      refine hset.changed (k := path) rfl
        (.inr (.inr ⟨_, by rw [World.setEntry_store, hlook.store]⟩))
        ?_
      intro b qe' hb hp _ _
      by_cases he : b = a
      · rw [he, World.setEntry_heap_self, Option.some.injEq] at hb
        rw [← hb]
        exact hsome
      · rw [World.setEntry_heap_of_ne he] at hb
        have hlink := hlook.inv.linked b qe' hb
        rw [hp, hlook.hash, Option.some.injEq] at hlink
        exact (he hlink.symm).elim

/-- A property at one path on top of the others. -/
theorem World.Filled.all (hi : s.Inv) (hs : s.All HasMetadata) (hf : s.Filled path) :
    s.All fun a o pe => HasMetadata a o pe ∧ (pe.path = path → pe.usermd.isSome) := by
  intro a pe ha
  refine ⟨hs a pe ha, fun hp => hf pe ?_⟩
  rw [World.entry, ← hp, hi.linked a pe ha, Option.bind_some, ha]

theorem HasMetadata.steady_at (path : Path) :
    Steady fun a o pe => HasMetadata a o pe ∧ (pe.path = path → pe.usermd.isSome) :=
  ⟨fun _ h => h, fun _ h => h, fun _ _ h => h⟩

theorem World.All.metadata (path : Path) (h : t.All fun a o pe => HasMetadata a o pe ∧
    (pe.path = path → pe.usermd.isSome)) : t.All HasMetadata := fun a pe ha => (h a pe ha).1

/-- The object of the path has come, and the entry of the path has a dictionary. -/
theorem World.All.metadata_changed (hi : s.Inv) (hs : s.All HasMetadata) (hf : s.Filled path)
    (hh : t.heap = s.heap) (hc : Store.Changed path s.store t.store) : t.All HasMetadata := by
  apply hs.changed hh hc
  intro a pe ha hp _ _
  apply hf pe
  rw [← hp]
  exact hi.entry_of_heap ha

theorem dfsMkdir_metadata (hi : s.Inv) (hs : s.All HasMetadata) (hg : s.MkdirFills env path) :
    (dfsMkdir env s path).2.All HasMetadata := by
  rcases dplMkdir_cases env s.store path with ⟨hno, hsame⟩ | ⟨_, _, _, hok⟩
  · unfold dfsMkdir
    split
    · rename_i st hst
      rw [hst] at hno
      exact (hno rfl).elim
    · rename_i rc st _ hst
      rw [hst] at hsame
      exact hs.of_eq rfl hsame
  · obtain ⟨hf, hnew⟩ := hg (by rw [hok])
    cases hh : s.hash path with
    | some a =>
      refine World.All.metadata path (dfsMkdir_all hi (hf.all hi hs) ?_ ?_)
      · intro b pe hp _ hpe
        exact ⟨fun _ => hpe.2 hp, fun _ => hpe.2 hp⟩
      · intro hn
        rw [hh] at hn
        cases hn
    | none =>
      -- there is no memory for an entry, so only the object has come
      have hnone : populateHash env { s with store := s.store.insert path (emptyObj .dir) } path
          .dir = none := by
        have hn := hnew hh
        unfold populateHash at hn ⊢
        split_ifs at hn ⊢
        rfl
      unfold dfsMkdir
      rw [hok]
      dsimp only
      rw [hh]
      dsimp only
      rw [hnone]
      exact hs.metadata_changed hi hf rfl (.inr (.inr ⟨_, rfl⟩))

theorem dfsMknod_metadata (hi : s.Inv) (hs : s.All HasMetadata)
    (hg : (dplMknod env s.store path).1 = .success → s.Filled path) :
    (dfsMknod env s path).2.All HasMetadata := by
  obtain ⟨hp, hh⟩ := dfsMknod_puts env s path
  rcases dplMknod_cases env s.store path with hok | ⟨hno, hsame⟩
  · apply World.All.metadata path
    apply ((hg (by rw [hok])).all hi hs).put hh hp
    intro a pe o hp _ hpe
    exact ⟨fun _ => hpe.2 hp, hpe.2⟩
  · apply hs.of_eq hh
    unfold dfsMknod
    split
    · rename_i st hst
      rw [hst] at hno
      exact (hno rfl).elim
    · rename_i rc st _ hst
      rw [hst] at hsame
      exact hsame

theorem dfsSymlink_metadata {oldpath : Path} (hi : s.Inv) (hs : s.All HasMetadata)
    (hg : (dplMknod env s.store path).1 = .success → s.Filled path)
    (h : dfsSymlink cx env s oldpath path = .ok (ret, t)) : t.All HasMetadata := by
  rcases dplMknod_cases env s.store path with hok | ⟨hno, hsame⟩
  · obtain ⟨hp, hh⟩ := dfsSymlink_puts h
    apply World.All.metadata path
    apply ((hg (by rw [hok])).all hi hs).put hh hp
    intro a pe o hp _ hpe
    exact ⟨fun _ => hpe.2 hp, hpe.2⟩
  · unfold dfsSymlink at h
    split at h
    · rename_i st hst
      rw [hst] at hno
      exact (hno rfl).elim
    · rename_i rc st _ hst
      rw [hst] at hsame
      simp only [Except.ok.injEq, Prod.mk.injEq] at h
      rw [← h.2]
      exact hs.of_eq rfl hsame

theorem renameFile_metadata {p q : Str} (hi : s.Inv) (hs : s.All HasMetadata)
    (hg : s.MoveFills env (s.text p) (s.text q))
    (h : renameFile cx env s p q = .ok (ret, t)) : t.All HasMetadata := by
  by_cases hok : (dplFcopy env s.store (s.text p) (s.text q)).1 = .success
  · apply World.All.metadata (s.text q)
    apply renameFile_all (HasMetadata.steady_at _).removable hi ((hg hok).all hi hs) ?_ h
    intro a pe o hp _ hpe
    exact ⟨fun _ => hpe.2 hp, hpe.2⟩
  · rcases renameFile_cases h with ⟨_, _, rfl⟩ | ⟨store, u, hst, _⟩
    · refine hs.of_eq ?_ ?_
      · rfl
      rcases dplFcopy_cases env s.store (s.text p) (s.text q) with
        ⟨_, hsame⟩ | ⟨_, _, _, o, _, _, hdone⟩
      · exact hsame
      · rw [hdone] at hok
        exact (hok rfl).elim
    · rw [hst] at hok
      exact (hok rfl).elim

theorem dfsRmdir_metadata {p : Str} (hs : s.All HasMetadata)
    (h : dfsRmdir cx env s p = .ok (ret, t)) : t.All HasMetadata := by
  apply dfsRmdir_all HasMetadata.steady.removable hs ?_ h
  intro a pe o _ _ _ _ _ hpe
  exact hpe.congr rfl (fun hn => by cases hn) id

theorem dfsRename_metadata {oldpath newpath : Path} (hi : s.Inv) (hs : s.All HasMetadata)
    (hg : s.RenameFills cx env oldpath (renameTarget oldpath newpath))
    (h : dfsRename cx env s oldpath newpath = .ok (ret, t)) : t.All HasMetadata := by
  unfold World.RenameFills at hg
  rcases dfsRename_cases h with ⟨_, _, rfl⟩ | ⟨htype, r, _, hr⟩ | ⟨htype, r, _, hr⟩
  · exact hs
  · rw [htype] at hg
    exact renameFile_metadata hi hs hg hr
  · rw [htype] at hg
    have hsteps : GuardedSteps cx env (fillGuard env) fun s => s.Inv ∧ s.All HasMetadata :=
      { aside := fun _ _ _ _ ⟨hi, hs⟩ => ⟨hi.congr rfl rfl rfl rfl, hs.of_eq rfl rfl⟩
        mkdir := fun _ _ hg ⟨hi, hs⟩ => ⟨(dfsMkdir_inv hi).1, dfsMkdir_metadata hi hs hg⟩
        file := fun _ _ _ _ _ hg ⟨hi, hs⟩ h =>
          ⟨renameFile_inv hi h, renameFile_metadata hi hs hg h⟩
        rmdir := fun _ _ _ _ _ ⟨hi, hs⟩ h => ⟨(dfsRmdir_inv hi h).1, dfsRmdir_metadata hs h⟩ }
    exact (renameDirectory_guarded hsteps _ _ _ _ _ _ hg ⟨hi, hs⟩ hr).2

/-- A release that does not send leaves the store as it is. -/
theorem releaseEntry_unsent {fs' : LocalFs} {st' : Store} {h : Handle} {pe pe' : Entry}
    (hno : ¬d.Sends cx env h pe)
    (hr : releaseEntry cx env d.world.store d.world.fs h.path h.flags pe =
      .ok (ret, pe', fs', st')) : st' = d.world.store := by
  unfold releaseEntry at hr
  cases hfd : pe.fd with
  | none =>
    simp only [hfd, Except.ok.injEq, Prod.mk.injEq] at hr
    exact hr.2.2.2.symm
  | some fd =>
    rw [hfd] at hr
    dsimp only at hr
    split at hr
    · rename_i stat hsys hstat
      obtain ⟨qe, hq, hr⟩ := Except.bind_ok.mp hr
      obtain ⟨_, rfl⟩ := pentryDecRefcount_ok hq
      split_ifs at hr with hro hx
      · simp only [Except.ok.injEq, Prod.mk.injEq] at hr
        exact hr.2.2.2.symm
      · simp only [Except.ok.injEq, Prod.mk.injEq] at hr
        exact hr.2.2.2.symm
      · have hfail : (releaseUpload cx env d.world.store d.world.fs h.path fd stat).1 ≠ 0 := by
          intro h0
          refine hno ⟨fd, hfd, hro, by simpa using hx, hsys, fun stat' hstat' => ?_⟩
          obtain rfl := Option.some.inj (hstat.symm.trans hstat')
          exact h0
        obtain ⟨fs₁, hhand⟩ := releaseUpload_handed cx env d.world.fs h.path fd stat d.world.store
        rw [hhand] at hr hfail
        cases hh : handedAt cx env d.world.fs.scratchFd d.world.fs h.path fd stat with
        | none =>
          simp only [hh, Except.ok.injEq, Prod.mk.injEq] at hr
          exact hr.2.2.2.symm
        | some up =>
          rw [hh] at hfail
          simp only [hh, Except.ok.injEq, Prod.mk.injEq] at hr
          rw [← hr.2.2.2]
          exact sendUpload_failed hfail
    · simp only [Except.ok.injEq, Prod.mk.injEq] at hr
      exact hr.2.2.2.symm

theorem dfsRelease_metadata {h : Handle} (hi : d.world.Inv) (hs : d.world.All HasMetadata)
    (hg : ∀ pe, d.world.heap h.addr = some pe → d.Sends cx env h pe → d.world.Filled h.path)
    (hr : dfsRelease cx env d.world h.path h.flags h.addr = .ok (ret, t)) :
    t.All HasMetadata := by
  obtain ⟨pe, pe', fs, st, ha, hre, hst⟩ := dfsRelease_cases hr
  have hkept : ∀ {o qe qe' gs st'}, releaseEntry cx env d.world.store d.world.fs h.path h.flags qe =
      .ok (ret, qe', gs, st') → HasMetadata h.addr o qe → HasMetadata h.addr o qe' := by
    intro o qe qe' gs st' hq hqe
    have hspec := releaseEntry_spec hi.wf hq
    refine hqe.congr hspec.update.path id fun hu => ?_
    rw [hspec.usermd]
    exact hu
  by_cases hsend : d.Sends cx env h pe
  · apply World.All.metadata h.path
    refine dfsRelease_all hi ((hg pe ha hsend).all hi hs) ?_ ?_ hr
    · intro qe qe' gs st' _ hq hqe
      have hspec := releaseEntry_spec hi.wf hq
      refine ⟨hkept hq hqe.1, fun hp => ?_⟩
      rw [hspec.update.path] at hp
      rw [hspec.usermd]
      exact hqe.2 hp
    · intro b qe o hp _ hqe
      exact ⟨fun _ => hqe.2 hp, hqe.2⟩
  · have hsame := releaseEntry_unsent hsend hre
    have hset : (d.world.setEntry h.addr pe').All HasMetadata := by
      apply hs.setEntry
      rw [(releaseEntry_spec hi.wf hre).update.path]
      exact hkept hre (hs h.addr pe ha)
    rw [hst, hsame]
    exact hset.of_eq rfl rfl

theorem setAttributes_metadata {upd : Dict → Dict} {change : LocalFs → Nat → LocalFs}
    {call : SysCall} (hi : s.Inv) (hs : s.All HasMetadata)
    (h : setAttributes env s path upd change call = .ok (ret, t)) : t.All HasMetadata := by
  apply setAttributes_all hi hs ?_ h
  intro a pe md o' _ _ _ _ _
  rfl

theorem setAttributes_asserts {upd : Dict → Dict} {change : LocalFs → Nat → LocalFs}
    {call : SysCall} (hs : ∀ pe, s.entry path = some pe → pe.usermd ≠ none) :
    setAttributes env s path upd change call ≠ .error .assertion := by
  intro h
  unfold setAttributes at h
  cases hh : s.hash path with
  | none => simp [hh] at h
  | some a =>
    rw [hh] at h
    cases ha : s.heap a with
    | none => simp [World.deref, ha, bind, Except.bind] at h
    | some pe =>
      have he : s.entry path = some pe := by rw [World.entry, hh, Option.bind_some, ha]
      obtain ⟨md, hmd⟩ := Option.ne_none_iff_exists'.mp (hs pe he)
      simp only [World.deref, ha, hmd, pentryMdLock, bind, Except.bind] at h
      split_ifs at h
      · simp at h
      · dsimp only at h
        split at h <;> cases h

/-- A step that meets the condition leaves no entry without a dictionary. -/
theorem Calls.metadata {d' : Daemon} {op : Op} (hi : d.world.Inv) (hs : d.world.All HasMetadata)
    (hg : KeepsMetadata cx d ⟨op, env⟩) (h : Calls cx env d op ret d') :
    d'.world.All HasMetadata := by
  cases h with
  | getattr h => exact dfsGetattr_metadata hi hs hg h
  | opened h => exact dfsOpen_metadata hi hs hg h
  | openFailed _ h => exact dfsOpen_metadata hi hs hg h
  | created h => exact dfsCreate_metadata hi hs hg h
  | createFailed _ h => exact dfsCreate_metadata hi hs hg h
  | read => exact hs
  | written _ _ h =>
    obtain ⟨_, _, ⟨rfl, _⟩ | ⟨_, _, _, _, _, _, rfl⟩⟩ := dfsWrite_cases h
    · exact hs
    · exact hs.of_eq rfl rfl
  | notWritten _ => exact hs
  | released hidx h => exact dfsRelease_metadata hi hs (fun pe => hg _ pe hidx) h
  | notReleased => exact hs
  | unlink h => exact dfsUnlink_all HasMetadata.steady.removable hi hs h
  | rename h => exact dfsRename_metadata hi hs hg h
  | rmdir h => exact dfsRmdir_metadata hs h
  | mkdir => exact dfsMkdir_metadata hi hs hg
  | mknod => exact dfsMknod_metadata hi hs hg
  | symlink h => exact dfsSymlink_metadata hi hs hg h
  | chmod h => exact setAttributes_metadata hi hs h
  | chown h => exact setAttributes_metadata hi hs h
  | gc => exact gcCallback_all hs

end Steps

theorem World.All.metadataHeld {d : Daemon} (hi : d.world.Inv) (hs : d.world.All HasMetadata) :
    d.MetadataHeld := by
  have hsome : ∀ path pe, d.world.entry path = some pe → d.world.store.ftype? path ≠ none →
      pe.usermd ≠ none := by
    intro path pe he hx
    exact Option.isSome_iff_ne_none.mp (hs.filled_entry hi he hx)
  constructor
  · exact hsome
  · intro env path mode hx
    exact setAttributes_asserts fun pe he => hsome path pe he hx
  · intro env path uid gid hx
    exact setAttributes_asserts fun pe he => hsome path pe he hx

/-- Every entry of a path that exists has a dictionary in every state of a run whose steps keep to
the condition. -/
theorem metadata_held (cx : Ctx) {store : Store} {fs : LocalFs} {ring : Ring} {calls : List Call}
    (hw : fs.Wf)
    (hm : Transition.Meets (Daemon.step cx) (KeepsMetadata cx) (.init store fs ring) calls) :
    Transition.Always (Daemon.step cx) Daemon.MetadataHeld (.init store fs ring) calls := by
  apply Transition.always_of_meets (I := fun d => d.world.Inv ∧ d.world.All HasMetadata) ?_ ?_ ?_ hm
  · exact fun d ⟨hi, hs⟩ => hs.metadataHeld hi
  · intro d c d' ⟨hi, hs⟩ hg ht
    obtain ⟨ret, hc⟩ := Daemon.step_cases ht
    exact ⟨hc.inv hi, hc.metadata hi hs hg⟩
  · refine ⟨Daemon.init_inv hw, ?_⟩
    intro a pe ha
    cases ha

/-- A file is looked at, gets a mode and is made once more, as a link. -/
theorem metadata_held_sample :
    Transition.Always (Daemon.step Sample.plain) Daemon.MetadataHeld
      (Sample.daemon [(['/', 'f'], Sample.file [1])])
      [Sample.call (.getattr ['/', 'f']), Sample.call (.chmod ['/', 'f'] 420),
        Sample.call (.symlink ['/', 'a'] ['/', 'f'])] := by
  apply metadata_held Sample.plain Sample.fs_wf
  refine ⟨?_, trivial, ?_, trivial⟩
  · intro _ _ _ _
    refine ⟨fun _ => rfl, fun hno => (hno ⟨Sample.file [1], ?_⟩).elim⟩
    exact ⟨rfl, rfl, rfl, rfl, rfl⟩
  · intro _ pe he
    rw [← Option.some.inj he]
    rfl

/-- The mode of a new directory is changed before anything has looked at it. -/
theorem made_directory_aborts :
    ∃ d, Transition.exec (Daemon.step Sample.plain) (Sample.daemon [])
        [Sample.call (.mkdir ['/', 'd'])] = .ok d ∧
      d.world.store.ftype? ['/', 'd'] ≠ none ∧ (d.world.entry ['/', 'd']).isSome ∧
      dfsChmod (Sample.call (.chmod ['/', 'd'] 448)).env d.world ['/', 'd'] 448 =
        .error .assertion ∧
      ¬d.MetadataHeld := by
  refine ⟨_, rfl, by decide, by decide, rfl, fun h => ?_⟩
  exact h.chmod (Sample.call (.chmod ['/', 'd'] 448)).env ['/', 'd'] 448 (by decide) rfl

end DropletFs
