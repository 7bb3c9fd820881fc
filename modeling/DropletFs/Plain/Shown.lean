import DropletFs.Durable.Kept
import DropletFs.Remote.Refresh
import DropletFs.Table.Footprint
import DropletFs.Table.Unmount

/-! The content a client is shown under a path, and which callbacks change it. -/

namespace DropletFs

open CText LocalFs

/-- The descriptor of the cache file of a path. -/
def World.fdAt (s : World) (path : Path) : Option Nat := (s.entry path).bind (·.fd)

/-- What the object of a file stands for. -/
def fileOf (cx : Ctx) (o : Obj) : Option Bytes := if o.ftype = .dir then none else decode cx o

/-- The content shown under a path: that of its cache file, or else that of its object. -/
def World.file (cx : Ctx) (s : World) (path : Path) : Option Bytes :=
  match s.fdAt path with
  | some fd => s.fs.content fd
  | none => (s.store.lookup path).bind (fileOf cx)

section Shown

variable {cx : Ctx} {s t : World} {q : Path} {fd : Nat} {a : Addr} {pe : Entry}

theorem World.file_cached (h : s.fdAt q = some fd) : s.file cx q = s.fs.content fd := by
  rw [World.file, h]

theorem World.file_stored (h : s.fdAt q = none) :
    s.file cx q = (s.store.lookup q).bind (fileOf cx) := by
  rw [World.file, h]

theorem World.file_congr (hfd : t.fdAt q = s.fdAt q)
    (hc : ∀ fd, s.fdAt q = some fd → t.fs.content fd = s.fs.content fd)
    (hs : s.fdAt q = none → t.store.lookup q = s.store.lookup q) : t.file cx q = s.file cx q := by
  cases h : s.fdAt q with
  | none => rw [World.file_stored h, World.file_stored (hfd.trans h), hs h]
  | some fd => rw [World.file_cached h, World.file_cached (hfd.trans h), hc fd h]

theorem World.Inv.fdAt_of_heap (hi : s.Inv) (ha : s.heap a = some pe) :
    s.fdAt pe.path = pe.fd := by
  rw [World.fdAt, World.entry, hi.linked a pe ha, Option.bind_some, ha, Option.bind_some]

theorem World.Inv.heap_of_fdAt (hi : s.Inv) (h : s.fdAt q = some fd) :
    ∃ a pe, s.heap a = some pe ∧ pe.path = q ∧ pe.fd = some fd := by
  obtain ⟨pe, he, hfd⟩ := Option.bind_eq_some_iff.mp h
  obtain ⟨a, hh, ha⟩ := Option.bind_eq_some_iff.mp he
  obtain ⟨qe, hq, hp⟩ := hi.entry q a hh
  obtain rfl : pe = qe := Option.some.inj (ha.symm.trans hq)
  exact ⟨a, pe, ha, hp, hfd⟩

theorem fdAt_of_entry (h : t.entry q = s.entry q) : t.fdAt q = s.fdAt q := by
  rw [World.fdAt, World.fdAt, h]

/-- Entries that stay and hold what they held: so does the path. -/
theorem fdAt_of_sameFd (hi : s.Inv) (hti : t.Inv) (hk : s.Keeps t) (h : t.All (SameFd s)) :
    t.fdAt q = s.fdAt q := by
  cases hs : s.fdAt q with
  | some fd =>
    obtain ⟨a, pe, ha, rfl, hfd⟩ := hi.heap_of_fdAt hs
    obtain ⟨qe, hq, hp, -⟩ := hk a pe ha
    have hsame : qe.fd = (s.heap a).bind (·.fd) := h a qe hq
    rw [← hp, hti.fdAt_of_heap hq, hsame, ha]
    exact hfd
  | none =>
    cases ht : t.fdAt q with
    | none => rfl
    | some fd =>
      obtain ⟨a, qe, hq, rfl, hfd⟩ := hti.heap_of_fdAt ht
      have hsame : qe.fd = (s.heap a).bind (·.fd) := h a qe hq
      obtain ⟨pe, ha, hpfd⟩ := Option.bind_eq_some_iff.mp (hsame.symm.trans hfd)
      obtain ⟨re, hr, hp, -⟩ := hk a pe ha
      obtain rfl : qe = re := Option.some.inj (hq.symm.trans hr)
      rw [hp, hi.fdAt_of_heap ha, hpfd] at hs
      cases hs

/-- With the cache files untouched, only the objects of paths without one count. -/
theorem file_of_sameFd (hi : s.Inv) (hti : t.Inv) (hk : s.Keeps t) (h : t.All (SameFd s))
    (hfs : t.fs = s.fs) (hs : s.fdAt q = none →
      (t.store.lookup q).bind (fileOf cx) = (s.store.lookup q).bind (fileOf cx)) :
    t.file cx q = s.file cx q := by
  have hfd : t.fdAt q = s.fdAt q := fdAt_of_sameFd hi hti hk h
  cases hq : s.fdAt q with
  | none => rw [World.file_stored hq, World.file_stored (hfd.trans hq), hs hq]
  | some fd => rw [World.file_cached hq, World.file_cached (hfd.trans hq), hfs]

end Shown

section Names

variable {cx : Ctx} {env : Env} {s t : World} {path : Path} {ret : Int} (q : Path)

theorem dfsGetattr_file {st : Stat} (hi : s.Inv) (h : dfsGetattr env s path = .ok (ret, st, t)) :
    t.file cx q = s.file cx q := by
  obtain ⟨hti, hk⟩ := dfsGetattr_inv hi h
  have hst := dfsGetattr_store hi h
  apply file_of_sameFd hi hti hk (dfsGetattr_sameFd hi h) (dfsGetattr_fs hi h)
  intro _
  rw [hst]

/-- A directory that comes or goes is no file. -/
theorem dfsMkdir_file (hi : s.Inv) :
    (dfsMkdir env s path).2.file cx q = s.file cx q := by
  have hkeep : (dfsMkdir env s path).2.Inv ∧ s.Keeps (dfsMkdir env s path).2 := dfsMkdir_inv hi
  apply file_of_sameFd hi hkeep.1 hkeep.2 (dfsMkdir_sameFd hi) (dfsMkdir_fs env s path)
  intro _
  rw [(dfsMkdir_effect env s path).1]
  rcases dplMkdir_cases env s.store path with ⟨-, he⟩ | ⟨-, -, hnone, he⟩
  · rw [he]
  · rw [he]
    by_cases hq : q = path
    · rw [hq, AList.lookup_insert, hnone]
      rfl
    · rw [AList.lookup_insert_ne hq]

theorem dfsRmdir_file (hi : s.Inv) (h : dfsRmdir cx env s (.ext path) = .ok (ret, t)) :
    t.file cx q = s.file cx q := by
  obtain ⟨hti, hk⟩ := dfsRmdir_inv hi h
  apply file_of_sameFd hi hti hk (dfsRmdir_sameFd h) (dfsRmdir_fs h)
  intro _
  rw [(dfsRmdir_effect h).1]
  rcases dplRmdir_cases env s.store path with ⟨-, he⟩ | ⟨-, hroot, hdir, -, he⟩
  · rw [he]
  · rw [he]
    by_cases hq : q = path
    · rw [Store.ftype?, if_neg hroot] at hdir
      obtain ⟨o, ho, htype⟩ := Option.map_eq_some_iff.mp hdir
      rw [hq, AList.lookup_erase, ho, Option.bind_some, fileOf, if_pos htype]
      rfl
    · rw [AList.lookup_erase_ne hq]

theorem dfsMknod_file (hn : s.fdAt path = none) :
    if (dfsMknod env s path).1 = 0 then
      (dfsMknod env s path).2.file cx = Function.update (s.file cx) path (some [])
    else (dfsMknod env s path).2.file cx = s.file cx := by
  rcases dplMknod_cases env s.store path with he | ⟨hfail, he⟩
  · have hmade : dfsMknod env s path =
        (0, { s with store := s.store.insert path (emptyObj .reg) }) := by
      simp only [dfsMknod, he]
    rw [hmade, if_pos rfl]
    funext p
    by_cases hp : p = path
    · have hat : ∀ st, World.fdAt { s with store := st } path = none := fun _ => hn
      rw [hp, Function.update_self, World.file_stored (hat _), AList.lookup_insert]
      rfl
    · rw [Function.update_of_ne hp]
      exact World.file_congr rfl (fun _ _ => rfl) fun _ => AList.lookup_insert_ne hp
  · have hnot : dfsMknod env s path = (-1, s) := by
      unfold dfsMknod
      generalize dplMknod env s.store path = r at hfail he
      obtain ⟨rc, st⟩ := r
      obtain rfl : st = s.store := he
      cases rc with
      | success => exact (hfail rfl).elim
      | _ => rfl
    rw [hnot, if_neg (by simp)]

theorem World.Inv.fdAt_onEntry (hi : s.Inv) {f : Entry → Entry} (hf : ∀ pe, (f pe).fd = pe.fd)
    (p : Path) : (s.onEntry p f).fdAt q = s.fdAt q := by
  by_cases hq : q = p
  · rw [hq, World.fdAt, World.fdAt, World.onEntry_entry_self]
    cases s.entry p with
    | none => rfl
    | some pe => exact hf pe
  · exact fdAt_of_entry (hi.onEntry_entry_of_ne hq f)

theorem World.Inv.file_onEntry (hi : s.Inv) {f : Entry → Entry} (hf : ∀ pe, (f pe).fd = pe.fd)
    (p : Path) : (s.onEntry p f).file cx q = s.file cx q := by
  apply World.file_congr (hi.fdAt_onEntry q hf p)
  · rw [onEntry_fs]
    exact fun _ _ => rfl
  · rw [(World.onEntry_rest s p f).1]
    exact fun _ => rfl

theorem World.hashRemove_fs (s : World) (path : Path) :
    (s.hashRemove path).fs = s.fs.closeOpt (s.fdAt path) := by
  unfold World.hashRemove World.pentryFree World.fdAt World.entry
  cases s.hash path with
  | none => rfl
  | some a =>
    dsimp only
    rw [Option.bind_some]
    cases s.heap a with
    | none => rfl
    | some pe => rfl

/-- Without its entry a path shows its object; the other paths show what they did. -/
theorem World.Inv.file_hashRemove (hi : s.Inv) (path : Path) :
    (s.hashRemove path).file cx q =
      if q = path then (s.store.lookup path).bind (fileOf cx) else s.file cx q := by
  split_ifs with hq
  · have hn : (s.hashRemove path).fdAt q = none := by
      rw [hq, World.fdAt, World.entry, World.hashRemove_hash, if_pos rfl]
      rfl
    rw [World.file_stored hn, World.hashRemove_store, hq]
  · apply World.file_congr (fdAt_of_entry (hi.hashRemove_entry_of_ne hq))
    · intro fd hfd
      rw [World.hashRemove_fs]
      cases hp : s.fdAt path with
      | none => rfl
      | some gd =>
        have hne : fd ≠ gd := by
          intro he
          obtain ⟨a, pe, ha, hpa, hpfd⟩ := hi.heap_of_fdAt hfd
          obtain ⟨b, re, hb, hrp, hrfd⟩ := hi.heap_of_fdAt hp
          rw [← he] at hrfd
          have hab := hi.distinct a b pe re fd ha hb hpfd hrfd
          rw [hab, hb, Option.some.injEq] at ha
          exact hq (hpa.symm.trans ((congrArg Entry.path ha).symm.trans hrp))
        simp [LocalFs.closeOpt, LocalFs.close, LocalFs.content, inodeOf, AList.lookup_erase_ne hne]
    · intro _
      rw [World.hashRemove_store]

theorem dplUnlink_goes {st : Store} {o : Obj} (hr : env.remote (.unlink path) = .success)
    (hroot : path ≠ rootPath) (ho : st.lookup path = some o) (htype : o.ftype ≠ .dir) :
    (dplUnlink env st path).1 = .success := by
  unfold dplUnlink
  simp only [hr, Store.ftype?, if_neg hroot, ho, Option.map_some]

/-- An unlink that returns 0 takes the file away; any other does nothing. -/
theorem dfsUnlink_file (hi : s.Inv) (h : dfsUnlink cx env s (.ext path) = .ok (ret, t)) :
    if ret = 0 then t.file cx = Function.update (s.file cx) path none
    else t.file cx = s.file cx := by
  rcases dfsUnlink_cases h with ⟨rfl, hno, rfl⟩ | ⟨store, u, hst, -, hu, hcase⟩
  · rw [if_neg (by decide)]
    have hsame : (dplUnlink env s.store path).2 = s.store := by
      rcases dplUnlink_cases env s.store path with ⟨-, he⟩ | ⟨-, -, -, he⟩
      · exact he
      · exact (hno (congrArg Prod.fst he)).elim
    change World.file cx { s with store := (dplUnlink env s.store path).2 } = _
    rw [hsame]
  have herase : store = s.store.erase path := by
    have hst' : dplUnlink env s.store path = (.success, store) := hst
    rcases dplUnlink_cases env s.store path with ⟨hno, -⟩ | ⟨-, -, -, he⟩
    · exact (hno (congrArg Prod.fst hst')).elim
    · exact (congrArg Prod.snd (hst'.symm.trans he))
  have hui : u.Inv := by
    rw [hu]
    exact (hi.tryUnlink env _ (slashName cx path)).congr rfl rfl rfl rfl
  have hat : ∀ p, u.fdAt p = s.fdAt p := by
    rw [hu]
    exact fun p => rfl
  have hcont : u.fs.content = s.fs.content := by
    rw [hu]
    exact funext fun fd => tryUnlink_content _ _ _ _ fd
  have hust : u.store = s.store.erase path := by
    rw [hu]
    exact herase
  have hother : ∀ p, p ≠ path → u.file cx p = s.file cx p := by
    intro p hp
    apply World.file_congr (hat p)
    · rw [hcont]
      exact fun _ _ => rfl
    · rw [hust]
      exact fun _ => AList.lookup_erase_ne hp
  have hgone : (u.store.lookup path).bind (fileOf cx) = none := by
    rw [hust, AList.lookup_erase]
    rfl
  rcases hcase with ⟨rfl, hnone, rfl⟩ | ⟨-, he⟩
  · rw [if_pos rfl]
    funext p
    by_cases hp : p = path
    · have hn : t.fdAt path = none := by
        rw [hat, World.fdAt, World.entry]
        have hh : s.hash path = none := hnone
        rw [hh]
        rfl
      rw [hp, Function.update_self, World.file_stored hn, hgone]
    · rw [Function.update_of_ne hp, hother p hp]
  · obtain ⟨rfl, freed, v, -, rfl, ht⟩ := unlinkEntry_cases he
    have htext : u.text (.ext path) = path := rfl
    rw [htext] at ht
    have hv : ∀ p, World.file cx { u.hashRemove path with ring := u.ring.push (tmpstr freed) } p =
        Function.update (s.file cx) path none p := by
      intro p
      apply (hui.file_hashRemove p path).trans
      split_ifs with hp
      · rw [hp, Function.update_self, hgone]
      · rw [Function.update_of_ne hp, hother p hp]
    rw [if_pos rfl]
    funext p
    rcases ht with ⟨-, rfl⟩ | ⟨parent, -, rfl⟩
    · exact hv p
    · have hvi : World.Inv { u.hashRemove path with ring := u.ring.push (tmpstr freed) } :=
        (hui.hashRemove path).congr rfl rfl rfl rfl
      apply (hvi.file_onEntry p (fun pe => (pentryRemoveDirent_fields pe _).2.1) parent).trans
      exact hv p

/-- A rename of a file that is not cached, to a name that is not, moves it when it returns 0. -/
theorem renameFile_file {a b : Path} (hi : s.Inv) (ha : s.fdAt a = none) (hb : s.fdAt b = none)
    (hne : a ≠ b) (hr : env.remote (.unlink a) = .success)
    (h : renameFile cx env s (.ext a) (.ext b) = .ok (ret, t)) :
    ret = 0 ∧ t.file cx =
      Function.update (Function.update (s.file cx) a none) b (s.file cx a) ∨
    ret = -1 ∧ t.file cx = s.file cx := by
  rcases renameFile_cases h with ⟨rfl, hno, rfl⟩ | ⟨store, u, hst, hu, ht⟩
  · refine .inr ⟨rfl, ?_⟩
    have hsame : (dplFcopy env s.store a b).2 = s.store := by
      rcases dplFcopy_cases env s.store a b with ⟨-, he⟩ | ⟨-, -, -, _, -, -, he⟩
      · exact he
      · exact (hno (congrArg Prod.fst he)).elim
    change World.file cx { s with store := (dplFcopy env s.store a b).2 } = _
    rw [hsame]
  have hst' : dplFcopy env s.store a b = (.success, store) := hst
  rcases dplFcopy_cases env s.store a b with ⟨hno, -⟩ | ⟨-, hroot, -, o, ho, htype, he⟩
  · exact (hno (congrArg Prod.fst hst')).elim
  obtain rfl : s.store.insert b o = store := congrArg Prod.snd (he.symm.trans hst')
  have hcopy : ∀ q, World.file cx { s with store := s.store.insert b o } q =
      if q = b then s.file cx a else s.file cx q := by
    intro q
    split_ifs with hq
    · have hat : ∀ st, World.fdAt { s with store := st } b = none := fun _ => hb
      rw [hq, World.file_stored (hat _), World.file_stored ha, AList.lookup_insert, ho]
    · exact World.file_congr rfl (fun _ _ => rfl) fun _ => AList.lookup_insert_ne hq
  have hsi : World.Inv { s with store := s.store.insert b o } := hi.congr rfl rfl rfl rfl
  have hui : u.Inv ∧ u.store = s.store.insert b o ∧
      ∀ q, u.file cx q = if q = b then s.file cx a else s.file cx q := by
    rcases hu with rfl | ⟨dirname, -, rfl⟩
    · exact ⟨hsi, rfl, hcopy⟩
    · refine ⟨onEntry_removeDirent_inv hsi dirname a, (World.onEntry_rest _ _ _).1, fun q => ?_⟩
      apply (hsi.file_onEntry q (fun pe => (pentryRemoveDirent_fields pe _).2.1) dirname).trans
      exact hcopy q
  obtain ⟨hui, hust, hufile⟩ := hui
  have hunlink := dfsUnlink_file hui ht
  have h0 : ret = 0 := by
    rcases dfsUnlink_cases ht with ⟨-, hno, -⟩ | ⟨_, _, -, -, -, ⟨h0, -⟩ | ⟨-, hlast⟩⟩
    · have hlook : u.store.lookup a = some o := by
        rw [hust, AList.lookup_insert_ne hne]
        exact ho
      exact (hno (dplUnlink_goes hr hroot hlook htype)).elim
    · exact h0
    · exact (unlinkEntry_cases hlast).1
  refine .inl ⟨h0, ?_⟩
  rw [if_pos h0] at hunlink
  rw [hunlink]
  funext q
  by_cases hqa : q = a
  · rw [hqa, Function.update_self, Function.update_of_ne hne, Function.update_self]
  · rw [Function.update_of_ne hqa, hufile]
    split_ifs with hqb
    · rw [hqb, Function.update_self]
    · rw [Function.update_of_ne hqb, Function.update_of_ne hqa]

end Names

end DropletFs
