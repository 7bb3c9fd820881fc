import DropletFs.Framework.Fault
import DropletFs.Model.DictRefs
import DropletFs.Model.Sample

/-! Who owns the dictionary of an entry. `dfs_create` on an entry that has one hands it to
`pentry_set_usermd`, which frees it before it is copied. -/

namespace DropletFs

open CText RefStore

/-- The dictionary of an entry as callbacks leave it, whatever happens to other dictionaries. -/
inductive OwnReached : Option Ref → DictStore → Prop
  | fresh (ds : DictStore) : OwnReached none ds
  | others {own : Option Ref} {ds ds' : DictStore} : OwnReached own ds →
      (∀ r, own = some r → ds'.cell r = ds.cell r) → OwnReached own ds'
  | assign {r : Ref} {ds ds' : DictStore} {d : Dict} : OwnReached (some r) ds →
      ds.write r d = .ok ds' → OwnReached (some r) ds'
  | set {env : Env} {own own' : Option Ref} {ds ds' : DictStore} {dict : Ref} {ret : Int} :
      OwnReached own ds → pentrySetUsermdRefs env ds own dict = .ok (ret, own', ds') →
      OwnReached own' ds'
  | create {env : Env} {st st' : DropletFs.Store} {fs fs' : LocalFs} {path : Path} {mode : Nat}
      {exclude : Bool} {pe pe' : Entry} {own own' : Option Ref} {ds ds' : DictStore} {ret : Int} :
      OwnReached own ds →
      createOpenedRefs env st fs path mode exclude pe own ds = .ok (ret, pe', fs', st', own', ds') →
      OwnReached own' ds'

/-- `pentry_set_usermd` reads and frees live dictionaries only. -/
def SetOwns (env : Env) (ds : DictStore) (own : Option Ref) (dict : Ref) : Prop :=
  ∃ out, pentrySetUsermdRefs env ds own dict = .ok out

/-- The dictionary holds the fields of the file, the mode, and what else was there before. -/
structure DictDescribes (d prev : Dict) (stat : Stat) (mode : Nat) : Prop where
  mode : d .mode = some (ulongText mode)
  fields : ∀ key v, key ≠ .mode → stat.field key = some v → d key = some (ulongText v)
  others : ∀ key text, stat.field key = none → prev key = some text → d key = some text

/-- `dfs_create` reads and frees live dictionaries only, and after a return of 0 the dictionary of
the entry is live and describes the file. -/
def CreateOwns (env : Env) (st : DropletFs.Store) (fs : LocalFs) (path : Path) (mode : Nat)
    (exclude : Bool) (pe : Entry) (own : Option Ref) (ds : DictStore) : Prop :=
  createOpenedRefs env st fs path mode exclude pe own ds ≠ .error .useAfterFree ∧
  ∀ pe' fs' st' own' ds',
    createOpenedRefs env st fs path mode exclude pe own ds = .ok (0, pe', fs', st', own', ds') →
    ∃ fd stat r d, pe.fd = some fd ∧ fs'.fstat fd env.times = some stat ∧ own' = some r ∧
      ds'.cell r = some d ∧ DictDescribes d ((own.bind ds.cell).getD Dict.empty) stat mode

/-- The file is open, and its mode can be set and read back. -/
def FillsDict (env : Env) (fs : LocalFs) (mode : Nat) (pe : Entry) : Prop :=
  ∃ fd stat, pe.fd = some fd ∧ env.sys .fchmodCreate = none ∧
    (fs.fchmod fd mode).fstat fd env.times = some stat ∧ env.sys .fstatCreate = none

/-- The updates of a new dictionary go through. Of the two of the mode the second is enough, and the
first when it writes the same. -/
def UpdatesDict (env : Env) (mode : Nat) : Prop :=
  (∀ key ∈ [MdKey.size, .uid, .gid, .atime, .mtime, .ctime], env.lib (.updateMeta key) = true) ∧
    (env.lib .updateMode = true ∨ env.lib (.updateMeta .mode) = true ∧
      LocalFs.regularMode mode = mode)

/-- The entry has no dictionary of its own when one is filled; and where the create goes through,
so do the updates and the allocations of `pentry_set_usermd`, whose failures nothing looks at. -/
def CreateClean (env : Env) (st : DropletFs.Store) (fs : LocalFs) (path : Path) (mode : Nat)
    (exclude : Bool) (pe : Entry) (own : Option Ref) : Prop :=
  FillsDict env fs mode pe → pe.mdLocked = false → own = none ∧ (env.lib .createDict = true →
    (exclude = true ∨ (dplMknod env st path).1 = .success) →
      UpdatesDict env mode ∧ env.lib .usermdDict = true ∧ env.lib .usermdCopy = true)

section Set

variable {ds : DictStore} {own : Option Ref} {dict : Ref} {src : Dict}

/-- The entry's own dictionary: freed before it is read. -/
theorem pentrySetUsermdRefs_self (env : Env) (hdict : ds.cell dict = some src) :
    ∃ t, t.cell = Function.update ds.cell dict none ∧
      pentrySetUsermdRefs env ds (some dict) dict =
        if env.lib .usermdDict = true then .error .freed else .ok (-1, none, t) := by
  obtain ⟨t, ht, hcell, hnext⟩ := Store.free_live hdict
  refine ⟨t, hcell, ?_⟩
  have hne : dict ≠ (t.alloc Dict.empty).1 := by
    intro he
    have hlt := Store.lt_next hdict
    rw [← hnext, he] at hlt
    exact Nat.lt_irrefl _ hlt
  have hread : (t.alloc Dict.empty).2.read dict = .error .freed := by
    apply Store.read_freed
    rw [Store.alloc_ne t _ hne, hcell]
    exact Function.update_self ..
  have hfree : ds.freeOpt (some dict) = .ok t := ht
  cases hnew : env.lib .usermdDict with
  | false => simp [pentrySetUsermdRefs, hfree, hnew, bind, Except.bind]
  | true => simp [pentrySetUsermdRefs, hfree, hnew, hread, bind, Except.bind]

/-- Any other dictionary is copied, and stays as it is. -/
theorem pentrySetUsermdRefs_other (env : Env) (hdict : ds.cell dict = some src)
    (hne : own ≠ some dict) (hown : ∀ r, own = some r → ds.cell r ≠ none) :
    ∃ ret own' ds', pentrySetUsermdRefs env ds own dict = .ok (ret, own', ds') ∧
      ds'.cell dict = some src ∧ own' ≠ some dict ∧ (∀ r, own' = some r → ds'.cell r ≠ none) ∧
      ∀ pe, pentrySetUsermd env pe src = (ret, { pe with usermd := own'.bind ds'.cell }) := by
  obtain ⟨t, ht, hsrc⟩ : ∃ t, ds.freeOpt own = .ok t ∧ t.cell dict = some src := by
    cases own with
    | none => exact ⟨ds, rfl, hdict⟩
    | some r =>
      obtain ⟨b, hb⟩ := Option.ne_none_iff_exists'.mp (hown r rfl)
      obtain ⟨t, ht, hcell, _⟩ := Store.free_live hb
      have hr : dict ≠ r := fun h => hne (congrArg some h.symm)
      exact ⟨t, ht, by rw [hcell, Function.update_of_ne hr, hdict]⟩
  have hfresh : dict ≠ (t.alloc Dict.empty).1 := by
    intro h
    have hnone := t.alloc_fresh Dict.empty
    rw [← h, hsrc] at hnone
    cases hnone
  have hread : (t.alloc Dict.empty).2.cell dict = some src := by
    rw [Store.alloc_ne t _ hfresh, hsrc]
  cases hnew : env.lib .usermdDict with
  | false =>
    refine ⟨-1, none, t, ?_, hsrc, by simp, by simp, fun pe => by simp [pentrySetUsermd, hnew]⟩
    simp [pentrySetUsermdRefs, ht, hnew, bind, Except.bind]
  | true =>
    cases hcopy : env.lib .usermdCopy with
    | false =>
      refine ⟨-1, some (t.alloc Dict.empty).1, (t.alloc Dict.empty).2, ?_, hread, ?_, ?_, ?_⟩
      · simp [pentrySetUsermdRefs, ht, hnew, hcopy, Store.read_live hread, bind, Except.bind]
      · intro h
        exact hfresh (Option.some.inj h).symm
      · intro r hr
        rw [← Option.some.inj hr, Store.alloc_cell]
        simp
      · intro pe
        simp [pentrySetUsermd, hnew, hcopy, Store.alloc_cell]
    | true =>
      obtain ⟨u, hu, hcell⟩ := Store.write_live (a := src) (t.alloc_cell Dict.empty)
      refine ⟨0, some (t.alloc Dict.empty).1, u, ?_, ?_, ?_, ?_, ?_⟩
      · simp [pentrySetUsermdRefs, ht, hnew, hcopy, Store.read_live hread, hu, bind, Except.bind]
      · rw [hcell, Function.update_of_ne hfresh, hread]
      · intro h
        exact hfresh (Option.some.inj h).symm
      · intro r hr
        rw [← Option.some.inj hr, hcell, Function.update_self]
        simp
      · intro pe
        simp [pentrySetUsermd, hnew, hcopy, hcell]

end Set

section Create

variable {env : Env} {st st' : DropletFs.Store} {fs fs' : LocalFs} {path : Path} {mode : Nat}
  {exclude : Bool} {pe pe' : Entry} {stat : Stat} {own own' : Option Ref} {ds ds' : DictStore}
  {dict r : Ref} {ret : Int} {prev : Dict}

/-- What `dfs_create` fills a dictionary with. -/
abbrev filledDict (env : Env) (prev : Dict) (stat : Stat) (mode : Nat) : Dict :=
  assignMetaToDict (env.lib .updateMode) (fillMetadataFromStat env prev stat) .mode mode

theorem filledDict_mode (env : Env) (prev : Dict) (stat : Stat) (mode : Nat) :
    filledDict env prev stat mode .mode =
      if env.lib .updateMode = true then some (ulongText mode)
      else fillMetadataFromStat env prev stat .mode := by
  rw [filledDict, assignMetaToDict_apply]
  simp

theorem filledDict_of_ne (env : Env) (prev : Dict) (stat : Stat) (mode : Nat) {key : MdKey}
    (hne : key ≠ .mode) :
    filledDict env prev stat mode key = fillMetadataFromStat env prev stat key := by
  rw [filledDict, assignMetaToDict_apply, if_neg fun h => hne h.2]

theorem Stat.field_of_mem (stat : Stat) {key : MdKey}
    (h : key ∈ [MdKey.size, .uid, .gid, .atime, .mtime, .ctime]) :
    key ≠ .mode ∧ ∃ v, stat.field key = some v := by
  cases key <;> simp [Stat.field] at h ⊢

theorem Stat.mem_of_field {key : MdKey} {v : Nat} (hne : key ≠ .mode)
    (h : stat.field key = some v) : key ∈ [MdKey.size, .uid, .gid, .atime, .mtime, .ctime] := by
  cases key <;> simp [Stat.field] at h hne ⊢

/-- A dictionary that was empty describes the file exactly when it has been updated. -/
theorem filledDict_describes_iff (env : Env) (hmode : stat.mode = LocalFs.regularMode mode) :
    DictDescribes (filledDict env Dict.empty stat mode) Dict.empty stat mode ↔
      UpdatesDict env mode := by
  constructor
  · intro h
    constructor
    · intro key hkey
      obtain ⟨hne, v, hv⟩ := stat.field_of_mem hkey
      have hfield := h.fields key v hne hv
      rw [filledDict_of_ne _ _ _ _ hne, fillMetadataFromStat_apply] at hfield
      by_contra hno
      rw [if_neg hno] at hfield
      cases hfield
    · have hm := h.mode
      rw [filledDict_mode] at hm
      by_cases hup : env.lib .updateMode = true
      · exact .inl hup
      rw [if_neg hup, fillMetadataFromStat_apply] at hm
      by_cases hfirst : env.lib (.updateMeta .mode) = true
      · rw [if_pos hfirst] at hm
        have htext : ulongText stat.mode = ulongText mode := Option.some.inj hm
        exact .inr ⟨hfirst, by rw [← hmode, ulongText_inj htext]⟩
      · rw [if_neg hfirst] at hm
        cases hm
  · intro ⟨hkeys, hm⟩
    refine ⟨?_, fun key v hne hv => ?_, fun key text _ hprev => by cases hprev⟩
    · rw [filledDict_mode]
      split_ifs with hup
      · rfl
      · obtain ⟨hfirst, heq⟩ := hm.resolve_left hup
        rw [fillMetadataFromStat_apply, if_pos hfirst]
        show some (ulongText stat.mode) = _
        rw [hmode, heq]
    · rw [filledDict_of_ne _ _ _ _ hne, fillMetadataFromStat_apply,
        if_pos (hkeys key (Stat.mem_of_field hne hv)), hv]
      rfl

/-- The mode that `fstat` reports once it has been set. -/
theorem LocalFs.fchmod_fstat_mode {fd : Nat} {times : Int × Int × Int}
    (h : (fs.fchmod fd mode).fstat fd times = some stat) : stat.mode = LocalFs.regularMode mode := by
  cases hl : fs.fds.lookup fd with
  | none =>
    rw [LocalFs.fchmod, hl] at h
    simp [LocalFs.fstat, LocalFs.inodeOf, hl] at h
  | some f =>
    rw [LocalFs.fchmod, hl] at h
    simp only [LocalFs.fstat, LocalFs.inodeOf, LocalFs.chmod, hl, Option.map_some,
      Function.update_self, Option.some.injEq] at h
    rw [← h]

/-- The entry's own dictionary is filled, freed, and then read or freed once more. -/
theorem createStore_self (hl : pe.mdLocked = false) (hdict : ds.cell dict = some prev) :
    createStore env st fs path mode exclude pe stat (some dict) dict ds =
      .error .useAfterFree := by
  obtain ⟨u, hu, hcell⟩ := Store.write_live (s := ds)
    (a := filledDict env prev stat mode) hdict
  have hlive : u.cell dict =
      some (filledDict env prev stat mode) := by
    rw [hcell, Function.update_self]
  obtain ⟨t, htcell, hset⟩ := pentrySetUsermdRefs_self env hlive
  have hagain : t.free dict = .error .freed := by
    apply Store.free_freed
    rw [htcell, Function.update_self]
  cases hnew : env.lib .usermdDict with
  | true =>
    rw [if_pos hnew] at hset
    simp [createStore, createFill, pentryMdLock, hl, Store.read_live hdict, hu, hset, bind,
      Except.bind, Except.mapError, memFault]
  | false =>
    rw [if_neg (by simp [hnew])] at hset
    simp [createStore, createFill, pentryMdLock, hl, Store.read_live hdict, hu, hset, hagain, bind,
      Except.bind, Except.mapError, memFault]

/-- A dictionary that the entry does not have: filled, copied and freed. -/
theorem createStore_other (env : Env) (st : DropletFs.Store) (fs : LocalFs) (path : Path)
    (mode : Nat) (exclude : Bool) (stat : Stat) (hl : pe.mdLocked = false)
    (hdict : ds.cell dict = some prev) :
    ∃ own' ds', createStore env st fs path mode exclude pe stat none dict ds =
        .ok (if (if exclude then (.success, st) else dplMknod env st path).1 = .success then 0
          else -1, pe, fs, (if exclude then (.success, st) else dplMknod env st path).2,
          own', ds') ∧
      (∀ r, own' = some r → ds'.cell r ≠ none) ∧
      ∀ pe', (pentrySetUsermd env pe' (filledDict env prev stat mode)).2 = { pe' with usermd := own'.bind ds'.cell } := by
  obtain ⟨u, hu, hcell⟩ := Store.write_live (s := ds)
    (a := filledDict env prev stat mode) hdict
  have hlive : u.cell dict =
      some (filledDict env prev stat mode) := by
    rw [hcell, Function.update_self]
  obtain ⟨ret, own', v, hset, hv, hne, hown, hval⟩ := pentrySetUsermdRefs_other env hlive
    (show none ≠ some dict by simp) (by simp)
  obtain ⟨w, hw, hwcell, _⟩ := Store.free_live hv
  have hkept : ∀ r, own' = some r → w.cell r = v.cell r := by
    intro r hr
    have hrd : r ≠ dict := fun h => hne (by rw [hr, h])
    rw [hwcell, Function.update_of_ne hrd]
  refine ⟨own', w, ?_, ?_, ?_⟩
  · have hpe : pentryMdUnlock { pe with mdLocked := true } = pe := by
      cases pe
      simp only at hl
      subst hl
      rfl
    simp only [createStore, createFill, pentryMdLock, hl, Store.read_live hdict, hu, hset, hw, bind,
      Except.bind, Except.mapError, Bool.false_eq_true, if_false, hpe]
  · intro r hr
    rw [hkept r hr]
    exact hown r hr
  · intro pe'
    rw [hval pe']
    cases own' with
    | none => rfl
    | some r => simp only [Option.bind_some, hkept r rfl]

/-- Before a dictionary is looked at, the entry keeps its own, and no stop returns 0. -/
theorem createOpenedRefs_stops (st : DropletFs.Store) (path : Path) (exclude : Bool)
    (own : Option Ref) (ds : DictStore) (h : ¬FillsDict env fs mode pe) :
    ∃ ret pe' fs', createOpenedRefs env st fs path mode exclude pe own ds =
      .ok (ret, pe', fs', st, own, ds) ∧ ret < 0 := by
  unfold createOpenedRefs
  cases hfd : pe.fd with
  | none =>
    refine ⟨-1, { pe with exclude := exclude }, fs, ?_, by omega⟩
    simp only [hfd]
  | some fd =>
    dsimp only
    cases hchmod : env.sys .fchmodCreate with
    | some e => exact ⟨-e.num, _, fs, rfl, e.neg_num_lt⟩
    | none =>
      cases hstat : (fs.fchmod fd mode).fstat fd env.times with
      | none => exact ⟨-Errno.ebadf.num, _, fs, rfl, Errno.ebadf.neg_num_lt⟩
      | some stat =>
        cases hst : env.sys .fstatCreate with
        | some e => exact ⟨-e.num, _, _, rfl, e.neg_num_lt⟩
        | none => exact absurd ⟨fd, stat, hfd, hchmod, hstat, hst⟩ h

theorem createOpenedRefs_fills {fd : Nat} (hfd : pe.fd = some fd)
    (hchmod : env.sys .fchmodCreate = none)
    (hstat : (fs.fchmod fd mode).fstat fd env.times = some stat)
    (hst : env.sys .fstatCreate = none) :
    createOpenedRefs env st fs path mode exclude pe own ds =
      match own with
      | some usermd => createStore env st (fs.fchmod fd mode) path mode exclude
          { pe with exclude := exclude } stat own usermd ds
      | none =>
        if !env.lib .createDict then
          .ok (-1, { pe with exclude := exclude }, fs.fchmod fd mode, st, own, ds)
        else
          createStore env st (fs.fchmod fd mode) path mode exclude { pe with exclude := exclude }
            stat none (ds.alloc Dict.empty).1 (ds.alloc Dict.empty).2 := by
  unfold createOpenedRefs
  simp only [hfd, hchmod, hstat, hst]
  cases own <;> rfl

theorem createStore_locked (hl : pe.mdLocked = true) :
    createStore env st fs path mode exclude pe stat own dict ds = .error .blocked := by
  simp [createStore, pentryMdLock, hl, bind, Except.bind]

/-- The dictionary part of a create is right exactly when it is clean. -/
theorem createOpenedRefs_owns_iff (hown : ∀ r, own = some r → ds.cell r ≠ none) :
    CreateOwns env st fs path mode exclude pe own ds ↔
      CreateClean env st fs path mode exclude pe own := by
  unfold CreateOwns CreateClean
  by_cases hfills : FillsDict env fs mode pe
  · obtain ⟨fd, stat, hfd, hchmod, hstat, hst⟩ := id hfills
    have hmode := LocalFs.fchmod_fstat_mode hstat
    rw [createOpenedRefs_fills hfd hchmod hstat hst]
    generalize hq : ({ pe with exclude := exclude } : Entry) = qe
    have hlock : qe.mdLocked = pe.mdLocked := by rw [← hq]
    cases own with
    | some r =>
      obtain ⟨prev, hprev⟩ := Option.ne_none_iff_exists'.mp (hown r rfl)
      dsimp only
      by_cases hl : pe.mdLocked = false
      · rw [createStore_self (hlock.trans hl) hprev]
        refine iff_of_false (fun h => h.1 rfl) (fun h => ?_)
        have hno := (h hfills hl).1
        cases hno
      · rw [createStore_locked (hlock.trans (by simpa using hl))]
        refine iff_of_true ⟨by simp, ?_⟩ (fun _ h => absurd h hl)
        intro pe' fs' st' own' ds' h
        cases h
    | none =>
      dsimp only
      cases hdict : env.lib .createDict with
      | false =>
        refine iff_of_true ⟨by simp, ?_⟩ (fun _ _ => ⟨rfl, fun h => by cases h⟩)
        intro pe' fs' st' own' ds' h
        simp at h
      | true =>
        have hfresh := ds.alloc_cell Dict.empty
        by_cases hl : pe.mdLocked = false
        · obtain ⟨own', ds', hrun, hlive, hval⟩ := createStore_other env st (fs.fchmod fd mode)
            path mode exclude stat (hlock.trans hl) hfresh
          have hdone : (if exclude then (Status.success, st) else dplMknod env st path).1 =
              .success ↔ exclude = true ∨ (dplMknod env st path).1 = .success := by
            cases exclude <;> simp
          rw [if_neg (by decide), hrun]
          constructor
          · intro ⟨_, hkeeps⟩ _ _
            refine ⟨rfl, fun _ hgo => ?_⟩
            obtain ⟨fd', stat', r, d, hfd', hstat', hr, hd, hdesc⟩ :=
              hkeeps qe _ _ own' ds' (by rw [if_pos (hdone.mpr hgo)])
            obtain rfl := Option.some.inj (hfd.symm.trans hfd')
            obtain rfl := Option.some.inj (hstat.symm.trans hstat')
            have hset := congrArg Entry.usermd (hval pe)
            rw [hr, Option.bind_some, hd] at hset
            have hnew : env.lib .usermdDict = true := by
              cases hno : env.lib .usermdDict with
              | true => rfl
              | false =>
                rw [pentrySetUsermd, hno] at hset
                cases hset
            have hcopy : env.lib .usermdCopy = true := by
              cases hno : env.lib .usermdCopy with
              | true => rfl
              | false =>
                rw [pentrySetUsermd, hnew, hno] at hset
                have hempty : Dict.empty = d := Option.some.inj hset
                have hmode := hdesc.mode
                rw [← hempty] at hmode
                cases hmode
            rw [pentrySetUsermd, hnew, hcopy] at hset
            obtain rfl : filledDict env Dict.empty stat mode = d := Option.some.inj hset
            exact ⟨(filledDict_describes_iff env hmode).mp hdesc, hnew, hcopy⟩
          · intro hclean
            refine ⟨by simp, ?_⟩
            intro pe' fs' st' own'' ds'' he
            simp only [Except.ok.injEq, Prod.mk.injEq] at he
            obtain ⟨hret, -, hfs, -, hown', hds'⟩ := he
            have hgo : exclude = true ∨ (dplMknod env st path).1 = .success := by
              by_contra hno
              rw [if_neg (fun h => hno (hdone.mp h))] at hret
              cases hret
            obtain ⟨hup, hnew, hcopy⟩ := (hclean hfills hl).2 rfl hgo
            have hset := congrArg Entry.usermd (hval pe)
            simp only [pentrySetUsermd, hnew, hcopy, Bool.not_true, Bool.false_eq_true,
              if_false] at hset
            obtain ⟨r, hr, hd⟩ := Option.bind_eq_some_iff.mp hset.symm
            refine ⟨fd, stat, r, _, hfd, ?_, ?_, ?_, (filledDict_describes_iff env hmode).mpr hup⟩
            · rw [← hfs]
              exact hstat
            · rw [← hown']
              exact hr
            · rw [← hds']
              exact hd
        · simp only [Bool.not_true, Bool.false_eq_true, if_false]
          rw [createStore_locked (hlock.trans (by simpa using hl))]
          refine iff_of_true ⟨by simp, ?_⟩ (fun _ h => absurd h hl)
          intro pe' fs' st' own' ds' h
          cases h
  · obtain ⟨ret, pe', fs', hrun, hret⟩ := createOpenedRefs_stops st path exclude own ds hfills
    rw [hrun]
    refine iff_of_true ⟨by simp, ?_⟩ (fun h => absurd h hfills)
    intro pe'' fs'' st'' own'' ds'' he
    simp only [Except.ok.injEq, Prod.mk.injEq] at he
    omega

/-- With dictionaries by value, the same: a fault for an entry with a dictionary, and otherwise the
value that the dictionary of the entry has. -/
theorem createOpened_eq_refs (hl : pe.mdLocked = false)
    (hown : ∀ r, own = some r → ds.cell r ≠ none) (hval : pe.usermd = own.bind ds.cell) :
    createOpened env st fs path mode exclude pe =
      (createOpenedRefs env st fs path mode exclude pe own ds).map fun out =>
        (out.1, { out.2.1 with usermd := out.2.2.2.2.1.bind out.2.2.2.2.2.cell },
          out.2.2.1, out.2.2.2.1) := by
  obtain ⟨fd?, pth, digest, usermd, mdLocked, locked, refcount, flag, excl, filetype, dirent,
    ondisk, atime⟩ := pe
  simp only at hl hval
  subst hl
  subst hval
  by_cases hfills : FillsDict env fs mode ⟨fd?, pth, digest, own.bind ds.cell, false, locked,
      refcount, flag, excl, filetype, dirent, ondisk, atime⟩
  · obtain ⟨fd, stat, hfd, hchmod, hstat, hst⟩ := hfills
    rw [createOpenedRefs_fills hfd hchmod hstat hst]
    simp only at hfd
    subst hfd
    unfold createOpened
    simp only [hchmod, hstat, hst]
    cases own with
    | some r =>
      obtain ⟨prev, hprev⟩ := Option.ne_none_iff_exists'.mp (hown r rfl)
      dsimp only
      rw [createStore_self rfl hprev, Option.bind_some, hprev]
      rfl
    | none =>
      simp only [Option.bind_none, Option.isSome_none, Bool.false_eq_true, if_false]
      cases hdict : env.lib .createDict with
      | false => rfl
      | true =>
        obtain ⟨own', ds', hrun, _, hset⟩ := createStore_other env st (fs.fchmod fd mode) path
          mode exclude stat (show (⟨some fd, pth, digest, none, false, locked, refcount, flag,
            exclude, filetype, dirent, ondisk, atime⟩ : Entry).mdLocked = false from rfl)
          (ds.alloc_cell Dict.empty)
        rw [if_neg (by decide), if_neg (by decide), hrun]
        simp only [pentryMdLock, bind, Except.bind, Bool.false_eq_true, if_false, Except.map, hset,
          pentryMdUnlock]
        cases exclude with
        | true => rfl
        | false =>
          cases hmk : dplMknod env st path with
          | mk rc st1 =>
            cases rc <;> rfl
  · unfold createOpenedRefs createOpened
    cases fd? with
    | none => rfl
    | some fd =>
      dsimp only
      cases hchmod : env.sys .fchmodCreate with
      | some e => rfl
      | none =>
        cases hstat : (fs.fchmod fd mode).fstat fd env.times with
        | none => rfl
        | some stat =>
          cases hst : env.sys .fstatCreate with
          | some e => rfl
          | none => exact absurd ⟨fd, stat, rfl, hchmod, hstat, hst⟩ hfills

end Create

/-- After `pentry_set_usermd` the dictionary of the entry is live. -/
theorem pentrySetUsermdRefs_live {env : Env} {own own' : Option Ref} {ds ds' : DictStore}
    {dict : Ref} {ret : Int} (h : pentrySetUsermdRefs env ds own dict = .ok (ret, own', ds')) :
    ∀ r, own' = some r → ds'.cell r ≠ none := by
  unfold pentrySetUsermdRefs at h
  obtain ⟨t, _, h⟩ := Except.bind_ok.mp h
  by_cases hnew : (!env.lib .usermdDict) = true
  · rw [if_pos hnew] at h
    simp only [Except.ok.injEq, Prod.mk.injEq] at h
    intro r hr
    rw [← h.2.1] at hr
    cases hr
  · rw [if_neg hnew] at h
    obtain ⟨src, _, h⟩ := Except.bind_ok.mp h
    by_cases hcopy : (!env.lib .usermdCopy) = true
    · rw [if_pos hcopy] at h
      simp only [Except.ok.injEq, Prod.mk.injEq] at h
      obtain ⟨_, rfl, rfl⟩ := h
      intro r hr
      rw [← Option.some.inj hr]
      intro hn
      cases (t.alloc_cell Dict.empty).symm.trans hn
    · rw [if_neg hcopy] at h
      obtain ⟨u, hu, h⟩ := Except.bind_ok.mp h
      simp only [Except.ok.injEq, Prod.mk.injEq] at h
      obtain ⟨_, rfl, rfl⟩ := h
      intro r hr
      rw [← Option.some.inj hr, Store.cell_of_write hu]
      simp

/-- And after a create that does not crash. -/
theorem createOpenedRefs_live {env : Env} {st st' : DropletFs.Store} {fs fs' : LocalFs}
    {path : Path} {mode : Nat} {exclude : Bool} {pe pe' : Entry} {own own' : Option Ref}
    {ds ds' : DictStore} {ret : Int} (hown : ∀ r, own = some r → ds.cell r ≠ none)
    (h : createOpenedRefs env st fs path mode exclude pe own ds =
      .ok (ret, pe', fs', st', own', ds')) :
    ∀ r, own' = some r → ds'.cell r ≠ none := by
  by_cases hfills : FillsDict env fs mode pe
  · obtain ⟨fd, stat, hfd, hchmod, hstat, hst⟩ := hfills
    rw [createOpenedRefs_fills hfd hchmod hstat hst] at h
    by_cases hl : pe.mdLocked = false
    · cases own with
      | some r =>
        obtain ⟨prev, hprev⟩ := Option.ne_none_iff_exists'.mp (hown r rfl)
        dsimp only at h
        rw [createStore_self (by exact hl) hprev] at h
        cases h
      | none =>
        dsimp only at h
        split_ifs at h
        · simp only [Except.ok.injEq, Prod.mk.injEq] at h
          obtain ⟨-, -, -, -, rfl, -⟩ := h
          intro r hr
          cases hr
        · obtain ⟨own1, ds1, hrun, hlive, _⟩ := createStore_other env st (fs.fchmod fd mode)
            path mode exclude stat
            (show ({ pe with exclude := exclude } : Entry).mdLocked = false from hl)
            (ds.alloc_cell Dict.empty)
          rw [hrun] at h
          simp only [Except.ok.injEq, Prod.mk.injEq] at h
          obtain ⟨-, -, -, -, rfl, rfl⟩ := h
          exact hlive
    · have hlocked : pe.mdLocked = true := by simpa using hl
      cases own with
      | some r =>
        dsimp only at h
        rw [createStore_locked (by exact hlocked)] at h
        cases h
      | none =>
        dsimp only at h
        split_ifs at h
        · simp only [Except.ok.injEq, Prod.mk.injEq] at h
          obtain ⟨-, -, -, -, rfl, -⟩ := h
          intro r hr
          cases hr
        · rw [createStore_locked (by exact hlocked)] at h
          cases h
  · obtain ⟨ret1, pe1, fs1, hrun, _⟩ := createOpenedRefs_stops st path exclude own ds hfills
    rw [hrun] at h
    simp only [Except.ok.injEq, Prod.mk.injEq] at h
    obtain ⟨-, -, -, -, rfl, rfl⟩ := h
    exact hown

/-- The dictionary of an entry is live, whatever the callbacks do. -/
theorem OwnReached.live {own : Option Ref} {ds : DictStore} (h : OwnReached own ds) :
    ∀ r, own = some r → ds.cell r ≠ none := by
  induction h with
  | fresh ds =>
    intro r hr
    cases hr
  | others _ hsame ih =>
    intro r hr
    rw [hsame r hr]
    exact ih r hr
  | assign _ hw _ =>
    intro r hr
    rw [← Option.some.inj hr, Store.cell_of_write hw]
    simp
  | set _ hset _ => exact pentrySetUsermdRefs_live hset
  | create _ hrun ih => exact createOpenedRefs_live ih hrun

theorem setOwns_iff {env : Env} {own : Option Ref} {ds : DictStore} {dict : Ref}
    (hown : ∀ r, own = some r → ds.cell r ≠ none) (hdict : ds.cell dict ≠ none) :
    SetOwns env ds own dict ↔ (own = some dict → env.lib .usermdDict = false) := by
  obtain ⟨src, hsrc⟩ := Option.ne_none_iff_exists'.mp hdict
  by_cases he : own = some dict
  · subst he
    obtain ⟨t, _, hset⟩ := pentrySetUsermdRefs_self env hsrc
    unfold SetOwns
    rw [hset]
    cases hnew : env.lib .usermdDict with
    | true =>
      refine iff_of_false ?_ (fun h => by cases h rfl)
      intro ⟨out, hout⟩
      cases hout
    | false => exact iff_of_true ⟨_, rfl⟩ fun _ => rfl
  · obtain ⟨ret, own', ds', hset, _⟩ := pentrySetUsermdRefs_other env hsrc he hown
    exact iff_of_true ⟨_, hset⟩ fun h => absurd h he

/-- `dfs_create` and `pentry_set_usermd` own the dictionaries they touch exactly when neither is
given the dictionary that the entry has. -/
theorem dict_ownership_iff {own : Option Ref} {ds : DictStore} (h : OwnReached own ds) (env : Env)
    (st : DropletFs.Store) (fs : LocalFs) (path : Path) (mode : Nat) (exclude : Bool) (pe : Entry)
    (dict : Ref) (hdict : ds.cell dict ≠ none) :
    (CreateOwns env st fs path mode exclude pe own ds ↔
      CreateClean env st fs path mode exclude pe own) ∧
    (SetOwns env ds own dict ↔ (own = some dict → env.lib .usermdDict = false)) :=
  ⟨createOpenedRefs_owns_iff h.live, setOwns_iff h.live hdict⟩

def openEntry : Entry := { pentryNew Env.quiet ['/', 'f'] .reg with fd := some 3 }

/-- One dictionary, of a caller. -/
def oneDict : DictStore := (Store.empty.alloc Dict.empty).2

theorem dict_ownership_sample :
    CreateOwns Env.quiet ∅ Sample.oneOpen ['/', 'f'] 0o100644 false openEntry none oneDict := by
  apply (dict_ownership_iff (.fresh oneDict) Env.quiet ∅ Sample.oneOpen ['/', 'f'] 0o100644 false
    openEntry 0 (by decide)).1.mpr
  intro _ _
  exact ⟨rfl, fun _ _ => ⟨⟨fun _ _ => rfl, .inl rfl⟩, rfl, rfl⟩⟩

/-- An entry whose dictionary was set, by `dfs_getattr` say: the create frees it, and copies it. -/
theorem own_dictionary_freed : ∃ own ds, OwnReached own ds ∧
    ¬CreateOwns Env.quiet ∅ Sample.oneOpen ['/', 'f'] 0o100644 false openEntry own ds := by
  obtain ⟨ret, own, ds, hset, _, _, hlive, hval⟩ := pentrySetUsermdRefs_other Env.quiet
    (show oneDict.cell 0 = some Dict.empty from rfl) (show none ≠ some 0 by simp) (by simp)
  refine ⟨own, ds, .set (.fresh oneDict) hset, ?_⟩
  rw [createOpenedRefs_owns_iff hlive]
  intro hclean
  have hnone := (hclean ⟨3, _, rfl, rfl, rfl, rfl⟩ rfl).1
  have hset := congrArg (fun res => res.2.usermd) (hval openEntry)
  rw [hnone] at hset
  cases hset

end DropletFs
