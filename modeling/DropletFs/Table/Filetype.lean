import DropletFs.Model.Sample
import DropletFs.Open.LocalCopy
import DropletFs.Table.Lasting

/-! The `filetype` of an entry against the object of its path. `dfs_mkdir` sets it from the
object; `set_filetype_from_stat` says every object is a regular file. -/

namespace DropletFs

open CText LocalFs

/-- What the object of a path is: a link is a regular object whose metadata hold its text. -/
def kindOf (path : Path) (o : Option Obj) : TPathType :=
  if path = rootPath then .dir
  else match o with
    | none => .reg
    | some o =>
      if o.ftype = .dir then .dir
      else if (o.userMeta .symlink).isSome then .symlink
      else .reg

/-- The remote status is known, or the entry passes for a directory: `dfs_mkdir` has been here, or
its memory was that way when a stat added it. -/
def Entry.Classified (pe : Entry) : Prop := pe.ondisk ≠ .unset ∨ pe.filetype = .dir

/-- The types of the entries are those of the objects. -/
structure World.TypesHold (s : World) : Prop where
  type : ∀ key pe, s.entry key = some pe → pe.Classified →
    pe.filetype = kindOf key (s.store.lookup key)
  accepts : ∀ key pe name, s.entry key = some pe → pe.Classified → name ∈ pe.dirent →
    (pentryRemoveDirent pe name = { pe with dirent := pe.dirent.erase name } ↔
      s.store.ftype? key = some .dir)

/-- `dfs_symlink` puts an object. -/
def LinkMade (env : Env) (st : Store) (path : Path) : Prop :=
  env.remote (.mknod path) = .success ∧ st.ftype? path ≠ some .dir

/-- `dfs_symlink` gives the object it has put its text. -/
def LinkTold (env : Env) (path : Path) : Prop :=
  env.lib .symlinkDict = true ∧ env.lib .symlinkAdd = true ∧ env.lib .symlinkSize = true ∧
    env.remote (.setattr path) = .success

/-- What the object of a path is after a `dfs_create` that has opened it: one that goes on to its
end has put a regular file there. -/
def World.CreatedKind (cx : Ctx) (s : World) (env : Env) (path : Path) (type : TPathType) : Prop :=
  (CreateCompletes cx env s.store path ∧ cx.conf.regex path = false → type = .reg) ∧
  (¬(CreateCompletes cx env s.store path ∧ cx.conf.regex path = false) →
    type = kindOf path (s.store.lookup path))

/-- The steps that leave the types of the entries right. The first stat of a directory or a link
does not; nor does one that leaves a new entry with the type of a directory in its memory, an
open or a create that gives a cache file to an entry whose type is not the object's, a link put
over an entry of another type, or the removal of a directory that has an entry. -/
def KeepsTypes (cx : Ctx) (d : Daemon) (c : Call) : Prop :=
  match c.op with
  | .getattr path =>
    (path ≠ rootPath → (d.world.entryOr c.env path (c.env.rawType path)).ondisk = .unset →
      ∀ o, Stated c.env d.world.store path o → kindOf path (some o) = .reg) ∧
    (d.world.LeavesRaw c.env path → c.env.rawType path = .dir →
      kindOf path (d.world.store.lookup path) = .dir)
  | .open path flags => lookupOrPopulate c.env d.world path .reg ≠ none →
    d.world.OpenCompletes cx c.env path flags →
    (d.world.entryOr c.env path .reg).filetype = kindOf path (d.world.store.lookup path)
  | .create path mode flags => ¬d.world.CreateStops cx c.env path mode →
    d.world.OpenCompletes cx c.env path flags →
    d.world.CreatedKind cx c.env path (d.world.entryOr c.env path .reg).filetype
  | .symlink _ newpath => LinkMade c.env d.world.store newpath →
    ∀ pe, d.world.entry newpath = some pe → pe.Classified →
      (LinkTold c.env newpath → pe.filetype = .symlink) ∧
      (¬LinkTold c.env newpath → pe.filetype = .reg)
  | .rmdir path => (dplRmdir c.env d.world.store path).1 = .success →
    ∀ pe, d.world.entry path = some pe → ¬pe.Classified
  | .mkdir _ | .unlink _ => True
  | _ => False

/-- The type of an entry is right, once it counts. -/
def Typed : EntryProp := fun _ o pe => pe.Classified → pe.filetype = kindOf pe.path o

theorem Typed.congr {a : Addr} {o : Option Obj} {pe pe' : Entry} (h : Typed a o pe)
    (hp : pe'.path = pe.path) (ht : pe'.filetype = pe.filetype) (ho : pe'.ondisk = pe.ondisk) :
    Typed a o pe' := by
  intro hc
  have hc' : pe.Classified := by
    rcases hc with hc | hc
    · exact .inl (ho ▸ hc)
    · exact .inr (ht ▸ hc)
  rw [ht, hp]
  exact h hc'

theorem Typed.steady : Steady Typed :=
  ⟨fun _ h => h.congr rfl rfl rfl, fun _ h => h.congr rfl rfl rfl,
    fun _ _ h => h.congr rfl rfl rfl⟩

/-- A new entry counts only where it passes for a directory. -/
theorem Typed.fresh {env : Env} {path : Path} {type : TPathType} {o : Option Obj} (a : Addr)
    (h : type = .dir → kindOf path o = .dir) : Typed a o (pentryNew env path type) := by
  intro hc
  rcases hc with hc | hc
  · exact (hc rfl).elim
  · obtain rfl : type = .dir := hc
    exact (h rfl).symm

theorem Typed.fresh_reg {env : Env} {path : Path} (a : Addr) (o : Option Obj) :
    Typed a o (pentryNew env path .reg) := by
  apply Typed.fresh
  intro hd
  cases hd

theorem kindOf_put {path : Path} {o : Obj} (hr : path ≠ rootPath) (hd : o.ftype ≠ .dir)
    (hs : (o.userMeta .symlink).isSome = false) : kindOf path (some o) = .reg := by
  simp [kindOf, hr, hd, hs]

theorem kindOf_dir_iff {path : Path} {st : Store} :
    kindOf path (st.lookup path) = .dir ↔ st.ftype? path = some .dir := by
  unfold kindOf Store.ftype?
  by_cases hr : path = rootPath
  · simp [hr]
  · rw [if_neg hr, if_neg hr]
    cases st.lookup path with
    | none => simp
    | some o =>
      dsimp only
      by_cases hd : o.ftype = .dir
      · simp [hd]
      · rw [if_neg hd]
        split_ifs <;> simp [hd]

/-- Types right at every address are right at every key. -/
theorem World.All.typesHold {s : World} (hi : s.Inv) (hs : s.All Typed) : s.TypesHold := by
  have htype : ∀ key pe, s.entry key = some pe → pe.Classified →
      pe.filetype = kindOf key (s.store.lookup key) := by
    intro key pe he hc
    obtain ⟨a, hh, ha⟩ := Option.bind_eq_some_iff.mp he
    obtain ⟨qe, hqe, hpath⟩ := hi.entry key a hh
    obtain rfl : pe = qe := Option.some.inj (ha.symm.trans hqe)
    have ht := hs a pe ha hc
    rwa [hpath] at ht
  refine ⟨htype, fun key pe name he hc hname => ?_⟩
  rw [← kindOf_dir_iff, ← htype key pe he hc]
  unfold pentryRemoveDirent
  constructor
  · intro heq
    by_contra hd
    rw [if_neg hd] at heq
    have hlist : pe.dirent = pe.dirent.erase name := congrArg Entry.dirent heq
    have hlen := congrArg List.length hlist
    rw [List.length_erase_of_mem hname] at hlen
    have hpos := List.length_pos_of_mem hname
    omega
  · intro hd
    rw [if_pos hd]

section Steps

variable {cx : Ctx} {env : Env} {d : Daemon} {s t w : World} {path : Path} {ret : Int}

theorem dfsGetattr_typed {st : Stat} (hi : s.Inv) (hs : s.All Typed)
    (hg : path ≠ rootPath → (s.entryOr env path (env.rawType path)).ondisk = .unset →
      ∀ o, Stated env s.store path o → kindOf path (some o) = .reg)
    (hraw : s.LeavesRaw env path → env.rawType path = .dir →
      kindOf path (s.store.lookup path) = .dir)
    (h : dfsGetattr env s path = .ok (ret, st, t)) : t.All Typed := by
  apply dfsGetattr_leaves Typed.steady hi hs (fun hl => Typed.fresh _ (hraw hl)) ?_
    (fun _ _ _ _ hpe => hpe.congr rfl rfl rfl) h
  intro a o dict hr hst hu _ _
  change TPathType.reg = kindOf (s.entryOr env path (env.rawType path)).path (some o)
  rw [hi.entryOr_path, hg hr hu o hst]

theorem openMode_fields {st : Store} {fs fs' : LocalFs} {pe qe : Entry} {m : StateMode}
    (hw : fs.Wf)
    (h : openMode cx env st fs path (pentryIncRefcount pe) m = .ok (ret, qe, fs')) :
    qe.path = pe.path ∧ qe.filetype = pe.filetype ∧ qe.ondisk = pe.ondisk := by
  have hs := openMode_spec hw h
  refine ⟨hs.update.path, ?_, hs.ondisk⟩
  rw [hs.fields]
  rfl

theorem World.Inv.entryOr_cached (hi : s.Inv) (env : Env) (path : Path) (type : TPathType) :
    (s.entryOr env path type).ondisk = .loc ↔ (s.entryOr env path type).fd.isSome := by
  unfold World.entryOr World.entry
  cases hh : s.hash path with
  | none => simp [pentryNew]
  | some a =>
    obtain ⟨pe, ha, _⟩ := hi.entry path a hh
    rw [Option.bind_some, ha]
    exact hi.cached a pe ha

theorem World.isLocal_of_entryOr {type : TPathType} (h : (s.entryOr env path type).ondisk = .loc) :
    s.IsLocal path := by
  unfold World.entryOr at h
  unfold World.IsLocal
  cases he : s.entry path with
  | none => simp [he, pentryNew] at h
  | some pe =>
    rw [he] at h
    exact congrArg some h

/-- An open that goes through met what it needed. -/
theorem World.Inv.openCompletes (hi : s.Inv) {flags : OpenFlags} {qe : Entry} {fs : LocalFs}
    (hr : ret ≠ -1)
    (h : openMode cx env s.store s.fs path (pentryIncRefcount (s.entryOr env path .reg))
      (getModeFromFlags flags) = .ok (ret, qe, fs)) : s.OpenCompletes cx env path flags := by
  have hinc : (pentryIncRefcount (s.entryOr env path .reg)).ondisk = .loc ↔
      (pentryIncRefcount (s.entryOr env path .reg)).fd.isSome := hi.entryOr_cached env path .reg
  have hdone := openMode_done hi.wf hinc hr h
  unfold World.OpenCompletes
  split_ifs at hdone ⊢
  · exact hdone
  · exact hdone.imp World.isLocal_of_entryOr id

theorem dfsOpen_typed {flags : OpenFlags} {fh : Option Addr} (hi : s.Inv) (hs : s.All Typed)
    (hg : lookupOrPopulate env s path .reg ≠ none → s.OpenCompletes cx env path flags →
      (s.entryOr env path .reg).filetype = kindOf path (s.store.lookup path))
    (h : dfsOpen cx env s path flags = .ok (ret, fh, t)) : t.All Typed := by
  by_cases hl : lookupOrPopulate env s path .reg = none
  · simp only [dfsOpen, hl, Except.ok.injEq, Prod.mk.injEq] at h
    rw [← h.2.2]
    exact hs
  refine (dfsOpen_all hi hs (fun _ => Typed.fresh_reg _ _) ?_ h).1
  intro a qe fs hm hpe
  obtain ⟨hp, ht, ho⟩ := openMode_fields hi.wf hm
  split_ifs with hr
  · exact hpe.congr hp ht ho
  · intro _
    change qe.filetype = kindOf qe.path _
    rw [ht, hp, hi.entryOr_path]
    exact hg hl (hi.openCompletes hr hm)

/-- The file behind the descriptor an open leaves. -/
theorem World.Inv.openMode_lookup (hi : s.Inv) {smode : StateMode} {qe : Entry} {fs : LocalFs}
    {fd : Nat}
    (h : openMode cx env s.store s.fs path (pentryIncRefcount (s.entryOr env path .reg)) smode =
      .ok (ret, qe, fs)) (hfd : qe.fd = some fd) : ∃ f, fs.fds.lookup fd = some f := by
  have hup := (openMode_spec hi.wf h).update
  rcases hup.fd with hsame | hnew
  · have hold : (s.entryOr env path .reg).fd = some fd := hsame.symm.trans hfd
    unfold World.entryOr at hold
    cases he : s.entry path with
    | none => simp [he, pentryNew] at hold
    | some pe =>
      obtain ⟨a, _, ha⟩ := Option.bind_eq_some_iff.mp he
      rw [he, Option.getD_some] at hold
      obtain ⟨f, hf, hcf⟩ := hi.opened a pe fd ha hold
      exact ⟨f, hup.fds fd f hf hcf⟩
  · obtain ⟨_, f, hf, _⟩ := hnew fd hfd
    exact ⟨f, hf⟩

/-- A put regular object. -/
theorem kindOf_created {st : Store} (hd : st.ftype? path ≠ some .dir) :
    kindOf path ((st.insert path (emptyObj .reg)).lookup path) = .reg := by
  have hr : path ≠ rootPath := by
    intro he
    simp [Store.ftype?, he] at hd
  rw [AList.lookup_insert]
  exact kindOf_put hr (by simp [emptyObj]) rfl

theorem dfsCreate_typed {mode : Nat} {flags : OpenFlags} {fh : Option Addr} (hi : s.Inv)
    (hs : s.All Typed)
    (hg : ¬s.CreateStops cx env path mode → s.OpenCompletes cx env path flags →
      s.CreatedKind cx env path (s.entryOr env path .reg).filetype)
    (h : dfsCreate cx env s path mode flags = .ok (ret, fh, t)) : t.All Typed := by
  by_cases hstop : s.CreateStops cx env path mode
  · rw [dfsCreate_stops hstop h]
    exact hs
  refine dfsCreate_all hi hs (fun _ => Typed.fresh_reg _ _) ?_ ?_ h
  · intro a qe fs hm hpe
    obtain ⟨hp, ht, ho⟩ := openMode_fields hi.wf hm
    exact hpe.congr hp ht ho
  · intro a r qe fs pe' fs' st hr hm hc _
    obtain ⟨hp, ht, _⟩ := openMode_fields hi.wf hm
    have hspec := openMode_spec hi.wf hm
    obtain ⟨hput, hkeep⟩ := hg hstop (hi.openCompletes hr hm)
    have hkind : (s.entryOr env path .reg).filetype = kindOf path (st.lookup path) := by
      rcases createOpened_put hc with rfl | ⟨hcc, hx, rfl⟩
      · by_cases hdone : CreateCompletes cx env s.store path ∧ cx.conf.regex path = false
        · -- it went to its end, so the store holds what it put
          obtain ⟨fd, hfd⟩ := Option.isSome_iff_exists.mp
            (hspec.result.resolve_right fun hm1 => hr hm1.1).2
          obtain ⟨f, hf⟩ := hi.openMode_lookup hm hfd
          have hfd' : ({ qe with ondisk := .loc } : Entry).fd = some fd := hfd
          have h0 := createOpened_completes hdone.1 hfd' hf hc
          rw [hput hdone, (createOpened_effect hc).2.2 h0 hdone.2]
          exact (kindOf_created (hdone.1.mknod hdone.2).2).symm
        · exact hkeep hdone
      · rw [hput ⟨hcc, hx⟩]
        exact (kindOf_created (hcc.mknod hx).2).symm
    obtain ⟨md, l, rfl, _⟩ := createOpened_spec hspec.update.wf hc
    intro _
    change qe.filetype = kindOf qe.path _
    rw [ht, hp, hi.entryOr_path]
    exact hkind

/-- What `dfs_symlink` puts is an empty file until it has its text. -/
theorem dfsSymlink_object {oldpath : Path} (h : dfsSymlink cx env s oldpath path = .ok (ret, t)) :
    t.heap = s.heap ∧ (t.store = s.store ∨ LinkMade env s.store path ∧
      ∃ o, t.store = s.store.insert path o ∧ o.ftype = .reg ∧
        (LinkTold env path → (o.userMeta .symlink).isSome = true) ∧
        (¬LinkTold env path → (o.userMeta .symlink).isSome = false)) := by
  unfold dfsSymlink dplMknod at h
  cases hm : env.remote (.mknod path) with
  | success =>
    rw [hm] at h
    dsimp only at h
    by_cases hd : s.store.ftype? path = some .dir
    · simp only [hd, if_true, Except.ok.injEq, Prod.mk.injEq] at h
      rw [← h.2]
      exact ⟨rfl, .inl rfl⟩
    · have hmade : LinkMade env s.store path := ⟨hm, hd⟩
      have hempty : ¬LinkTold env path →
          t = { s with store := s.store.insert path (emptyObj .reg) } → t.heap = s.heap ∧
          (t.store = s.store ∨ LinkMade env s.store path ∧
            ∃ o, t.store = s.store.insert path o ∧ o.ftype = .reg ∧
              (LinkTold env path → (o.userMeta .symlink).isSome = true) ∧
              (¬LinkTold env path → (o.userMeta .symlink).isSome = false)) := by
        rintro htold rfl
        exact ⟨rfl, .inr ⟨hmade, emptyObj .reg, rfl, rfl, fun h => (htold h).elim, fun _ => rfl⟩⟩
      rw [if_neg hd] at h
      dsimp only at h
      by_cases hdict : (!env.lib .symlinkDict) = true
      · simp only [if_pos hdict, Except.ok.injEq, Prod.mk.injEq] at h
        exact hempty (fun ht => by simp [ht.1] at hdict) h.2.symm
      rw [if_neg hdict] at h
      obtain ⟨opath, _, h⟩ := Except.bind_ok.mp h
      split_ifs at h with hlib
      · simp only [Except.ok.injEq, Prod.mk.injEq] at h
        exact hempty (fun ht => by simp [ht.2.1, ht.2.2.1] at hlib) h.2.symm
      · simp only [Bool.not_eq_true', Bool.not_eq_false] at hdict
        simp only [Bool.or_eq_true, Bool.not_eq_true', not_or, Bool.not_eq_false] at hlib
        unfold dplSetattr at h
        cases hset : env.remote (.setattr path) with
        | success =>
          rw [hset] at h
          simp only [AList.lookup_insert] at h
          have htold : LinkTold env path := ⟨hdict, hlib.1, hlib.2, hset⟩
          simp only [emptyObj, reduceCtorEq, if_false, Except.ok.injEq, Prod.mk.injEq] at h
          rw [← h.2]
          exact ⟨rfl, .inr ⟨hmade, _, AList.insert_insert .., rfl, fun _ => rfl,
            fun hn => (hn htold).elim⟩⟩
        | _ =>
          simp only [hset, Except.ok.injEq, Prod.mk.injEq] at h
          exact hempty (fun ht => by simp [ht.2.2.2] at hset) h.2.symm
  | _ =>
    simp only [hm, Except.ok.injEq, Prod.mk.injEq] at h
    rw [← h.2]
    exact ⟨rfl, .inl rfl⟩

theorem dfsSymlink_typed {oldpath : Path} (hi : s.Inv) (hs : s.All Typed)
    (hg : LinkMade env s.store path → ∀ pe, s.entry path = some pe → pe.Classified →
      (LinkTold env path → pe.filetype = .symlink) ∧ (¬LinkTold env path → pe.filetype = .reg))
    (h : dfsSymlink cx env s oldpath path = .ok (ret, t)) : t.All Typed := by
  obtain ⟨hh, hst | ⟨hmade, o, hst, ho, htold, hempty⟩⟩ := dfsSymlink_object h
  · exact hs.of_eq hh hst
  apply hs.changed hh (.inr (.inr ⟨o, hst⟩))
  intro a pe ha hp _ hc
  have he := hi.entry_of_heap ha
  rw [hp] at he
  obtain ⟨hlink, hreg⟩ := hg hmade pe he hc
  have hr : path ≠ rootPath := by
    intro hr
    exact hmade.2 (by simp [Store.ftype?, hr])
  rw [hst, AList.lookup_insert, hp]
  by_cases ht : LinkTold env path
  · rw [hlink ht]
    simp [kindOf, hr, ho, htold ht]
  · rw [hreg ht]
    simp [kindOf, hr, ho, hempty ht]

theorem dfsRmdir_typed (hi : s.Inv) (hs : s.All Typed)
    (hg : (dplRmdir env s.store path).1 = .success →
      ∀ pe, s.entry path = some pe → ¬pe.Classified)
    (h : dfsRmdir cx env s (.ext path) = .ok (ret, t)) : t.All Typed := by
  apply dfsRmdir_all Typed.steady.removable hs ?_ h
  intro a pe o hp _ hok ha _ _ hc
  have he := hi.entry_of_heap ha
  rw [hp] at he
  exact (hg hok pe he hc).elim

theorem dfsMkdir_typed (hi : s.Inv) (hs : s.All Typed) : (dfsMkdir env s path).2.All Typed := by
  have hdir : ∀ {q : Path}, kindOf q (some (emptyObj .dir)) = .dir := by
    intro q
    unfold kindOf
    split_ifs <;> rfl
  apply dfsMkdir_all hi hs
  · intro a pe hp _ _ _
    exact hdir.symm
  · intro _ _
    exact hdir.symm

/-- A step that meets the condition leaves the types right. -/
theorem Calls.typed {d' : Daemon} {op : Op} (hi : d.world.Inv) (hs : d.world.All Typed)
    (hg : KeepsTypes cx d ⟨op, env⟩) (h : Calls cx env d op ret d') : d'.world.All Typed := by
  cases h with
  | getattr h => exact dfsGetattr_typed hi hs hg.1 hg.2 h
  | opened h => exact dfsOpen_typed hi hs hg h
  | openFailed _ h => exact dfsOpen_typed hi hs hg h
  | created h => exact dfsCreate_typed hi hs hg h
  | createFailed _ h => exact dfsCreate_typed hi hs hg h
  | unlink h => exact dfsUnlink_all Typed.steady.removable hi hs h
  | rmdir h => exact dfsRmdir_typed hi hs hg h
  | mkdir => exact dfsMkdir_typed hi hs
  | symlink h => exact dfsSymlink_typed hi hs hg h
  | _ => exact hg.elim

end Steps

/-- The types hold in every state of a run of these callbacks whose steps keep to the
condition. -/
theorem types_hold (cx : Ctx) {store : Store} {fs : LocalFs} {ring : Ring} {calls : List Call}
    (hw : fs.Wf)
    (hm : Transition.Meets (Daemon.step cx) (KeepsTypes cx) (.init store fs ring) calls) :
    Transition.Always (Daemon.step cx) (fun d => d.world.TypesHold) (.init store fs ring)
      calls := by
  apply Transition.always_of_meets (I := fun d => d.world.Inv ∧ d.world.All Typed) ?_ ?_ ?_ hm
  · exact fun d ⟨hi, hs⟩ => hs.typesHold hi
  · intro d c d' ⟨hi, hs⟩ hg ht
    obtain ⟨ret, hc⟩ := Daemon.step_cases ht
    exact ⟨hc.inv hi, hc.typed hi hs hg⟩
  · refine ⟨Daemon.init_inv hw, ?_⟩
    intro a pe ha
    cases ha

/-- A directory is made and a file is looked at. -/
theorem types_hold_sample :
    Transition.Always (Daemon.step Sample.plain) (fun d => d.world.TypesHold)
      (Sample.daemon [(['/', 'f'], Sample.file [1])])
      [Sample.call (.mkdir ['/', 'd']), Sample.call (.getattr ['/', 'f'])] := by
  apply types_hold Sample.plain Sample.fs_wf
  refine ⟨trivial, ⟨?_, ?_⟩, trivial⟩
  · intro _ _ o ho
    obtain rfl : Sample.file [1] = o := Option.some.inj ho.object
    decide
  · intro _ hd
    cases hd

/-- A directory that is made and then looked at counts as a regular file; a file that is created
where a stat found nothing has the type that was in the memory. -/
theorem made_directory_mistyped :
    (∃ d, Transition.exec (Daemon.step Sample.plain) (Sample.daemon [])
        [Sample.call (.mkdir ['/', 'd']), Sample.call (.getattr ['/', 'd'])] = .ok d ∧
      ¬d.world.TypesHold) ∧
    ∃ d, Transition.exec (Daemon.step Sample.plain) (Sample.daemon [])
        [Sample.call (.getattr ['/', 'f']),
          Sample.call (.create ['/', 'f'] 0o100644 Sample.writeOnly)] = .ok d ∧
      ¬d.world.TypesHold := by
  constructor
  · refine ⟨_, rfl, fun h => ?_⟩
    have ht := h.type ['/', 'd'] _ rfl (.inl (by decide))
    exact absurd ht (by decide)
  · refine ⟨_, rfl, fun h => ?_⟩
    have ht := h.type ['/', 'f'] _ rfl (.inl (by decide))
    exact absurd ht (by decide)

end DropletFs
