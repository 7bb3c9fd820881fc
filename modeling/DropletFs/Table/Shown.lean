import DropletFs.Open.LocalCopy
import DropletFs.Rename.Handles
import DropletFs.Table.Filetype

/-! What `dfs_getattr` answers from the table names an object, and a name that was removed is not
shown. -/

namespace DropletFs

open CText LocalFs

/-- The entry answers `dfs_getattr` without a look at the store. A cache file that is excluded
does not count, except at the paths in `gone`. -/
def Entry.Shown (gone : Path → Prop) (pe : Entry) : Prop :=
  pe.ondisk = .remote ∨ pe.ondisk = .loc ∧ (pe.exclude = false ∨ gone pe.path)

/-- No directory that has an object and an answer loses its object. -/
def World.RenameForgets (env : Env) (s : World) (old new : Path) : Prop :=
  match (dplNamei env s.store old).2.getD (env.junk old) with
  | .dir => old ≠ new ∧ s.store.ftype? old ≠ some .dir ∨
      (s.NamesLast old new ∧ ∀ q pe, s.entry q = some pe → Within old q →
        s.store.ftype? q = some .dir →
        pe.ondisk = .unset ∨ env.remote (.rmdir q) ≠ .success) ∨
      ∀ q pe, s.entry q = some pe → s.store.ftype? q = some .dir → pe.ondisk = .unset
  | _ => True

/-- The steps that leave no answer for a name without an object. The removal of a directory that has
one does, and so does an open or a create that makes a cache file only. -/
def Forgets (cx : Ctx) (d : Daemon) (c : Call) : Prop :=
  match c.op with
  | .open path flags => d.world.OpenCompletes cx c.env path flags →
      d.world.IsLocal path ∨ d.world.store.ftype? path ≠ none
  | .create path mode flags => ¬d.world.CreateStops cx c.env path mode →
      d.world.OpenCompletes cx c.env path flags →
      cx.conf.regex path = true ∨ d.world.store.ftype? path ≠ none ∨
        CreateCompletes cx c.env d.world.store path
  | .rmdir path => (dplRmdir c.env d.world.store path).1 = .success →
      ∀ pe, d.world.entry path = some pe → pe.ondisk = .unset
  | .rename old new => d.world.RenameForgets c.env old (renameTarget old new)
  | _ => True

/-- The entry names an object if it is shown. -/
def Backed (gone : Path → Prop) : EntryProp := fun _ o pe =>
  pe.Shown gone → o.isSome ∨ pe.path = rootPath

theorem Backed.congr {gone : Path → Prop} {a : Addr} {o o' : Option Obj} {pe pe' : Entry}
    (h : Backed gone a o pe) (hp : pe'.path = pe.path) (ho : pe'.ondisk = pe.ondisk)
    (hx : pe'.exclude = pe.exclude) (hobj : o.isSome → o'.isSome) : Backed gone a o' pe' := by
  intro hs
  rw [Entry.Shown, hp, ho, hx] at hs
  rw [hp]
  exact (h hs).imp hobj id

theorem Backed.steady (gone : Path → Prop) : Steady (Backed gone) where
  removed _ h := h.congr rfl rfl rfl id
  atime _ h := h.congr rfl rfl rfl id
  locked _ _ h := h.congr rfl rfl rfl id

theorem Backed.unset {gone : Path → Prop} {a : Addr} {o : Option Obj} {pe : Entry}
    (h : pe.ondisk = .unset) : Backed gone a o pe := by
  intro hs
  rw [Entry.Shown, h] at hs
  rcases hs with hs | ⟨hs, _⟩
  · cases hs
  · cases hs

theorem Backed.of_object {gone : Path → Prop} {a : Addr} {o : Obj} {pe : Entry} :
    Backed gone a (some o) pe := fun _ => .inl rfl

section Callbacks

variable {cx : Ctx} {env : Env} {s t : World} {path : Path} {ret : Int} {gone : Path → Prop}

/-- A path that has an object, or is the root. -/
theorem ftype?_ne_none {st : Store} (h : st.ftype? path ≠ none) :
    (st.lookup path).isSome ∨ path = rootPath := by
  by_cases hr : path = rootPath
  · exact .inr hr
  · rw [Store.ftype?_of_ne hr] at h
    cases ho : st.lookup path with
    | none =>
      rw [ho] at h
      exact (h rfl).elim
    | some o => exact .inl rfl

theorem dfsOpen_backed {flags : OpenFlags} {fh : Option Addr} (hi : s.Inv)
    (hs : s.All (Backed gone))
    (hg : s.OpenCompletes cx env path flags → s.IsLocal path ∨ s.store.ftype? path ≠ none)
    (h : dfsOpen cx env s path flags = .ok (ret, fh, t)) : t.All (Backed gone) := by
  refine (dfsOpen_all hi hs (fun _ => .unset rfl) ?_ h).1
  intro a qe fs hm hpe
  have hspec := openMode_spec hi.wf hm
  have hpath : qe.path = path := hspec.update.path.trans (hi.entryOr_path _ path _)
  split_ifs with hr
  · exact hpe.congr hspec.update.path hspec.ondisk hspec.exclude id
  · rcases hg (hi.openCompletes hr hm) with hl | hn
    · have hloc : (s.entryOr env path .reg).ondisk = .loc := by
        obtain ⟨pe, he, ho⟩ := Option.map_eq_some_iff.mp hl
        rw [World.entryOr, he]
        exact ho
      exact hpe.congr hspec.update.path hloc.symm hspec.exclude id
    · intro _
      rw [show ({ qe with ondisk := .loc } : Entry).path = path from hpath]
      exact ftype?_ne_none hn

theorem dfsCreate_backed {mode : Nat} {flags : OpenFlags} {fh : Option Addr} (hi : s.Inv)
    (hs : s.All (Backed gone)) (hgone : ¬gone path)
    (hg : ¬s.CreateStops cx env path mode → s.OpenCompletes cx env path flags →
      cx.conf.regex path = true ∨ s.store.ftype? path ≠ none ∨ CreateCompletes cx env s.store path)
    (h : dfsCreate cx env s path mode flags = .ok (ret, fh, t)) : t.All (Backed gone) := by
  by_cases hstop : s.CreateStops cx env path mode
  · rw [dfsCreate_stops hstop h]
    exact hs
  refine dfsCreate_all hi hs (fun _ => .unset rfl) ?_ ?_ h
  · intro a qe fs hm hpe
    have hspec := openMode_spec hi.wf hm
    exact hpe.congr hspec.update.path hspec.ondisk hspec.exclude id
  · intro a r qe fs pe' fs' st hr hm hc hpe
    have hspec := openMode_spec hi.wf hm
    have hpath : qe.path = path := hspec.update.path.trans (hi.entryOr_path _ path _)
    obtain ⟨md, l, rfl, _⟩ := createOpened_spec hspec.update.wf hc
    intro hshown
    show _ ∨ qe.path = rootPath
    rw [hpath]
    have hput := createOpened_put hc
    rcases hg hstop (hi.openCompletes hr hm) with hx | hn | hdone
    · -- an excluded file is not shown
      rcases hshown with hrem | ⟨_, hx' | hg'⟩
      · cases hrem
      · rw [show cx.conf.regex path = false from hx'] at hx
        cases hx
      · exact (hgone (hpath ▸ hg')).elim
    · rcases hput with rfl | ⟨_, _, rfl⟩
      · exact ftype?_ne_none hn
      · rw [AList.lookup_insert]
        exact .inl rfl
    · cases hx : cx.conf.regex path with
      | true =>
        rcases hshown with hrem | ⟨_, hx' | hg'⟩
        · cases hrem
        · rw [show cx.conf.regex path = false from hx'] at hx
          cases hx
        · exact (hgone (hpath ▸ hg')).elim
      | false =>
        obtain ⟨fd, hfd⟩ := Option.isSome_iff_exists.mp
          (hspec.result.resolve_right fun hm1 => hr hm1.1).2
        obtain ⟨f, hf⟩ := hi.openMode_lookup hm hfd
        have hfd' : ({ qe with ondisk := .loc } : Entry).fd = some fd := hfd
        have h0 := createOpened_completes hdone hfd' hf hc
        rw [(createOpened_effect hc).2.2 h0 hx, AList.lookup_insert]
        exact .inl rfl

theorem dfsGetattr_backed {st : Stat} (hi : s.Inv) (hs : s.All (Backed gone))
    (h : dfsGetattr env s path = .ok (ret, st, t)) : t.All (Backed gone) := by
  apply dfsGetattr_all (Backed.steady gone) hi hs (fun _ => .unset rfl) ?_ ?_ h
  · exact fun _ _ _ _ _ _ _ => .of_object
  · exact fun _ _ _ _ hpe => hpe.congr rfl rfl rfl id

theorem dfsRelease_backed {flags : OpenFlags} {a : Addr} (hi : s.Inv)
    (hs : s.All (Backed gone)) (h : dfsRelease cx env s path flags a = .ok (ret, t)) :
    t.All (Backed gone) := by
  apply dfsRelease_all hi hs ?_ (fun _ _ _ _ _ _ => .of_object) h
  intro pe pe' fs st _ hr hpe
  have hspec := releaseEntry_spec hi.wf hr
  exact hpe.congr hspec.update.path hspec.ondisk hspec.exclude id

theorem setAttributes_backed {upd : Dict → Dict} {change : LocalFs → Nat → LocalFs}
    {call : SysCall} (hi : s.Inv) (hs : s.All (Backed gone))
    (h : setAttributes env s path upd change call = .ok (ret, t)) : t.All (Backed gone) := by
  apply setAttributes_all hi hs ?_ h
  intro a pe md o' _ _ ho hpe
  refine hpe.congr rfl rfl rfl fun hsome => ?_
  rcases ho with rfl | ⟨o, _, rfl⟩
  · exact hsome
  · rfl

theorem dfsRmdir_backed (hi : s.Inv) (hs : s.All (Backed gone))
    (hg : (dplRmdir env s.store path).1 = .success →
      ∀ pe, s.entry path = some pe → pe.ondisk = .unset)
    (h : dfsRmdir cx env s (.ext path) = .ok (ret, t)) : t.All (Backed gone) := by
  apply dfsRmdir_all (Backed.steady gone).removable hs ?_ h
  intro a pe o hp _ hok ha _ _
  have hp' : pe.path = path := hp
  apply Backed.unset
  apply hg hok
  rw [← hp']
  exact hi.entry_of_heap ha

/-- The entries are backed, and an entry of a directory at `at'` that goes is not shown. -/
def Movable (env : Env) (gone at' : Path → Prop) : EntryProp := fun a o pe =>
  Backed gone a o pe ∧ (at' pe.path → o.map (·.ftype) = some .dir → pe.path ≠ rootPath →
    ¬pe.Shown gone ∨ env.remote (.rmdir pe.path) ≠ .success)

theorem Movable.removable (env : Env) (gone at' : Path → Prop) :
    Removable (Movable env gone at') :=
  fun _ _ _ name h => ⟨(Backed.steady gone).removed name h.1, h.2⟩

variable {at' : Path → Prop}

theorem movable_file {p q : Str} (hi : s.Inv) (hs : s.All (Movable env gone at'))
    (h : renameFile cx env s p q = .ok (ret, t)) : t.Inv ∧ t.All (Movable env gone at') := by
  refine ⟨renameFile_inv hi h, renameFile_all (Movable.removable env gone at') hi hs ?_ h⟩
  intro a pe o _ hd _
  refine ⟨.of_object, fun _ ho => ?_⟩
  exact (hd (Option.some.inj ho)).elim

theorem movable_mkdir (hi : s.Inv) (hs : s.All (Movable env gone at')) :
    (dfsMkdir env s path).2.Inv ∧ (dfsMkdir env s path).2.All (Movable env gone at') := by
  refine ⟨(dfsMkdir_inv hi).1, dfsMkdir_all hi hs ?_ fun _ => ?_⟩
  · intro a pe _ _ hpe
    refine ⟨.of_object, fun _ _ hroot => .inl fun hshown => ?_⟩
    -- an entry that was shown without an object is the root's
    rcases hpe.1 hshown with hno | hr
    · cases hno
    · exact hroot hr
  · refine ⟨.of_object, fun _ _ _ => .inl fun hshown => ?_⟩
    rcases hshown with hu | ⟨hu, _⟩
    · cases hu
    · cases hu

theorem movable_rmdir {p : Str} (hi : s.Inv) (hs : s.All (Movable env gone at'))
    (hat : at' (s.text p)) (h : dfsRmdir cx env s p = .ok (ret, t)) :
    t.Inv ∧ t.All (Movable env gone at') := by
  refine ⟨(dfsRmdir_inv hi h).1, dfsRmdir_all (Movable.removable env gone at') hs ?_ h⟩
  intro a pe o hp hdir hok _ hobj hpe
  rcases dplRmdir_cases env s.store (s.text p) with ⟨hno, _⟩ | ⟨hr, hne, _, _⟩
  · exact (hno hok).elim
  rw [Store.ftype?_of_ne hne, hobj] at hdir
  refine ⟨fun hshown => ?_, fun _ hnone => by cases hnone⟩
  rcases hpe.2 (hp ▸ hat) hdir (hp ▸ hne) with hno | hno
  · exact (hno hshown).elim
  · rw [hp] at hno
    exact (hno hr).elim

theorem World.All.movable (hi : s.Inv) (hs : s.All (Backed gone))
    (hu : ∀ q pe, s.entry q = some pe → at' q → s.store.ftype? q = some .dir →
      pe.ondisk = .unset ∨ env.remote (.rmdir q) ≠ .success) :
    s.All (Movable env gone at') := by
  intro a pe ha
  refine ⟨hs a pe ha, fun hat hd hroot => ?_⟩
  have htype : s.store.ftype? pe.path = some .dir := by
    rw [Store.ftype?_of_ne hroot]
    exact hd
  refine (hu pe.path pe (hi.entry_of_heap ha) hat htype).imp (fun ho hshown => ?_) id
  rw [Entry.Shown, ho] at hshown
  rcases hshown with hshown | ⟨hshown, _⟩
  · cases hshown
  · cases hshown

theorem dfsRename_backed {old new : Path} (hi : s.Inv) (hs : s.All (Backed gone))
    (hg : s.RenameForgets env old (renameTarget old new))
    (h : dfsRename cx env s old new = .ok (ret, t)) : t.All (Backed gone) := by
  rcases dfsRename_cases h with ⟨_, _, rfl⟩ | ⟨_, r, _, hr⟩ | ⟨ht, r, _, hr⟩
  · exact hs
  · exact renameFile_all (Backed.steady gone).removable hi hs (fun _ _ _ _ _ _ => .of_object) hr
  rw [World.RenameForgets, ht] at hg
  rcases hg with ⟨hne, hdir⟩ | ⟨⟨hroot, f, hch, hready⟩, hdirs⟩ | hnone
  · have hend : t.Inv ∧ t.All (Backed gone) := by
      apply renameDirectory_refused ?_ ?_ hne hdir ⟨hi, hs⟩ hr
      · exact fun u _ _ _ ⟨hi, hs⟩ => ⟨hi.congr rfl rfl rfl rfl, hs.of_eq rfl rfl⟩
      · exact fun u ⟨hi, hs⟩ => ⟨(dfsMkdir_inv hi).1, dfsMkdir_all hi hs
          (fun _ _ _ _ _ => .of_object) fun _ => .of_object⟩
    exact hend.2
  · obtain ⟨he, hkeep⟩ := renameDirectory_agree cx env env.stack hready hroot hch
    rw [he] at hr
    have hmov : s.All (Movable env gone (Within old)) := hs.movable hi hdirs
    have hsteps : MoveSteps cx env old (renameTarget old new)
        fun t => t.Inv ∧ t.All (Movable env gone (Within old)) := by
      refine ⟨?_, ?_, ?_, ?_⟩
      · exact fun u _ _ _ ⟨hi, hs⟩ => ⟨hi.congr rfl rfl rfl rfl, hs.of_eq rfl rfl⟩
      · exact fun u q _ ⟨hi, hs⟩ => movable_mkdir hi hs
      · exact fun u p q ret v _ _ ⟨hi, hs⟩ h => movable_file hi hs h
      · exact fun u p ret v hw ⟨hi, hs⟩ h => movable_rmdir (p := .ext p) hi hs hw h
    have hend := ((hkeep r t hr).2 _ hsteps ⟨hi, hmov⟩).2
    exact fun a pe ha => (hend a pe ha).1
  · have hmov : s.All (Movable env gone fun _ => True) := by
      apply hs.movable hi
      exact fun q pe he _ hd => .inl (hnone q pe he hd)
    have hsteps : RenameSteps cx env
        fun t => t.Inv ∧ t.All (Movable env gone fun _ => True) := by
      refine ⟨?_, ?_, ?_, ?_⟩
      · exact fun u _ _ _ ⟨hi, hs⟩ => ⟨hi.congr rfl rfl rfl rfl, hs.of_eq rfl rfl⟩
      · exact fun u q ⟨hi, hs⟩ => movable_mkdir hi hs
      · exact fun u p q ret v ⟨hi, hs⟩ h => movable_file hi hs h
      · exact fun u p ret v ⟨hi, hs⟩ h => movable_rmdir hi hs trivial h
    have hend := (renameDirectory_keeps hsteps _ _ _ _ _ _ ⟨hi, hmov⟩ hr).2
    exact fun a pe ha => (hend a pe ha).1

/-- A callback that leaves no answer for a name without an object keeps the entries backed. -/
theorem Calls.backed {d d' : Daemon} {op : Op} (hi : d.world.Inv)
    (hs : d.world.All (Backed gone)) (hg : Forgets cx d ⟨op, env⟩)
    (hnew : ∀ path mode flags, op = .create path mode flags → ¬gone path)
    (h : Calls cx env d op ret d') : d'.world.All (Backed gone) := by
  cases h with
  | getattr h => exact dfsGetattr_backed hi hs h
  | opened h => exact dfsOpen_backed hi hs hg h
  | openFailed _ h => exact dfsOpen_backed hi hs hg h
  | created h => exact dfsCreate_backed hi hs (hnew _ _ _ rfl) hg h
  | createFailed _ h => exact dfsCreate_backed hi hs (hnew _ _ _ rfl) hg h
  | read => exact hs
  | written _ _ h =>
    obtain ⟨_, _, ⟨rfl, _⟩ | ⟨_, _, _, _, _, _, rfl⟩⟩ := dfsWrite_cases h
    · exact hs
    · exact hs.of_eq rfl rfl
  | notWritten _ => exact hs
  | released _ h => exact dfsRelease_backed hi hs h
  | notReleased => exact hs
  | unlink h => exact dfsUnlink_all (Backed.steady gone).removable hi hs h
  | rename h => exact dfsRename_backed hi hs hg h
  | rmdir h => exact dfsRmdir_backed hi hs hg h
  | mkdir => exact dfsMkdir_all hi hs (fun _ _ _ _ _ => .of_object) fun _ => .of_object
  | mknod =>
    obtain ⟨hp, hh⟩ := dfsMknod_puts env d.world _
    exact hs.put hh hp fun _ _ _ _ _ _ => .of_object
  | symlink h =>
    obtain ⟨hp, hh⟩ := dfsSymlink_puts h
    exact hs.put hh hp fun _ _ _ _ _ _ => .of_object
  | chmod h => exact setAttributes_backed hi hs h
  | chown h => exact setAttributes_backed hi hs h
  | gc => exact gcCallback_all hs

/-- Every stat of the path fails. -/
def World.Hides (s : World) (path : Path) : Prop :=
  ∀ env, ∃ ret st t, dfsGetattr env s path = .ok (ret, st, t) ∧ ret < 0

theorem getattrUnset_missing {store : Store} {pe : Entry} {st : Stat}
    (h : (dplNamei env store path).1 ≠ .success) :
    getattrUnset env store pe path st =
      .ok ((dplNamei env store path).1.code, st, pe, false) := by
  unfold getattrUnset
  split
  · rename_i type hn
    rw [hn] at h
    exact (h rfl).elim
  · rename_i rc type _ hn
    rw [hn]

/-- A stat of a name without an object fails when the entry has no answer to it. -/
theorem World.Hides.of_unset (hi : s.Inv) (hroot : path ≠ rootPath)
    (ho : s.store.lookup path = none) (hu : ∀ pe, s.entry path = some pe → pe.ondisk = .unset) :
    s.Hides path := by
  intro env
  unfold dfsGetattr
  dsimp only
  rw [if_neg hroot]
  cases hl : lookupOrPopulate env s path (env.rawType path) with
  | none => exact ⟨_, _, _, rfl, by decide⟩
  | some r =>
    obtain ⟨a, u⟩ := r
    have hlook : Looked env _ s path a u := lookupOrPopulate_spec hi hl
    obtain ⟨pe, ha, _⟩ := hlook.heap
    have hunset : pe.ondisk = .unset := by
      rw [hlook.entryOr ha, World.entryOr]
      cases he : s.entry path with
      | none => rfl
      | some qe => exact hu qe he
    have hnamei : (dplNamei env u.store path).1 ≠ .success := by
      unfold dplNamei
      rw [hlook.store, Store.ftype?_of_ne hroot, ho]
      cases hr : env.remote (.namei path) <;> simp
    dsimp only
    rw [World.deref_ok.mpr ha]
    simp only [bind, Except.bind, hunset, getattrUnset_missing hnamei]
    refine ⟨_, _, _, rfl, ?_⟩
    apply lt_of_le_of_ne (Status.code_nonpos _)
    exact fun h0 => hnamei (Status.code_eq_zero.mp h0)

/-- An unlink that returns 0 leaves no entry of the path. -/
theorem dfsUnlink_forgets (h : dfsUnlink cx env s (.ext path) = .ok (0, t)) :
    t.hash path = none ∧ path ≠ rootPath := by
  rcases dfsUnlink_cases h with ⟨hr, _⟩ | ⟨store, u, hst, _, hu, hcase⟩
  · cases hr
  have hroot : path ≠ rootPath := by
    rintro rfl
    have hst' : dplUnlink env s.store rootPath = (.success, store) := hst
    rcases dplUnlink_cases env s.store rootPath with ⟨hno, _⟩ | ⟨_, hne, _⟩
    · rw [hst'] at hno
      exact hno rfl
    · exact hne rfl
  refine ⟨?_, hroot⟩
  have hash : u.hash = s.hash := by
    rw [hu]
    rfl
  rcases hcase with ⟨_, hn, rfl⟩ | ⟨_, he⟩
  · rw [hash]
    exact hn
  · obtain ⟨_, freed, v, _, hv, ht⟩ := unlinkEntry_cases he
    have hgone : v.hash path = none := by
      rw [hv]
      change (u.hashRemove path).hash path = none
      rw [World.hashRemove_hash, if_pos rfl]
    rcases ht with ⟨_, rfl⟩ | ⟨parent, _, rfl⟩
    · exact hgone
    · rw [(World.onEntry_rest _ _ _).2.1]
      exact hgone

/-- A removal of a directory that returns 0 leaves its entry as it was. -/
theorem dfsRmdir_forgets (hi : s.Inv)
    (hg : (dplRmdir env s.store path).1 = .success →
      ∀ pe, s.entry path = some pe → pe.ondisk = .unset)
    (h : dfsRmdir cx env s (.ext path) = .ok (0, t)) :
    (t.All fun _ _ pe => pe.path = path → pe.ondisk = .unset) ∧ path ≠ rootPath := by
  rcases dplRmdir_cases env s.store path with ⟨hno, _⟩ | ⟨_, hne, _, _, hok⟩
  · unfold dfsRmdir at h
    dsimp only at h
    split at h
    · rename_i st hst
      have hst' : dplRmdir env s.store path = (.success, st) := hst
      rw [hst'] at hno
      exact (hno rfl).elim
    · cases h
  · refine ⟨?_, hne⟩
    have hs : s.All fun _ _ pe => pe.path = path → pe.ondisk = .unset := by
      intro a pe ha hp
      apply hg (by rw [hok])
      rw [← hp]
      exact hi.entry_of_heap ha
    exact dfsRmdir_all (fun _ _ _ _ hpe => hpe) hs (fun _ _ _ _ _ _ _ _ hpe => hpe) h

end Callbacks

/-- The callback that removes the name. -/
def Op.Removes (op : Op) (path : Path) : Prop := op = .unlink path ∨ op = .rmdir path

def Op.Creates (op : Op) (path : Path) : Prop := ∃ mode flags, op = .create path mode flags

/-- What the table answers for is in the store. -/
def Daemon.ShowsObjects (d : Daemon) : Prop :=
  ∀ path pe, d.world.entry path = some pe →
    pe.ondisk = .remote ∨ pe.ondisk = .loc ∧ pe.exclude = false →
    d.world.store.ftype? path ≠ none

/-- After the path was removed, every stat of it fails for as long as it has not been created
again. -/
def StaysHidden (cx : Ctx) (d₀ : Daemon) (calls : List Call) : Prop :=
  ∀ before c after, calls = before ++ c :: after → ∀ path d d' e,
    Transition.exec (Daemon.step cx) d₀ before = .ok d → c.op.Removes path →
    d.call cx c = .ok (0, d') → Transition.exec (Daemon.step cx) d' after = .ok e →
    (∀ k ∈ after, ¬k.op.Creates path) → e.world.store.lookup path = none →
    e.world.Hides path

section Runs

variable {cx : Ctx} {d d' : Daemon} {c : Call} {path : Path}

theorem Daemon.call_step {ret : Int} (h : d.call cx c = .ok (ret, d')) :
    Daemon.step cx d c = .ok d' := by
  rw [Daemon.step, h]
  rfl

theorem Daemon.ShowsObjects.of_backed (hi : d.world.Inv)
    (hs : d.world.All (Backed fun _ => False)) : d.ShowsObjects := by
  intro path pe he hshown
  obtain ⟨a, hh, ha⟩ := Option.bind_eq_some_iff.mp he
  obtain ⟨qe, hqe, hp⟩ := hi.entry path a hh
  obtain rfl : pe = qe := Option.some.inj (ha.symm.trans hqe)
  have hb : pe.Shown fun _ => False := hshown.imp id fun ⟨ho, hx⟩ => ⟨ho, .inl hx⟩
  rw [← hp]
  rcases hs a pe ha hb with ho | hroot
  · by_cases hr : pe.path = rootPath
    · rw [hr, Store.ftype?_root]
      exact Option.some_ne_none _
    · rw [Store.ftype?_of_ne hr]
      simpa [Option.isSome_iff_ne_none] using ho
  · rw [hroot, Store.ftype?_root]
    exact Option.some_ne_none _

/-- A removal that returns 0 leaves no answer for the name. -/
theorem Daemon.removed_unset (hi : d.world.Inv) (hg : Forgets cx d c) (hr : c.op.Removes path)
    (h : d.call cx c = .ok (0, d')) :
    (d'.world.All fun _ _ pe => pe.path = path → pe.ondisk = .unset) ∧ path ≠ rootPath := by
  obtain ⟨op, env⟩ := c
  have hcall := Daemon.call_cases h
  have hinv := hcall.inv hi
  rcases hr with rfl | rfl
  · cases hcall with
    | unlink hu =>
      obtain ⟨hh, hroot⟩ := dfsUnlink_forgets hu
      refine ⟨fun a pe ha hp => ?_, hroot⟩
      have hl := hinv.linked a pe ha
      rw [hp] at hl
      exact absurd (hl.symm.trans hh) (by simp)
  · cases hcall with
    | rmdir hm => exact dfsRmdir_forgets hi hg hm

theorem Daemon.hides_of_backed (hi : d.world.Inv) (hs : d.world.All (Backed (· = path)))
    (hroot : path ≠ rootPath) (ho : d.world.store.lookup path = none) : d.world.Hides path := by
  apply World.Hides.of_unset hi hroot ho
  intro pe he
  obtain ⟨a, hh, ha⟩ := Option.bind_eq_some_iff.mp he
  obtain ⟨qe, hqe, hp⟩ := hi.entry path a hh
  obtain rfl : pe = qe := Option.some.inj (ha.symm.trans hqe)
  have hno : ¬pe.Shown (· = path) := by
    intro hshown
    rcases hs a pe ha hshown with hobj | hr
    · rw [hp, ho] at hobj
      cases hobj
    · exact hroot (hp.symm.trans hr)
  cases hd : pe.ondisk with
  | unset => rfl
  | remote => exact (hno (.inl hd)).elim
  | loc => exact (hno (.inr ⟨hd, .inr hp⟩)).elim

end Runs

/-- In a run whose steps leave no answer for a name without an object the table shows objects
only, and a removed name stays hidden. -/
theorem removed_names_hidden (cx : Ctx) {store : Store} {fs : LocalFs} {ring : Ring}
    {calls : List Call} (hw : fs.Wf)
    (hm : Transition.Meets (Daemon.step cx) (Forgets cx) (.init store fs ring) calls) :
    Transition.Always (Daemon.step cx) Daemon.ShowsObjects (.init store fs ring) calls ∧
      StaysHidden cx (.init store fs ring) calls := by
  have hkeep : ∀ (gone : Path → Prop) (d : Daemon) (c : Call) (d' : Daemon),
      (d.world.Inv ∧ d.world.All (Backed gone)) →
      (Forgets cx d c ∧ ∀ path, gone path → ¬c.op.Creates path) → Daemon.step cx d c = .ok d' →
      d'.world.Inv ∧ d'.world.All (Backed gone) := by
    intro gone d c d' ⟨hi, hs⟩ ⟨hg, hno⟩ ht
    obtain ⟨ret, hc⟩ := Daemon.step_cases ht
    refine ⟨hc.inv hi, hc.backed hi hs hg ?_⟩
    exact fun path mode flags he hgone => hno path hgone ⟨mode, flags, he⟩
  have hinit : (Daemon.init store fs ring).world.Inv ∧
      (Daemon.init store fs ring).world.All (Backed fun _ => False) :=
    ⟨Daemon.init_inv hw, fun a pe ha => by cases ha⟩
  have hkeep₀ : ∀ (d : Daemon) (c : Call) (d' : Daemon),
      (d.world.Inv ∧ d.world.All (Backed fun _ => False)) → Forgets cx d c →
      Daemon.step cx d c = .ok d' → d'.world.Inv ∧ d'.world.All (Backed fun _ => False) :=
    fun d c d' hd hg ht => hkeep _ d c d' hd ⟨hg, fun _ h _ => h⟩ ht
  refine ⟨Transition.always_of_meets (fun d ⟨hi, hs⟩ => .of_backed hi hs) hkeep₀ hinit hm, ?_⟩
  intro before c after hcalls path d d' e hbefore hr hcall hafter hno ho
  rw [hcalls] at hm
  obtain ⟨hm₁, hm₂⟩ := Transition.meets_append hm hbefore
  obtain ⟨hg, hm₃⟩ := Transition.meets_cons hm₂ (Daemon.call_step hcall)
  obtain ⟨hi, hs⟩ := Transition.exec_invariant hkeep₀ hinit hm₁ hbefore
  obtain ⟨hi', hs'⟩ := hkeep₀ d c d' ⟨hi, hs⟩ hg (Daemon.call_step hcall)
  obtain ⟨hunset, hroot⟩ := Daemon.removed_unset hi hg hr hcall
  -- from the removal on, an excluded cache file of the path counts too
  have hstart : d'.world.All (Backed (· = path)) := by
    intro a pe ha hshown
    rcases hshown with hrem | ⟨hl, hx | hp⟩
    · exact hs' a pe ha (.inl hrem)
    · exact hs' a pe ha (.inr ⟨hl, .inl hx⟩)
    · rw [hunset a pe ha hp] at hl
      cases hl
  have hm₄ := Transition.meets_and_forall hm₃ hno
  have hend := Transition.exec_invariant
    (I := fun d => d.world.Inv ∧ d.world.All (Backed (· = path)))
    (fun d c d' hd hg ht => hkeep _ d c d' hd ⟨hg.1, fun q hq => hq ▸ hg.2⟩ ht)
    ⟨hi', hstart⟩ hm₄ hafter
  exact Daemon.hides_of_backed hend.1 hend.2 hroot ho

/-- A file is opened and unlinked, and looked at again. -/
theorem removed_names_hidden_sample :
    Transition.Always (Daemon.step Sample.plain) Daemon.ShowsObjects
        (Sample.daemon [(['/', 'f'], Sample.file [1])])
        [Sample.call (.open ['/', 'f'] Sample.readOnly),
          ⟨.unlink ['/', 'f'], { Env.quiet with stale := some }⟩,
          Sample.call (.getattr ['/', 'f'])] ∧
      StaysHidden Sample.plain (Sample.daemon [(['/', 'f'], Sample.file [1])])
        [Sample.call (.open ['/', 'f'] Sample.readOnly),
          ⟨.unlink ['/', 'f'], { Env.quiet with stale := some }⟩,
          Sample.call (.getattr ['/', 'f'])] := by
  apply removed_names_hidden Sample.plain Sample.fs_wf
  exact ⟨fun _ => .inr (by decide), trivial, trivial, trivial⟩

/-- `/d` is made, looked at and removed. -/
def removedDirectory : List Call :=
  [Sample.call (.mkdir ['/', 'd']), Sample.call (.getattr ['/', 'd'])]

/-- The removal of a directory returns 0, and so does the next stat of it. -/
theorem removed_directory_shown :
    ∃ d d', Transition.exec (Daemon.step Sample.plain) (Sample.daemon []) removedDirectory =
        .ok d ∧
      d.call Sample.plain (Sample.call (.rmdir ['/', 'd'])) = .ok (0, d') ∧
      d'.world.store.lookup ['/', 'd'] = none ∧
      (∃ st t, dfsGetattr Env.quiet d'.world ['/', 'd'] = .ok (0, st, t)) ∧
      ¬d'.ShowsObjects ∧
      ¬StaysHidden Sample.plain (Sample.daemon [])
        (removedDirectory ++ [Sample.call (.rmdir ['/', 'd'])]) := by
  refine ⟨_, _, rfl, rfl, by decide, ⟨_, _, rfl⟩, ?_, ?_⟩
  · intro h
    exact h ['/', 'd'] _ rfl (.inl rfl) (by decide)
  · intro h
    have hides := h removedDirectory _ [] rfl ['/', 'd'] _ _ _ rfl (.inr rfl) rfl rfl
      (fun _ hk => by cases hk) (by decide)
    obtain ⟨ret, st, t, hg, hneg⟩ := hides Env.quiet
    obtain rfl : 0 = ret := congrArg (fun r => r.toOption.elim 0 (·.1)) hg
    exact absurd hneg (by decide)

end DropletFs
