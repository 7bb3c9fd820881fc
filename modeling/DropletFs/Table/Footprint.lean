import DropletFs.Rename.Names
import DropletFs.Table.Origins

/-! Which objects of the store a callback can reach. -/

namespace DropletFs

open CText LocalFs

/-- What becomes of the object of one name: it may be put where `put` holds, go where `drop`
does, and get other metadata where `mark` does. -/
inductive Shift (put drop mark : Prop) : Option Obj → Option Obj → Prop
  | same {o} : Shift put drop mark o o
  | put {o o'} (h : put) : Shift put drop mark o (some o')
  | drop {o} (h : drop) : Shift put drop mark o none
  | mark {o} (h : mark) (md : Dict) : Shift put drop mark (some o) (some { o with userMeta := md })

section Shift

variable {put drop mark : Prop} {o o' o'' : Option Obj} {st st' : Store} {k q : Path}

theorem Shift.trans (h : Shift put drop mark o o') (h' : Shift put drop mark o' o'') :
    Shift put drop mark o o'' := by
  cases h' with
  | same => exact h
  | put hp => exact .put hp
  | drop hd => exact .drop hd
  | mark hm md =>
    cases h with
    | same => exact .mark hm md
    | put hp => exact .put hp
    | mark _ md' => exact .mark hm md

theorem Shift.mono {put' drop' : Prop} (h : Shift put drop mark o o') (hp : put → put')
    (hd : drop → drop') : Shift put' drop' mark o o' := by
  cases h with
  | same => exact .same
  | put h => exact .put (hp h)
  | drop h => exact .drop (hd h)
  | mark h md => exact .mark h md

theorem Shift.insert (hq : q = k → put) (ob : Obj) :
    Shift put drop mark (st.lookup q) ((st.insert k ob).lookup q) := by
  by_cases h : q = k
  · rw [h, AList.lookup_insert]
    exact .put (hq h)
  · rw [AList.lookup_insert_ne h]
    exact .same

theorem Shift.erase (hq : q = k → drop) :
    Shift put drop mark (st.lookup q) ((st.erase k).lookup q) := by
  by_cases h : q = k
  · rw [h, AList.lookup_erase]
    exact .drop (hq h)
  · rw [AList.lookup_erase_ne h]
    exact .same

theorem Shift.puts (h : Puts k st st') (hq : q = k → put) :
    Shift put drop mark (st.lookup q) (st'.lookup q) := by
  rcases h with rfl | ⟨ob, -, rfl⟩
  · exact .same
  · exact .insert hq ob

variable {env : Env}

theorem Shift.mkdir (hq : q = k → put) :
    Shift put drop mark (st.lookup q) ((dplMkdir env st k).2.lookup q) := by
  rcases dplMkdir_cases env st k with ⟨-, he⟩ | ⟨-, -, -, he⟩
  · rw [he]
    exact .same
  · rw [he]
    exact .insert hq _

theorem Shift.unlink (hq : q = k → drop) :
    Shift put drop mark (st.lookup q) ((dplUnlink env st k).2.lookup q) := by
  rcases dplUnlink_cases env st k with ⟨-, he⟩ | ⟨-, -, -, he⟩
  · rw [he]
    exact .same
  · rw [he]
    exact .erase hq

theorem Shift.rmdir (hq : q = k → drop) :
    Shift put drop mark (st.lookup q) ((dplRmdir env st k).2.lookup q) := by
  rcases dplRmdir_cases env st k with ⟨-, he⟩ | ⟨-, -, -, -, he⟩
  · rw [he]
    exact .same
  · rw [he]
    exact .erase hq

theorem Shift.fcopy {p : Path} (hq : q = k → put) :
    Shift put drop mark (st.lookup q) ((dplFcopy env st p k).2.lookup q) := by
  rcases dplFcopy_cases env st p k with ⟨-, he⟩ | ⟨-, -, -, o, -, -, he⟩
  · rw [he]
    exact .same
  · rw [he]
    exact .insert hq o

theorem Shift.setattr {md : Dict} (hq : q = k → mark) :
    Shift put drop mark (st.lookup q) ((dplSetattr env st k md).2.lookup q) := by
  unfold dplSetattr
  split
  · cases ho : st.lookup k with
    | none => exact .same
    | some ob =>
      change Shift put drop mark _ ((st.insert k { ob with userMeta := md }).lookup q)
      by_cases h : q = k
      · rw [h, AList.lookup_insert, ho]
        exact .mark (hq h) md
      · rw [AList.lookup_insert_ne h]
        exact .same
  · exact .same

end Shift

/-- A rename takes its old path for a directory. -/
def RenamesDir (env : Env) (d : Daemon) (old : Path) : Prop :=
  (dplNamei env d.world.store old).2.getD (env.junk old) = .dir

/-- The names a call may put an object under. -/
def Op.Puts (cx : Ctx) (env : Env) (d : Daemon) : Op → Path → Prop
  | .create path _ _, q => q = path ∧ cx.conf.regex path = false
  | .release i, q => ∃ h pe, d.handles[i]? = some h ∧ q = h.path ∧ h.flags.acc ≠ .rdonly ∧
      d.world.heap h.addr = some pe ∧ pe.exclude = false
  | .mkdir path, q | .mknod path, q | .symlink _ path, q => q = path
  | .rename old new, q => q = renameTarget old new ∨
      RenamesDir env d old ∧ Within (renameTarget old new) q
  | _, _ => False

/-- The names a call may remove the object of. -/
def Op.Drops (env : Env) (d : Daemon) : Op → Path → Prop
  | .unlink path, q | .rmdir path, q => q = path
  | .rename old _, q => q = old ∨ RenamesDir env d old ∧ Within old q
  | _, _ => False

/-- The names a call may change the metadata of. -/
def Op.Marks : Op → Path → Prop
  | .chmod path _, q | .chown path _ _, q => q = path
  | _, _ => False

/-- The strings of a directory rename outlast the ring. -/
def NamesHold (c : Call) (d : Daemon) : Prop :=
  match c.op with
  | .rename old new => RenamesDir c.env d old → old ≠ rootPath ∧
      ∃ f, Ready d.world old (renameTarget old new) f ∧ d.world.store.children old = f.names
  | _ => True

section Callbacks

variable {cx : Ctx} {env : Env} {s t : World} {path q : Path} {ret : Int}

theorem dfsGetattr_store {st : Stat} (hi : s.Inv) (h : dfsGetattr env s path = .ok (ret, st, t)) :
    t.store = s.store := by
  cases dfsGetattr_cases h with
  | root => rfl
  | noEntry => rfl
  | remote _ hl _ _ _ => exact (lookupOrPopulate_spec hi hl).store
  | loc _ hl _ _ _ => exact (lookupOrPopulate_spec hi hl).store
  | unset _ hl _ _ _ =>
    have hs := (lookupOrPopulate_spec hi hl).store
    split_ifs
    · unfold hashFillDirent
      split
      · exact hs
      · exact (World.onEntry_rest _ _ _).1.trans hs
    · exact hs

theorem dfsOpen_store {flags : OpenFlags} {fh : Option Addr} (hi : s.Inv)
    (h : dfsOpen cx env s path flags = .ok (ret, fh, t)) : t.store = s.store := by
  rcases dfsOpen_cases hi h with ⟨-, -, rfl⟩ | ⟨a, u, pe, qe, fs, hl, -, -, -, rfl⟩
  · rfl
  · exact hl.store

/-- A create puts an empty object, unless its path is excluded. -/
theorem dfsCreate_puts {mode : Nat} {flags : OpenFlags} {fh : Option Addr} (hi : s.Inv)
    (h : dfsCreate cx env s path mode flags = .ok (ret, fh, t)) :
    Puts path s.store t.store ∧ (cx.conf.regex path = true → t.store = s.store) := by
  rcases dfsCreate_cases h with ⟨-, -, rfl⟩ | ⟨r, u, ho, hcase⟩
  · exact ⟨.inl rfl, fun _ => rfl⟩
  have hu := dfsOpen_store hi ho
  rcases hcase with ⟨-, rfl, -⟩ | ⟨-, a, pe, pe', fs, st, -, -, hc, rfl⟩
  · exact ⟨.inl hu, fun _ => hu⟩
  · rw [← hu]
    rcases (createOpened_effect hc).2.1 with rfl | ⟨hx, rfl⟩
    · exact ⟨.inl rfl, fun _ => rfl⟩
    · exact ⟨.inr ⟨_, rfl, rfl⟩, fun hr => absurd (hx.symm.trans hr) (by decide)⟩

/-- A release uploads what was opened to be written and is not excluded. -/
theorem dfsRelease_puts {flags : OpenFlags} {fh : Addr} {pe : Entry}
    (ha : s.heap fh = some pe) (h : dfsRelease cx env s path flags fh = .ok (ret, t)) :
    Puts path s.store t.store ∧ (flags.acc = .rdonly ∨ pe.exclude = true → t.store = s.store) := by
  obtain ⟨qe, qe', fs, st, hq, hr, rfl⟩ := dfsRelease_cases h
  obtain rfl : pe = qe := Option.some.inj (ha.symm.trans hq)
  obtain ⟨hputs, hx⟩ := releaseEntry_puts hr
  refine ⟨hputs, ?_⟩
  intro hcase
  rcases hcase with hread | he
  · change st = s.store
    unfold releaseEntry at hr
    cases hfd : pe.fd with
    | none =>
      simp only [hfd, Except.ok.injEq, Prod.mk.injEq] at hr
      exact hr.2.2.2.symm
    | some fd =>
      rw [hfd] at hr
      dsimp only at hr
      split at hr
      · obtain ⟨re, -, hr⟩ := Except.bind_ok.mp hr
        rw [if_pos hread] at hr
        simp only [Except.ok.injEq, Prod.mk.injEq] at hr
        exact hr.2.2.2.symm
      · simp only [Except.ok.injEq, Prod.mk.injEq] at hr
        exact hr.2.2.2.symm
  · exact hx he

theorem setAttributes_shift {upd : Dict → Dict} {change : LocalFs → Nat → LocalFs} {call : SysCall}
    {put drop : Prop} (h : setAttributes env s path upd change call = .ok (ret, t)) :
    Shift put drop (q = path) (s.store.lookup q) (t.store.lookup q) := by
  rcases setAttributes_cases h with rfl | ⟨a, pe, md, fs, st, -, -, -, hst, rfl⟩
  · exact .same
  · rcases hst with rfl | rfl
    · exact .same
    · exact .setattr id

/-- A file's rename reaches its two names. -/
theorem renameFile_shift {a b : Path} {mark : Prop}
    (h : renameFile cx env s (.ext a) (.ext b) = .ok (ret, t)) :
    Shift (q = b) (q = a) mark (s.store.lookup q) (t.store.lookup q) := by
  have hcopy : Shift (q = b) (q = a) mark (s.store.lookup q)
      ((dplFcopy env s.store a b).2.lookup q) := .fcopy id
  rcases (renameFile_effect h).1 with hst | hst
  · rw [hst]
    exact hcopy
  · rw [hst]
    exact hcopy.trans (.unlink id)

/-- A directory's rename reaches what lies within its two names. -/
theorem shiftSteps (o n q : Path) (u : World) : MoveSteps cx env o n fun t =>
    Shift (Within n q) (Within o q) False (u.store.lookup q) (t.store.lookup q) where
  aside _ _ _ _ h := h
  mkdir s p hp h := by
    rw [(dfsMkdir_effect env s p).1]
    exact h.trans (.mkdir fun he => he ▸ hp)
  file s a b ret t ha hb h hrun :=
    h.trans ((renameFile_shift hrun).mono (fun he => he ▸ hb) (fun he => he ▸ ha))
  rmdir s a ret t ha h hrun := by
    rw [(dfsRmdir_effect hrun).1]
    exact h.trans (.rmdir fun he => he ▸ ha)

theorem dfsRename_shift {d : Daemon} {old new : Path}
    (hg : NamesHold ⟨.rename old new, env⟩ d)
    (h : dfsRename cx env d.world old new = .ok (ret, t)) :
    Shift (Op.Puts cx env d (.rename old new) q) (Op.Drops env d (.rename old new) q) False
      (d.world.store.lookup q) (t.store.lookup q) := by
  rcases dfsRename_cases h with ⟨-, -, rfl⟩ | ⟨-, r, -, hfile⟩ | ⟨hdir, r, -, hmove⟩
  · exact .same
  · exact (renameFile_shift hfile).mono .inl .inl
  · obtain ⟨hroot, f, hready, hc⟩ := hg hdir
    obtain ⟨heq, hkeep⟩ := renameDirectory_agree cx env env.stack hready hroot hc
    rw [heq] at hmove
    have hshift := (hkeep r t hmove).2 _ (shiftSteps old (renameTarget old new) q d.world) .same
    exact hshift.mono (fun hw => .inr ⟨hdir, hw⟩) (fun hw => .inr ⟨hdir, hw⟩)

end Callbacks

/-- A call reaches the names of its footprint only. -/
theorem Calls.shift {cx : Ctx} {env : Env} {d d' : Daemon} {op : Op} {ret : Int}
    (hi : d.world.Inv) (hg : NamesHold ⟨op, env⟩ d) (h : Calls cx env d op ret d') (q : Path) :
    Shift (op.Puts cx env d q) (op.Drops env d q) (op.Marks q) (d.world.store.lookup q)
      (d'.world.store.lookup q) := by
  have hcreate : ∀ {path mode flags ret fh w},
      dfsCreate cx env d.world path mode flags = .ok (ret, fh, w) →
      Shift (Op.Puts cx env d (.create path mode flags) q) False False
        (d.world.store.lookup q) (w.store.lookup q) := by
    intro path mode flags ret fh w hc
    obtain ⟨hputs, hx⟩ := dfsCreate_puts hi hc
    cases hr : cx.conf.regex path with
    | true =>
      rw [hx hr]
      exact .same
    | false => exact .puts hputs fun he => ⟨he, hr⟩
  cases h with
  | getattr h =>
    rw [dfsGetattr_store hi h]
    exact .same
  | opened h =>
    rw [dfsOpen_store hi h]
    exact .same
  | openFailed _ h =>
    rw [dfsOpen_store hi h]
    exact .same
  | created h => exact hcreate h
  | createFailed _ h => exact hcreate h
  | read => exact .same
  | written _ _ h =>
    obtain ⟨-, -, ⟨rfl, -⟩ | ⟨-, -, -, -, -, -, rfl⟩⟩ := dfsWrite_cases h
    · exact .same
    · exact .same
  | notWritten _ => exact .same
  | released hh h =>
    rename_i g w
    obtain ⟨pe, _, _, _, ha, _, _⟩ := dfsRelease_cases h
    obtain ⟨hputs, hx⟩ := dfsRelease_puts ha h
    by_cases hup : g.flags.acc = .rdonly ∨ pe.exclude = true
    · rw [hx hup]
      exact .same
    · rw [not_or, Bool.not_eq_true] at hup
      exact .puts hputs fun he => ⟨g, pe, hh, he, hup.1, ha, hup.2⟩
  | notReleased => exact .same
  | unlink h =>
    rw [dfsUnlink_store h]
    exact .unlink id
  | rename h => exact dfsRename_shift hg h
  | rmdir h =>
    rw [(dfsRmdir_effect h).1]
    exact .rmdir id
  | mkdir =>
    rw [(dfsMkdir_effect env d.world _).1]
    exact .mkdir id
  | mknod => exact .puts (dfsMknod_puts env d.world _).1 id
  | symlink h => exact .puts (dfsSymlink_puts h).1 id
  | chmod h => exact setAttributes_shift h
  | chown h => exact setAttributes_shift h
  | gc =>
    rename_i path
    have hst : (gcCallback cx env d.world path).store = d.world.store := by
      rcases gcCallback_cases cx env d.world path with h | ⟨-, -, -, -, -, h⟩
      · rw [h]
      · rw [h, World.hashRemove_store]
    rw [hst]
    exact .same

/-- A call can reach the object of the name. -/
def Reaches (cx : Ctx) (q : Path) (d : Daemon) (c : Call) : Prop :=
  c.op.Puts cx c.env d q ∨ c.op.Drops c.env d q ∨ c.op.Marks q

/-- Every object of the store is, after any run, the one from before the run or what the last call
that can reach its name has left: no other callback has any effect on it. -/
theorem objects_attributed (cx : Ctx) (store : Store) (fs : LocalFs) (ring : Ring) (hw : fs.Wf)
    (calls : List Call) (d : Daemon)
    (hm : Transition.Meets (Daemon.step cx) (fun d c => NamesHold c d) (.init store fs ring) calls)
    (hr : Transition.exec (Daemon.step cx) (.init store fs ring) calls = .ok d) (q : Path) :
    d.world.store.lookup q = store.lookup q ∨
    ∃ before c after v w, calls = before ++ c :: after ∧
      Transition.exec (Daemon.step cx) (.init store fs ring) before = .ok v ∧
      Daemon.step cx v c = .ok w ∧ Reaches cx q v c ∧
      d.world.store.lookup q = w.world.store.lookup q := by
  refine Transition.exec_attributed (f := fun d : Daemon => d.world.store.lookup q)
    (I := fun d => d.world.Inv) (R := Reaches cx q) ?_ ?_ (Daemon.init_inv hw) hm hr
  · intro s c t hs _ ht
    obtain ⟨ret, hc⟩ := Daemon.step_cases ht
    exact hc.inv hs
  · intro s c t hs hg hno ht
    obtain ⟨ret, hc⟩ := Daemon.step_cases ht
    have hshift := hc.shift hs hg q
    simp only [Reaches, not_or] at hno
    generalize s.world.store.lookup q = o, t.world.store.lookup q = o' at hshift
    cases hshift with
    | same => rfl
    | put hp => exact (hno.1 hp).elim
    | drop hd => exact (hno.2.1 hd).elim
    | mark hk md => exact (hno.2.2 hk).elim

/-- The configuration that keeps one name local. -/
def oneExcluded : Ctx := { Sample.plain with
  conf := { Sample.plain.conf with regex := fun path => path = ['/', 'x'] } }

/-- The same is written under the name kept local and under another. -/
def writeBoth : List Call :=
  [Sample.call (.create ['/', 'x'] sIfreg ⟨.wronly, false, true, false⟩),
    Sample.call (.write 0 [2] 0), Sample.call (.release 0),
    Sample.call (.create ['/', 'f'] sIfreg ⟨.wronly, false, true, false⟩),
    Sample.call (.write 0 [2] 0), Sample.call (.release 0)]

theorem objects_attributed_sample :
    ∃ d, Transition.exec (Daemon.step oneExcluded)
        (Sample.daemon [(['/', 'x'], Sample.file [1])]) writeBoth = .ok d ∧
      (d.world.store.lookup ['/', 'f']).map (·.data) = some [2] ∧
      ∃ before c after v w, writeBoth = before ++ c :: after ∧
        Transition.exec (Daemon.step oneExcluded)
          (Sample.daemon [(['/', 'x'], Sample.file [1])]) before = .ok v ∧
        Daemon.step oneExcluded v c = .ok w ∧ Reaches oneExcluded ['/', 'f'] v c ∧
        d.world.store.lookup ['/', 'f'] = w.world.store.lookup ['/', 'f'] := by
  refine ⟨_, rfl, rfl, ?_⟩
  have h := objects_attributed oneExcluded (Sample.store [(['/', 'x'], Sample.file [1])]) Sample.fs
    Sample.ring Sample.fs_wf writeBoth _ ⟨trivial, trivial, trivial, trivial, trivial, trivial,
      trivial⟩ rfl ['/', 'f']
  rcases h with hsame | hlast
  · exact absurd (congrArg (Option.map Obj.data) hsame) (by decide)
  · exact hlast

section Excluded

variable {cx : Ctx} {env : Env} {d : Daemon} {w : World} {path : Path} {ret : Int}

/-- A handle opened to write on an excluded path is on an entry marked so. -/
def Shielded (cx : Ctx) (hs : List Handle) : EntryProp := fun a _ pe =>
  (∃ h ∈ hs, h.addr = a ∧ h.flags.acc ≠ .rdonly ∧ cx.conf.regex h.path = true) →
    pe.exclude = true

theorem Shielded.congr {hs : List Handle} {a : Addr} {o o' : Option Obj} {pe pe' : Entry}
    (h : Shielded cx hs a o pe) (hx : pe'.exclude = pe.exclude) : Shielded cx hs a o' pe' :=
  fun hh => hx.trans (h hh)

theorem Shielded.steady (cx : Ctx) (hs : List Handle) : Steady (Shielded cx hs) :=
  ⟨fun _ h => h.congr rfl, fun _ h => h.congr rfl, fun _ _ h => h.congr rfl⟩

theorem Shielded.fresh {hs : List Handle} {b : Addr} (hb : ∀ h ∈ hs, h.addr < b) (o : Option Obj)
    (pe : Entry) : Shielded cx hs b o pe := by
  intro ⟨h, hh, ha, _⟩
  exact absurd ha (Nat.ne_of_lt (hb h hh))

/-- An entry that is looked at under its own path comes out of a create marked as the pattern
says. -/
theorem dfsCreate_shielded {mode : Nat} {flags : OpenFlags} {fh : Option Addr} (hi : d.world.Inv)
    (ho : d.Original cx) (hs : d.world.All (Shielded cx d.handles))
    (h : dfsCreate cx env d.world path mode flags = .ok (ret, fh, w)) :
    w.All (Shielded cx d.handles) := by
  -- the path of the entry is that of the handles on it
  have hboth : w.All fun a o pe => Origin cx d.handles a o pe ∧ Shielded cx d.handles a o pe := by
    refine dfsCreate_all
      (P := fun a o pe => Origin cx d.handles a o pe ∧ Shielded cx d.handles a o pe) hi
      (fun a pe ha => ⟨ho.origin a pe ha, hs a pe ha⟩)
      (fun _ => ⟨Origin.fresh ho.below _ path .reg, Shielded.fresh ho.below _ _⟩) ?_ ?_ h
    · intro a qe fs hm ⟨horigin, hshield⟩
      have hspec := openMode_spec hi.wf hm
      exact ⟨horigin.congr hspec.update.path hspec.exclude, hshield.congr hspec.exclude⟩
    · intro a r qe fs pe' fs' st _ hm hc ⟨horigin, hshield⟩
      have hspec := openMode_spec hi.wf hm
      obtain ⟨md, l, rfl, -⟩ := createOpened_spec hspec.update.wf hc
      have hpath : qe.path = path := hspec.update.path.trans (hi.entryOr_path _ path _)
      refine ⟨⟨fun g hg ha => hspec.update.path.trans (horigin.1 g hg ha), ?_⟩, ?_⟩
      · intro hx
        change cx.conf.regex qe.path = true
        rw [hpath]
        exact hx
      · intro ⟨g, hg, ha, _, hr⟩
        change cx.conf.regex path = true
        have hgp : path = g.path := (hi.entryOr_path _ path _).symm.trans (horigin.1 g hg ha)
        rw [hgp]
        exact hr
  exact fun a pe ha => (hboth a pe ha).2

theorem dfsOpen_shielded {flags : OpenFlags} {fh : Option Addr} (hi : d.world.Inv)
    (ho : d.Original cx) (hs : d.world.All (Shielded cx d.handles))
    (h : dfsOpen cx env d.world path flags = .ok (ret, fh, w)) :
    w.All (Shielded cx d.handles) := by
  apply (dfsOpen_all hi hs (fun _ => Shielded.fresh ho.below _ _) _ h).1
  intro a qe fs hm hpe
  have hspec := openMode_spec hi.wf hm
  split_ifs
  · exact hpe.congr hspec.exclude
  · exact hpe.congr hspec.exclude

/-- What a directory rename is made of, over handles on addresses in use. -/
theorem shieldedSteps {hs : List Handle} {b : Addr} (hb : ∀ h ∈ hs, h.addr < b) :
    RenameSteps cx env fun s => s.Inv ∧ b ≤ s.brk ∧ s.All (Shielded cx hs) where
  aside _ _ _ _ h := ⟨h.1.congr rfl rfl rfl rfl, h.2.1, h.2.2.of_eq rfl rfl⟩
  mkdir s path h := by
    refine ⟨(dfsMkdir_inv h.1).1, h.2.1.trans (dfsMkdir_brk env s path), ?_⟩
    apply dfsMkdir_all h.1 h.2.2
    · exact fun _ _ _ _ hpe => hpe.congr rfl
    · exact fun _ => Shielded.fresh (fun g hg => (hb g hg).trans_le h.2.1) _ _
  file s p q ret t h hr := by
    refine ⟨renameFile_inv h.1 hr, h.2.1.trans (renameFile_brk hr).ge, ?_⟩
    apply renameFile_all (Shielded.steady cx hs).removable h.1 h.2.2 _ hr
    exact fun _ _ _ _ _ hpe => hpe.congr rfl
  rmdir s p ret t h hr := by
    refine ⟨(dfsRmdir_inv h.1 hr).1, h.2.1.trans (dfsRmdir_brk hr).ge, ?_⟩
    apply dfsRmdir_all (Shielded.steady cx hs).removable h.2.2 _ hr
    exact fun _ _ _ _ _ _ _ _ hpe => hpe.congr rfl

/-- One more handle. -/
theorem Shielded.grant {hs : List Handle} {a : Addr} {flags : OpenFlags}
    (h : w.All (Shielded cx hs)) (ha : flags.acc ≠ .rdonly → cx.conf.regex path = true →
      ∀ pe, w.heap a = some pe → pe.exclude = true) :
    w.All (Shielded cx (hs ++ [⟨a, path, flags⟩])) := by
  intro b pe hb ⟨g, hg, haddr, hacc, hr⟩
  rcases List.mem_append.mp hg with hold | hnew
  · exact h b pe hb ⟨g, hold, haddr, hacc, hr⟩
  · obtain rfl := List.mem_singleton.mp hnew
    obtain rfl : a = b := haddr
    exact ha hacc hr pe hb

theorem Shielded.fewer {hs hs' : List Handle} (hsub : hs' ⊆ hs) (h : w.All (Shielded cx hs)) :
    w.All (Shielded cx hs') := by
  intro a pe ha ⟨g, hg, hrest⟩
  exact h a pe ha ⟨g, hsub hg, hrest⟩

/-- The calls that keep excluded names out of the store: nothing is made under one, and one is
opened to write only where a create has marked it. -/
def KeepsOut (cx : Ctx) (d : Daemon) (c : Call) : Prop :=
  NamesHold c d ∧
  match c.op with
  | .open path flags => flags.acc = .rdonly ∨ cx.conf.regex path = false ∨
      (d.world.entry path).map (·.exclude) = some true
  | .create .. | .release _ => True
  | op => ∀ q, op.Puts cx c.env d q → cx.conf.regex q = false

theorem Calls.shielded {d' : Daemon} {op : Op} (hi : d.world.Inv) (ho : d.Original cx)
    (hs : d.world.All (Shielded cx d.handles)) (hg : KeepsOut cx d ⟨op, env⟩)
    (h : Calls cx env d op ret d') : d'.world.All (Shielded cx d'.handles) := by
  have hsteady := Shielded.steady cx d.handles
  have hti := h.inv hi
  cases h with
  | getattr h =>
    apply dfsGetattr_all hsteady hi hs _ _ _ h
    · exact fun _ => Shielded.fresh ho.below _ _
    · exact fun _ _ _ _ _ _ hpe => hpe.congr rfl
    · exact fun _ _ _ _ hpe => hpe.congr rfl
  | opened h =>
    rename_i path flags a w
    have hw := dfsOpen_shielded hi ho hs h
    refine Shielded.grant hw ?_
    intro hacc hr pe ha
    have hmarked : (d.world.entry path).map (·.exclude) = some true := by
      rcases hg.2 with hread | hout | hmarked
      · exact (hacc hread).elim
      · exact absurd (hout.symm.trans hr) (by decide)
      · exact hmarked
    rcases dfsOpen_cases hi h with ⟨h0, -⟩ | ⟨b, u, qe, re, fs, hl, hq, hb, hm, rfl⟩
    · exact absurd h0 (by decide)
    · obtain rfl : a = b := Option.some.inj hb
      change (World.setEntry u a _).heap a = some pe at ha
      rw [World.setEntry_heap_self, if_neg (by decide), Option.some.injEq] at ha
      obtain rfl := hl.entryOr hq
      obtain ⟨ee, hee, hx⟩ := Option.map_eq_some_iff.mp hmarked
      rw [← ha]
      apply (openMode_spec hi.wf hm).exclude.trans
      change (d.world.entryOr env path .reg).exclude = true
      rw [World.entryOr, hee]
      exact hx
  | openFailed _ h =>
    have hw := dfsOpen_shielded hi ho hs h
    exact hw
  | created h =>
    rename_i path mode flags a w
    have hw := dfsCreate_shielded hi ho hs h
    refine Shielded.grant hw ?_
    intro _ hr pe ha
    rcases dfsCreate_cases h with ⟨h0, -⟩ | ⟨r, u, hopen, hcase⟩
    · exact absurd h0 (by decide)
    rcases hcase with ⟨h0, -⟩ | ⟨-, b, qe, re, fs, st, hb, -, hc, rfl⟩
    · exact absurd h0 (by decide)
    · obtain rfl : a = b := Option.some.inj hb
      change (World.setEntry u a re).heap a = some pe at ha
      rw [World.setEntry_heap_self, Option.some.injEq] at ha
      obtain ⟨md, l, rfl, -⟩ := createOpened_spec (dfsOpen_inv hi hopen).1.wf hc
      rw [← ha]
      exact hr
  | createFailed _ h =>
    have hw := dfsCreate_shielded hi ho hs h
    exact hw
  | read => exact hs
  | written _ _ h =>
    obtain ⟨-, -, ⟨rfl, -⟩ | ⟨-, -, -, -, -, -, rfl⟩⟩ := dfsWrite_cases h
    · exact hs
    · exact hs.of_eq rfl rfl
  | notWritten _ => exact hs
  | released _ h =>
    apply Shielded.fewer (List.eraseIdx_subset)
    apply dfsRelease_all hi hs _ _ h
    · exact fun pe pe' fs st _ hr hpe => hpe.congr (releaseEntry_spec hi.wf hr).exclude
    · exact fun _ _ _ _ _ hpe => hpe.congr rfl
  | notReleased => exact hs
  | unlink h => exact dfsUnlink_all hsteady.removable hi hs h
  | rename h =>
    have hkeep := dfsRename_keeps (shieldedSteps ho.below) ⟨hi, le_rfl, hs⟩ h
    exact hkeep.2.2
  | rmdir h =>
    apply dfsRmdir_all hsteady.removable hs _ h
    exact fun _ _ _ _ _ _ _ _ hpe => hpe.congr rfl
  | mkdir =>
    apply dfsMkdir_all hi hs
    · exact fun _ _ _ _ hpe => hpe.congr rfl
    · exact fun _ => Shielded.fresh ho.below _ _
  | mknod =>
    obtain ⟨hp, hh⟩ := dfsMknod_puts env d.world _
    exact hs.put hh hp fun _ _ _ _ _ hpe => hpe.congr rfl
  | symlink h =>
    obtain ⟨hp, hh⟩ := dfsSymlink_puts h
    exact hs.put hh hp fun _ _ _ _ _ hpe => hpe.congr rfl
  | chmod h => exact setAttributes_all hi hs (fun _ _ _ _ _ _ _ hpe => hpe.congr rfl) h
  | chown h => exact setAttributes_all hi hs (fun _ _ _ _ _ _ _ hpe => hpe.congr rfl) h
  | gc => exact gcCallback_all hs

/-- What is under an excluded name was there before, with other metadata at most. -/
def Sheltered (cx : Ctx) (store : Store) (d : Daemon) : Prop :=
  ∀ q o, cx.conf.regex q = true → d.world.store.lookup q = some o →
    ∃ md, (store.lookup q).map (fun ob => { ob with userMeta := md }) = some o

theorem Calls.sheltered {d' : Daemon} {op : Op} {store : Store} (hi : d.world.Inv)
    (hs : d.world.All (Shielded cx d.handles)) (hg : KeepsOut cx d ⟨op, env⟩)
    (h : Calls cx env d op ret d') (hd : Sheltered cx store d) : Sheltered cx store d' := by
  intro q o hr ho'
  -- no call of the run puts an object under the name
  have hput : ¬op.Puts cx env d q := by
    intro hp
    cases op with
    | create path mode flags =>
      obtain ⟨rfl, hx⟩ := hp
      exact absurd (hx.symm.trans hr) (by decide)
    | release i =>
      obtain ⟨g, pe, hi', rfl, hacc, ha, hx⟩ := hp
      have hmarked := hs g.addr pe ha ⟨g, List.mem_of_getElem? hi', rfl, hacc, hr⟩
      exact absurd (hx.symm.trans hmarked) (by decide)
    | mkdir path => exact absurd ((hg.2 q hp).symm.trans hr) (by decide)
    | mknod path => exact absurd ((hg.2 q hp).symm.trans hr) (by decide)
    | symlink old path => exact absurd ((hg.2 q hp).symm.trans hr) (by decide)
    | rename old new => exact absurd ((hg.2 q hp).symm.trans hr) (by decide)
    | _ => exact hp
  have hshift := h.shift hi hg.1 q
  rw [ho'] at hshift
  generalize hb : d.world.store.lookup q = before at hshift
  cases hshift with
  | same => exact hd q o hr hb
  | put hp => exact (hput hp).elim
  | mark _ md =>
    obtain ⟨md', hmd⟩ := hd q _ hr hb
    obtain ⟨ob, hob, rfl⟩ := Option.map_eq_some_iff.mp hmd
    exact ⟨md, by rw [hob]; rfl⟩

/-- Excluded names stay local: in every run in which nothing is made or moved under an excluded name
and one is opened to write only where a create has marked it, whichever calls fail, what the store
has under an excluded name was there before, with its content. -/
theorem excluded_names_stay_local (cx : Ctx) (store : Store) (fs : LocalFs) (ring : Ring)
    (hw : fs.Wf) (calls : List Call) (d : Daemon)
    (hm : Transition.Meets (Daemon.step cx) (KeepsOut cx) (.init store fs ring) calls)
    (hr : Transition.exec (Daemon.step cx) (.init store fs ring) calls = .ok d) (q : Path) (o : Obj)
    (hq : cx.conf.regex q = true) (ho : d.world.store.lookup q = some o) :
    ∃ ob, store.lookup q = some ob ∧ o = { ob with userMeta := o.userMeta } := by
  have hall : d.world.Inv ∧ d.Original cx ∧ d.world.All (Shielded cx d.handles) ∧
      Sheltered cx store d := by
    refine Transition.exec_invariant (I := fun d => d.world.Inv ∧ d.Original cx ∧
      d.world.All (Shielded cx d.handles) ∧ Sheltered cx store d) ?_ ?_ hm hr
    · intro s c t ⟨hi, horigin, hshield, hshelter⟩ hg ht
      obtain ⟨ret, hc⟩ := Daemon.step_cases ht
      exact ⟨hc.inv hi, hc.original hi horigin, hc.shielded hi horigin hshield hg,
        hc.sheltered hi hshield hg hshelter⟩
    · refine ⟨Daemon.init_inv hw, ⟨fun h hh => (by cases hh), fun a pe ha => (by cases ha)⟩,
        fun a pe ha => (by cases ha), ?_⟩
      intro q o _ hlook
      have hstart : store.lookup q = some o := hlook
      exact ⟨o.userMeta, by rw [hstart]; rfl⟩
  obtain ⟨md, hmd⟩ := hall.2.2.2 q o hq ho
  obtain ⟨ob, hob, rfl⟩ := Option.map_eq_some_iff.mp hmd
  exact ⟨ob, hob, rfl⟩

end Excluded

theorem excluded_names_sample :
    ∃ d, Transition.exec (Daemon.step oneExcluded)
        (Sample.daemon [(['/', 'x'], Sample.file [1])]) writeBoth = .ok d ∧
      d.world.store.lookup ['/', 'x'] = some (Sample.file [1]) ∧
      ∃ ob, (Sample.store [(['/', 'x'], Sample.file [1])]).lookup ['/', 'x'] = some ob ∧
        Sample.file [1] = { ob with userMeta := (Sample.file [1]).userMeta } := by
  have hm : Transition.Meets (Daemon.step oneExcluded) (KeepsOut oneExcluded)
      (.init (Sample.store [(['/', 'x'], Sample.file [1])]) Sample.fs Sample.ring) writeBoth := by
    refine ⟨⟨trivial, trivial⟩, ⟨trivial, ?_⟩, ⟨trivial, trivial⟩, ⟨trivial, trivial⟩,
      ⟨trivial, ?_⟩, ⟨trivial, trivial⟩, trivial⟩
    · intro q hq
      exact hq.elim
    · intro q hq
      exact hq.elim
  refine ⟨_, rfl, rfl, ?_⟩
  exact excluded_names_stay_local oneExcluded _ _ _ Sample.fs_wf writeBoth _ hm rfl ['/', 'x']
    (Sample.file [1]) rfl rfl

end DropletFs
