import DropletFs.Durable.Steps
import DropletFs.Release.Undo
import DropletFs.Remote.Calls
import DropletFs.Rename.Frame
import DropletFs.Table.Stat

/-! What each callback does to the entries of the table and to the objects they name, stated
once for every property of an entry. -/

namespace DropletFs

open CText LocalFs

/-- A property of an entry: its address, the object of its path, and its fields. -/
abbrev EntryProp := Addr → Option Obj → Entry → Prop

/-- Every entry has the property. -/
def World.All (s : World) (P : EntryProp) : Prop :=
  ∀ a pe, s.heap a = some pe → P a (s.store.lookup pe.path) pe

/-- What a callback may do in passing to entries of paths it was not called for. -/
structure Steady (P : EntryProp) : Prop where
  removed : ∀ {a o pe} name, P a o pe → P a o { pe with dirent := pe.dirent.erase name }
  atime : ∀ {a o pe} n, P a o pe → P a o { pe with atime := n }
  locked : ∀ {a o pe} l, pe.ondisk = .remote → P a o pe → P a o { pe with mdLocked := l }

/-- A name may go from the list of an entry. -/
def Removable (P : EntryProp) : Prop :=
  ∀ a o pe name, P a o pe → P a o { pe with dirent := pe.dirent.erase name }

theorem Steady.removable {P : EntryProp} (h : Steady P) : Removable P :=
  fun _ _ _ name hpe => h.removed name hpe

/-- The directory of a path, as `hash_fill_dirent` looks it up. -/
def parentDir (path : Path) : Option Path :=
  (beforeLastSlash path).map fun d => if d = [] then rootPath else d

/-- The entry of a path, or the one that would be added for it. -/
def World.entryOr (s : World) (env : Env) (path : Path) (type : TPathType) : Entry :=
  (s.entry path).getD (pentryNew env path type)

namespace World.All

variable {P : EntryProp} {s t : World} (h : s.All P)
include h

theorem of_eq (hh : t.heap = s.heap) (hst : t.store = s.store) : t.All P := by
  intro a pe ha
  rw [hst]
  exact h a pe (hh ▸ ha)

/-- The object of one path has changed, and no entry. -/
theorem changed {k : Path} (hh : t.heap = s.heap) (hc : Store.Changed k s.store t.store)
    (hk : ∀ a pe, s.heap a = some pe → pe.path = k → P a (s.store.lookup k) pe →
      P a (t.store.lookup k) pe) : t.All P := by
  intro a pe ha
  rw [hh] at ha
  have hold := h a pe ha
  by_cases hp : pe.path = k
  · rw [hp] at hold ⊢
    exact hk a pe ha hp hold
  · rw [hc.lookup hp]
    exact hold

/-- The object of one path has changed, and the path has no entry any more. -/
theorem removed {k : Path} (hc : Store.Changed k s.store t.store)
    (hh : ∀ a pe, t.heap a = some pe → s.heap a = some pe ∧ pe.path ≠ k) : t.All P := by
  intro a pe ha
  obtain ⟨hold, hne⟩ := hh a pe ha
  rw [hc.lookup hne]
  exact h a pe hold

theorem setEntry {a : Addr} {pe : Entry} (hpe : P a (s.store.lookup pe.path) pe) :
    (s.setEntry a pe).All P := by
  intro b qe hb
  by_cases he : b = a
  · rw [he, World.setEntry_heap_self, Option.some.injEq] at hb
    rw [← hb, he]
    exact hpe
  · rw [World.setEntry_heap_of_ne he] at hb
    exact h b qe hb

theorem insertEntry {path : Path} {pe : Entry} (hpe : P s.brk (s.store.lookup pe.path) pe) :
    (s.insertEntry path pe).All P := by
  intro b qe hb
  by_cases he : b = s.brk
  · simp only [World.insertEntry, he, Function.update_self, Option.some.injEq] at hb
    rw [← hb, he]
    exact hpe
  · simp only [World.insertEntry, Function.update_of_ne he] at hb
    exact h b qe hb

theorem hashRemove (path : Path) : (s.hashRemove path).All P := by
  intro b qe hb
  rw [World.hashRemove_heap] at hb
  split_ifs at hb
  rw [World.hashRemove_store]
  exact h b qe hb

theorem onEntry {f : Entry → Entry} {path : Path} (hp : ∀ pe, (f pe).path = pe.path)
    (hf : ∀ a pe, s.heap a = some pe → s.hash path = some a →
      P a (s.store.lookup pe.path) pe → P a (s.store.lookup pe.path) (f pe)) :
    (s.onEntry path f).All P := by
  unfold World.onEntry
  cases hh : s.hash path with
  | none => exact h
  | some a =>
    dsimp only
    cases ha : s.heap a with
    | none => exact h
    | some pe =>
      apply h.setEntry
      rw [hp]
      exact hf a pe ha hh (h a pe ha)

theorem removeDirent (hP : Removable P) (path name : Path) :
    (s.onEntry path fun dir => pentryRemoveDirent dir name).All P := by
  apply h.onEntry
  · exact fun pe => (pentryRemoveDirent_fields pe name).1
  · intro a pe _ _ hpe
    unfold pentryRemoveDirent
    split_ifs
    · exact hP _ _ _ _ hpe
    · exact hpe

theorem looked {env : Env} {type : TPathType} {path : Path} {a : Addr}
    (hl : Looked env type s path a t)
    (hnew : s.hash path = none → P s.brk (s.store.lookup path) (pentryNew env path type)) :
    t.All P := by
  rcases hl.cases with rfl | ⟨hn, _, rfl⟩
  · exact h
  · exact h.insertEntry (hnew hn)

/-- The entry that was looked up has changed, whatever it was. -/
theorem lookedSet {env : Env} {type : TPathType} {path : Path} {a : Addr}
    (hl : Looked env type s path a t) {pe : Entry} (hp : pe.path = path)
    (hpe : P a (s.store.lookup path) pe) : (t.setEntry a pe).All P := by
  intro b qe hb
  change P b (t.store.lookup qe.path) qe
  rw [hl.store]
  by_cases he : b = a
  · rw [he, World.setEntry_heap_self, Option.some.injEq] at hb
    rw [← hb, he, hp]
    exact hpe
  · rw [World.setEntry_heap_of_ne he, hl.heap_of_ne he] at hb
    exact h b qe hb

end World.All

theorem World.entryOr_new {s : World} {path : Path} (h : s.hash path = none) (env : Env)
    (type : TPathType) : s.entryOr env path type = pentryNew env path type := by
  rw [World.entryOr, World.entry, h]
  rfl

theorem Looked.entryOr {env : Env} {type : TPathType} {s u : World} {path : Path} {a : Addr}
    {pe : Entry} (hl : Looked env type s path a u) (ha : u.heap a = some pe) :
    pe = s.entryOr env path type := by
  rcases hl.cases with rfl | ⟨hn, rfl, rfl⟩
  · have he := hl.hash
    rw [World.entryOr, World.entry, he, Option.bind_some, ha]
    rfl
  · simp only [World.insertEntry, Function.update_self, Option.some.injEq] at ha
    rw [World.entryOr, World.entry, hn, ← ha]
    rfl

/-- A path whose status is known was in the table before. -/
theorem Looked.same {env : Env} {type : TPathType} {s u : World} {path : Path} {a : Addr}
    {pe : Entry} (hl : Looked env type s path a u) (ha : u.heap a = some pe)
    (ho : pe.ondisk ≠ .unset) : u = s := by
  rcases hl.cases with rfl | ⟨_, rfl, rfl⟩
  · rfl
  · simp only [World.insertEntry, Function.update_self, Option.some.injEq] at ha
    rw [← ha] at ho
    exact (ho rfl).elim

theorem Looked.heap_old {env : Env} {type : TPathType} {s u : World} {path : Path} {a : Addr}
    {pe : Entry} (hl : Looked env type s path a u) (ha : u.heap a = some pe)
    (ho : pe.ondisk ≠ .unset) : s.heap a = some pe := by
  rwa [← hl.same ha ho]

theorem World.Inv.entry_of_heap {s : World} (hi : s.Inv) {a : Addr} {pe : Entry}
    (ha : s.heap a = some pe) :
    s.entry pe.path = some pe := by
  rw [World.entry, hi.linked a pe ha, Option.bind_some, ha]

theorem World.Inv.entryOr_path {s : World} (hi : s.Inv) (env : Env) (path : Path)
    (type : TPathType) : (s.entryOr env path type).path = path := by
  unfold World.entryOr World.entry
  cases hh : s.hash path with
  | none => rfl
  | some a =>
    obtain ⟨pe, ha, hp⟩ := hi.entry path a hh
    rw [Option.bind_some, ha]
    exact hp

/-- A stat adds an entry for the path and does not reach the object. -/
structure World.LeavesRaw (s : World) (env : Env) (path : Path) : Prop where
  new : s.hash path = none
  added : lookupOrPopulate env s path (env.rawType path) ≠ none
  missed : ¬∃ o, Stated env s.store path o

section Callbacks

variable {cx : Ctx} {env : Env} {s t : World} {P : EntryProp} {path : Path} {ret : Int}

/-- A stat up to the point where its path may go to a directory's list. What is in the memory of
a new entry stays there only where the object is not reached. -/
theorem dfsGetattr_filled {st : Stat} (hP : Steady P) (hi : s.Inv) (hs : s.All P)
    (hnew : s.LeavesRaw env path →
      P s.brk (s.store.lookup path) (pentryNew env path (env.rawType path)))
    (hstat : ∀ a o dict, path ≠ rootPath → Stated env s.store path o →
      (s.entryOr env path (env.rawType path)).ondisk = .unset →
      s.hash path = none ∧ a = s.brk ∨
        P a (some o) (s.entryOr env path (env.rawType path)) →
      P a (some o) { s.entryOr env path (env.rawType path) with
        usermd := keptUsermd env dict, filetype := .reg, ondisk := .remote, mdLocked := false })
    (h : dfsGetattr env s path = .ok (ret, st, t)) :
    ∃ w : World, w.Inv ∧ s.Keeps w ∧ w.All P ∧ (t = w ∨ path ≠ rootPath ∧
      (∃ o, Stated env s.store path o) ∧
      (s.entryOr env path (env.rawType path)).ondisk = .unset ∧
      (w.entry path).map (·.ondisk) = some .remote ∧ t = hashFillDirent w path) := by
  cases dfsGetattr_cases h with
  | root => exact ⟨s, hi, .refl s, hs, .inl rfl⟩
  | noEntry => exact ⟨s, hi, .refl s, hs, .inl rfl⟩
  | remote _ hl ha ho hg =>
    obtain ⟨hti, hk⟩ := dfsGetattr_inv hi h
    have hlook := lookupOrPopulate_spec hi hl
    obtain rfl := hlook.same ha (by rw [ho]; decide)
    obtain ⟨l, hq⟩ := getattrRemote_spec hg
    refine ⟨_, hti, hk, ?_, .inl rfl⟩
    apply hs.setEntry
    rw [hq]
    exact hP.atime _ (hP.locked l ho (hs _ _ ha))
  | loc _ hl ha ho _ =>
    obtain ⟨hti, hk⟩ := dfsGetattr_inv hi h
    have hlook := lookupOrPopulate_spec hi hl
    obtain rfl := hlook.same ha (by rw [ho]; decide)
    refine ⟨_, hti, hk, ?_, .inl rfl⟩
    apply hs.setEntry
    exact hP.atime _ (hs _ _ ha)
  | unset hr hl ha ho hg =>
    rename_i a u pe pe' fill
    have hlook := lookupOrPopulate_spec hi hl
    obtain ⟨qe, hq, hpath⟩ := hlook.heap
    obtain rfl : pe = qe := Option.some.inj (ha.symm.trans hq)
    obtain rfl := hlook.entryOr ha
    rcases getattrUnset_spec hg with ⟨hret, rfl⟩ | ⟨rfl, o, type, dict, hobj, _, rfl⟩
    · -- the entry has stayed as it was, and its path goes nowhere
      have hstop : ¬∃ o, Stated env s.store path o := by
        intro ⟨o, ho'⟩
        rw [← hlook.store] at ho'
        exact hret (getattrUnset_returns ho' hr hg)
      have hfill : fill = false := by
        cases fill with
        | false => rfl
        | true =>
          have hdone := getattrUnset_done hr (.inr rfl) hg
          rw [hlook.store] at hdone
          exact (hstop hdone).elim
      have hu := hs.looked hlook fun hn => hnew ⟨hn, by rw [hl]; simp, hstop⟩
      obtain ⟨h1, h2⟩ := hlook.inv.setEntry_keeps ha
        { s.entryOr env path (env.rawType path) with atime := env.now } rfl rfl rfl (.inl rfl)
      refine ⟨_, h1, hlook.keeps.trans h2, ?_, .inl (by rw [hfill]; rfl)⟩
      exact hu.setEntry (hP.atime _ (hu a _ ha))
    · obtain ⟨o', ho'⟩ := getattrUnset_done hr (.inl rfl) hg
      obtain rfl : o' = o := Option.some.inj (ho'.object.symm.trans hobj)
      rw [hlook.store] at hobj ho'
      obtain ⟨h1, h2⟩ := hlook.inv.setEntry_keeps ha
        { s.entryOr env path (env.rawType path) with
          usermd := keptUsermd env dict, filetype := .reg, ondisk := .remote, mdLocked := false,
          atime := env.now } rfl rfl rfl (.inr ⟨ho, rfl⟩)
      refine ⟨_, h1, hlook.keeps.trans h2, hs.lookedSet hlook (by exact hpath) ?_, ?_⟩
      · rw [hobj]
        refine hP.atime _ (hstat a o' dict hr ho' ho ?_)
        rcases hlook.cases with rfl | ⟨hn, rfl, _⟩
        · have hpe := hs a _ ha
          rw [hpath, hobj] at hpe
          exact .inr hpe
        · exact .inl ⟨hn, rfl⟩
      · cases fill with
        | false => exact .inl rfl
        | true =>
          refine .inr ⟨hr, ⟨o', ho'⟩, ho, ?_, rfl⟩
          rw [World.entry, World.setEntry_hash, hlook.hash, Option.bind_some,
            World.setEntry_heap_self]
          rfl

theorem dfsGetattr_leaves {st : Stat} (hP : Steady P) (hi : s.Inv) (hs : s.All P)
    (hnew : s.LeavesRaw env path →
      P s.brk (s.store.lookup path) (pentryNew env path (env.rawType path)))
    (hstat : ∀ a o dict, path ≠ rootPath → Stated env s.store path o →
      (s.entryOr env path (env.rawType path)).ondisk = .unset →
      s.hash path = none ∧ a = s.brk ∨
        P a (some o) (s.entryOr env path (env.rawType path)) →
      P a (some o) { s.entryOr env path (env.rawType path) with
        usermd := keptUsermd env dict, filetype := .reg, ondisk := .remote, mdLocked := false })
    (hfill : ∀ a o pe, parentDir path = some pe.path → P a o pe →
      P a o (pentryAddDirent pe path))
    (h : dfsGetattr env s path = .ok (ret, st, t)) : t.All P := by
  obtain ⟨w, hiw, _, hw, rfl | ⟨_, _, _, _, rfl⟩⟩ := dfsGetattr_filled hP hi hs hnew hstat h
  · exact hw
  · unfold hashFillDirent
    cases hd : beforeLastSlash path with
    | none => exact hw
    | some d =>
      apply hw.onEntry (f := fun dir => pentryAddDirent dir path) (fun _ => rfl)
      intro b qe hb hh hqe
      apply hfill b _ qe ?_ hqe
      obtain ⟨re, hre, hpath⟩ := hiw.entry _ b hh
      obtain rfl : qe = re := Option.some.inj (hb.symm.trans hre)
      rw [parentDir, hd, hpath]
      rfl

/-- The same for a property that every new entry has. -/
theorem dfsGetattr_all {st : Stat} (hP : Steady P) (hi : s.Inv) (hs : s.All P)
    (hnew : s.hash path = none →
      P s.brk (s.store.lookup path) (pentryNew env path (env.rawType path)))
    (hstat : ∀ a o dict, path ≠ rootPath → Stated env s.store path o →
      (s.entryOr env path (env.rawType path)).ondisk = .unset →
      P a (some o) (s.entryOr env path (env.rawType path)) →
      P a (some o) { s.entryOr env path (env.rawType path) with
        usermd := keptUsermd env dict, filetype := .reg, ondisk := .remote, mdLocked := false })
    (hfill : ∀ a o pe, parentDir path = some pe.path → P a o pe →
      P a o (pentryAddDirent pe path))
    (h : dfsGetattr env s path = .ok (ret, st, t)) : t.All P := by
  refine dfsGetattr_leaves hP hi hs (fun hraw => hnew hraw.new) ?_ hfill h
  intro a o dict hr hst ho hold
  apply hstat a o dict hr hst ho
  rcases hold with ⟨hn, rfl⟩ | hpe
  · have hp := hnew hn
    rw [hst.object] at hp
    rwa [World.entryOr_new hn]
  · exact hpe

theorem dfsOpen_all {flags : OpenFlags} {fh : Option Addr} (hi : s.Inv) (hs : s.All P)
    (hnew : s.hash path = none → P s.brk (s.store.lookup path) (pentryNew env path .reg))
    (hopen : ∀ a qe fs,
      openMode cx env s.store s.fs path (pentryIncRefcount (s.entryOr env path .reg))
        (getModeFromFlags flags) = .ok (ret, qe, fs) →
      P a (s.store.lookup path) (s.entryOr env path .reg) →
      P a (s.store.lookup path) (if ret = -1 then qe else { qe with ondisk := .loc }))
    (h : dfsOpen cx env s path flags = .ok (ret, fh, t)) : t.All P ∧ t.store = s.store := by
  rcases dfsOpen_cases hi h with ⟨_, _, rfl⟩ | ⟨a, u, pe, qe, fs, hl, ha, rfl, ho, rfl⟩
  · exact ⟨hs, rfl⟩
  · refine ⟨?_, hl.store⟩
    have hu := hs.looked hl hnew
    have hpe := hu a pe ha
    have hpath : pe.path = path := by
      obtain ⟨re, hre, hp⟩ := hl.heap
      rw [ha, Option.some.injEq] at hre
      rw [hre, hp]
    obtain rfl := hl.entryOr ha
    have hqp : qe.path = path := (openMode_spec hi.wf ho).update.path.trans hpath
    rw [hl.store, hpath] at hpe
    have hq := hopen a qe fs ho hpe
    have hset : (u.setEntry a (if ret = -1 then qe else { qe with ondisk := .loc })).All P := by
      apply hu.setEntry
      have hp : (if ret = -1 then qe else { qe with ondisk := .loc }).path = path := by
        split_ifs
        · exact hqp
        · exact hqp
      rw [hp, hl.store]
      exact hq
    exact hset.of_eq rfl rfl

/-- `dfs_create` returns before it opens. -/
def World.CreateStops (cx : Ctx) (s : World) (env : Env) (path : Path) (mode : Nat) : Prop :=
  sIsreg mode = false ∨
  cx.conf.regex path = false ∧ (dplNamei env s.store path).1 ≠ .success ∧
    (dplNamei env s.store path).1 ≠ .enoent ∨
  lookupOrPopulate env s path .reg = none

theorem dfsCreate_stops {mode : Nat} {flags : OpenFlags} {fh : Option Addr}
    (hg : s.CreateStops cx env path mode)
    (h : dfsCreate cx env s path mode flags = .ok (ret, fh, t)) : t = s := by
  have hstop : Except.ok (-1, none, s) = Except.ok (ε := Fault) (ret, fh, t) → t = s := by
    intro he
    simp only [Except.ok.injEq, Prod.mk.injEq] at he
    exact he.2.2.symm
  rcases hg with hreg | ⟨hx, hn⟩ | hl
  · simp only [dfsCreate, hreg, Bool.not_false, if_true] at h
    exact hstop h
  · by_cases hreg : sIsreg mode = true
    · simp only [dfsCreate, hreg, hx, Bool.not_true, Bool.false_eq_true, if_false, if_pos hn] at h
      exact hstop h
    · simp only [dfsCreate, hreg, Bool.not_false, if_true] at h
      exact hstop h
  · rcases dfsCreate_cases h with ⟨_, _, rfl⟩ | ⟨r, u, ho, hcase⟩
    · rfl
    · simp only [dfsOpen, hl, Except.ok.injEq, Prod.mk.injEq] at ho
      obtain ⟨rfl, rfl, rfl⟩ := ho
      rcases hcase with ⟨_, rfl, _⟩ | ⟨hr, _⟩
      · rfl
      · exact (hr rfl).elim

/-- Of the entry that was opened, `dfs_create` leaves what `createOpened` makes of it. -/
theorem dfsCreate_all {mode : Nat} {flags : OpenFlags} {fh : Option Addr} (hi : s.Inv)
    (hs : s.All P)
    (hnew : s.hash path = none → P s.brk (s.store.lookup path) (pentryNew env path .reg))
    (hfail : ∀ a qe fs,
      openMode cx env s.store s.fs path (pentryIncRefcount (s.entryOr env path .reg))
        (getModeFromFlags flags) = .ok (-1, qe, fs) →
      P a (s.store.lookup path) (s.entryOr env path .reg) → P a (s.store.lookup path) qe)
    (hcreate : ∀ a r qe fs pe' fs' st, r ≠ -1 →
      openMode cx env s.store s.fs path (pentryIncRefcount (s.entryOr env path .reg))
        (getModeFromFlags flags) = .ok (r, qe, fs) →
      createOpened env s.store fs path mode (cx.conf.regex path) { qe with ondisk := .loc } =
        .ok (ret, pe', fs', st) →
      P a (s.store.lookup path) (s.entryOr env path .reg) → P a (st.lookup path) pe')
    (h : dfsCreate cx env s path mode flags = .ok (ret, fh, t)) : t.All P := by
  rcases dfsCreate_cases h with ⟨_, _, rfl⟩ | ⟨r, u, ho, hcase⟩
  · exact hs
  by_cases hr : r = -1
  · subst hr
    have hu : u.All P := by
      refine (dfsOpen_all hi hs hnew (fun a qe fs hm hp => ?_) ho).1
      rw [if_pos rfl]
      exact hfail a qe fs hm hp
    rcases hcase with ⟨_, rfl, _⟩ | ⟨hr, _⟩
    · exact hu
    · exact (hr rfl).elim
  rcases dfsOpen_cases hi ho with ⟨hm1, _⟩ | ⟨a, w, pe, qe, fs, hl, ha, rfl, hm, rfl⟩
  · exact (hr hm1).elim
  obtain ⟨qe₀, hq₀, hpath⟩ := hl.heap
  obtain rfl : pe = qe₀ := Option.some.inj (ha.symm.trans hq₀)
  obtain rfl := hl.entryOr ha
  have hu := hs.looked hl hnew
  have hpe := hu a _ ha
  rw [hl.store, hpath] at hpe
  rcases hcase with ⟨_, _, hstop⟩ | ⟨_, b, pe₁, pe', fs', st, hb, hpe₁, hc, rfl⟩
  · rcases hstop with hm1 | hnone
    · exact (hr hm1).elim
    · cases hnone
  obtain rfl : a = b := Option.some.inj hb
  rw [if_neg hr] at hpe₁ hc
  obtain rfl : { qe with ondisk := .loc } = pe₁ :=
    Option.some.inj ((World.setEntry_heap_self w a _).symm.trans hpe₁)
  change createOpened env w.store fs path mode (cx.conf.regex path) _ = _ at hc
  rw [hl.store] at hc
  have hopen := openMode_spec hi.wf hm
  obtain ⟨md, l, hq, _⟩ := createOpened_spec hopen.update.wf hc
  have hpath' : pe'.path = path := by
    rw [hq]
    exact hopen.update.path.trans hpath
  have hchanged : Store.Changed path s.store st := by
    rcases (createOpened_effect hc).2.1 with rfl | ⟨_, rfl⟩
    · exact .inl rfl
    · exact .inr (.inr ⟨_, rfl⟩)
  intro c re hre
  change P c (st.lookup re.path) re
  by_cases he : c = a
  · subst he
    obtain rfl : pe' = re := by
      change (World.setEntry _ c pe').heap c = some re at hre
      rwa [World.setEntry_heap_self, Option.some.injEq] at hre
    rw [hpath']
    exact hcreate c r qe fs pe' fs' st hr hm hc hpe
  · have hold : w.heap c = some re := by
      change (World.setEntry _ a pe').heap c = some re at hre
      rw [World.setEntry_heap_of_ne he] at hre
      change (World.setEntry w a _).heap c = some re at hre
      rwa [World.setEntry_heap_of_ne he] at hre
    have hne : re.path ≠ path := by
      intro hp
      have hc' := hl.inv.linked c re hold
      rw [hp, hl.hash, Option.some.injEq] at hc'
      exact he hc'.symm
    have hP := hu c re hold
    rw [hl.store] at hP
    rw [hchanged.lookup hne]
    exact hP

theorem setAttributes_all {upd : Dict → Dict} {change : LocalFs → Nat → LocalFs}
    {call : SysCall} (hi : s.Inv) (hs : s.All P)
    (hattr : ∀ a pe md o', s.heap a = some pe → pe.path = path →
      (o' = s.store.lookup path ∨
        ∃ o, s.store.lookup path = some o ∧ o' = some { o with userMeta := md }) →
      P a (s.store.lookup path) pe → P a o' { pe with usermd := some md, mdLocked := false })
    (h : setAttributes env s path upd change call = .ok (ret, t)) : t.All P := by
  rcases setAttributes_cases h with rfl | ⟨a, pe, md, fs, st, hh, ha, _, hst, rfl⟩
  · exact hs
  have hpath : pe.path = path := by
    obtain ⟨qe, hq, hp⟩ := hi.entry path a hh
    rw [ha, Option.some.injEq] at hq
    rw [hq, hp]
  have hobj : Store.Changed path s.store st ∧ (st.lookup path = s.store.lookup path ∨
      ∃ o, s.store.lookup path = some o ∧ st.lookup path = some { o with userMeta := md }) := by
    rcases hst with rfl | rfl
    · exact ⟨.inl rfl, .inl rfl⟩
    · unfold dplSetattr
      split
      · cases ho : s.store.lookup path with
        | none => exact ⟨.inl rfl, .inl ho⟩
        | some o => exact ⟨.inr (.inr ⟨_, rfl⟩), .inr ⟨o, rfl, AList.lookup_insert _⟩⟩
      · exact ⟨.inl rfl, .inl rfl⟩
  intro b qe hb
  change (s.setEntry a _).heap b = some qe at hb
  change P b (st.lookup qe.path) qe
  by_cases he : b = a
  · rw [he, World.setEntry_heap_self, Option.some.injEq] at hb
    rw [← hb, he]
    change P a (st.lookup pe.path) _
    have hpe := hs a pe ha
    have hst : st.lookup pe.path = st.lookup path := by rw [hpath]
    rw [hpath] at hpe
    rw [hst]
    exact hattr a pe md _ ha hpath hobj.2 hpe
  · rw [World.setEntry_heap_of_ne he] at hb
    have hne : qe.path ≠ path := by
      intro hp
      have h1 := hi.linked b qe hb
      rw [hp, hh, Option.some.injEq] at h1
      exact he h1.symm
    rw [hobj.1.lookup hne]
    exact hs b qe hb

theorem releaseEntry_changed {st st' : Store} {fs fs' : LocalFs} {flags : OpenFlags}
    {pe pe' : Entry} (h : releaseEntry cx env st fs path flags pe = .ok (ret, pe', fs', st')) :
    Store.Changed path st st' ∧
    (st' = st ∨ ∃ o : Obj, o.ftype = .reg ∧ st'.lookup path = some o) := by
  rcases (releaseEntry_puts h).1 with rfl | ⟨o, ho, rfl⟩
  · exact ⟨.inl rfl, .inl rfl⟩
  · exact ⟨.inr (.inr ⟨o, rfl⟩), .inr ⟨o, ho, AList.lookup_insert _⟩⟩

/-- A release changes the entry behind the handle and puts at most a regular object under the
handle's path. -/
theorem dfsRelease_all {flags : OpenFlags} {fh : Addr} (hi : s.Inv) (hs : s.All P)
    (hrel : ∀ pe pe' fs st, s.heap fh = some pe →
      releaseEntry cx env s.store s.fs path flags pe = .ok (ret, pe', fs, st) →
      P fh (s.store.lookup pe.path) pe → P fh (s.store.lookup pe.path) pe')
    (hput : ∀ a pe o, pe.path = path → o.ftype = .reg →
      P a (s.store.lookup path) pe → P a (some o) pe)
    (h : dfsRelease cx env s path flags fh = .ok (ret, t)) : t.All P := by
  obtain ⟨pe, pe', fs, st, ha, hr, rfl⟩ := dfsRelease_cases h
  have hpath := (releaseEntry_spec hi.wf hr).update.path
  have hset : (s.setEntry fh pe').All P := by
    apply hs.setEntry
    rw [hpath]
    exact hrel pe pe' fs st ha hr (hs fh pe ha)
  obtain ⟨hc, ho⟩ := releaseEntry_changed hr
  have hchanged : Store.Changed path (s.setEntry fh pe').store
      ({ s.setEntry fh pe' with fs := fs, store := st } : World).store := hc
  refine hset.changed rfl hchanged ?_
  intro b qe _ hp hq
  change P b (st.lookup path) qe
  rcases ho with rfl | ⟨o, hreg, ho⟩
  · exact hq
  · rw [ho]
    exact hput b qe o hp hreg hq

/-- Other strings stay when the name of a cache file is printed. -/
theorem World.withoutCacheFile_text {p : Str} {q : Path} (h : .tmp s.ring.next ≠ p) :
    (s.withoutCacheFile cx env q).text p = s.text p := by
  cases p with
  | ext text => rfl
  | tmp slot =>
    have hroom : s.ring.room slot ≠ 0 := by
      intro h0
      exact h (congrArg Str.tmp (RingBuffer.room_eq_zero.mp h0).symm)
    exact RingBuffer.push_slots_of_room hroom _

theorem dfsUnlink_all {p : Str} (hP : Removable P) (hi : s.Inv) (hs : s.All P)
    (h : dfsUnlink cx env s p = .ok (ret, t)) : t.All P := by
  rcases dfsUnlink_cases h with ⟨_, hno, rfl⟩ | ⟨store, u, hst, hne, hu, hcase⟩
  · refine hs.of_eq ?_ ?_
    · rfl
    rcases dplUnlink_cases env s.store (s.text p) with ⟨_, hsame⟩ | ⟨_, _, _, hok⟩
    · exact hsame
    · rw [hok] at hno
      exact (hno rfl).elim
  have hchanged : Store.Changed (s.text p) s.store store := by
    have hc := Store.changed_unlink env s.store (s.text p)
    rwa [hst] at hc
  have htext : u.text p = s.text p := by
    rw [hu]
    exact World.withoutCacheFile_text hne
  have huh : u.hash = s.hash ∧ u.heap = s.heap ∧ u.store = store := by
    rw [hu]
    exact ⟨rfl, rfl, rfl⟩
  rw [htext] at hcase
  rcases hcase with ⟨_, hn, rfl⟩ | ⟨_, he⟩
  · apply hs.removed (huh.2.2 ▸ hchanged)
    intro a pe ha
    rw [huh.2.1] at ha
    refine ⟨ha, fun hp => ?_⟩
    have hl := hi.linked a pe ha
    rw [hp, hn] at hl
    cases hl
  · obtain ⟨_, freed, v, _, hv, ht⟩ := unlinkEntry_cases he
    have hv' : v.store = store ∧ v.heap = (u.hashRemove (s.text p)).heap := by
      rw [hv, htext]
      exact ⟨(World.hashRemove_store u _).trans huh.2.2, rfl⟩
    have hall : v.All P := by
      apply hs.removed (hv'.1 ▸ hchanged)
      intro a pe ha
      rw [hv'.2, World.hashRemove_heap] at ha
      split_ifs at ha with hhash
      rw [huh.2.1] at ha
      rw [huh.1] at hhash
      refine ⟨ha, fun hp => hhash ?_⟩
      rw [← hp]
      exact hi.linked a pe ha
    rcases ht with ⟨_, rfl⟩ | ⟨parent, _, rfl⟩
    · exact hall
    · exact hall.removeDirent hP _ _

theorem dfsMkdir_all (hi : s.Inv) (hs : s.All P)
    (hmk : ∀ a pe, pe.path = path → s.store.lookup path = none → P a none pe →
      P a (some (emptyObj .dir)) { pe with filetype := .dir })
    (hnew : s.hash path = none →
      P s.brk (some (emptyObj .dir)) (pentryNew env path .dir)) :
    (dfsMkdir env s path).2.All P := by
  unfold dfsMkdir
  split
  · rename_i st hst
    rcases dplMkdir_cases env s.store path with ⟨hno, _⟩ | ⟨_, _, ho, hok⟩
    · rw [hst] at hno
      exact (hno rfl).elim
    obtain rfl : s.store.insert path (emptyObj .dir) = st := by
      rw [hok] at hst
      exact congrArg Prod.snd hst
    have hget : (s.store.insert path (emptyObj .dir)).lookup path = some (emptyObj .dir) :=
      AList.lookup_insert _
    have hout : ∀ a pe, s.heap a = some pe → pe.path ≠ path →
        P a ((s.store.insert path (emptyObj .dir)).lookup pe.path) pe := by
      intro a pe ha hp
      rw [AList.lookup_insert_ne hp]
      exact hs a pe ha
    dsimp only
    split
    · rename_i a hh
      obtain ⟨pe, hpe, hpath⟩ := hi.entry path a hh
      have hhash : ({ s with store := s.store.insert path (emptyObj .dir) } : World).hash path =
          some a := hh
      have hheap : ({ s with store := s.store.insert path (emptyObj .dir) } : World).heap a =
          some pe := hpe
      rw [World.onEntry, hhash]
      dsimp only
      rw [hheap]
      intro b qe hb
      by_cases he : b = a
      · rw [he, World.setEntry_heap_self, Option.some.injEq] at hb
        rw [← hb, he]
        have hlook : ({ s with store := s.store.insert path (emptyObj .dir) } : World).store.lookup
            pe.path = some (emptyObj .dir) := by rw [hpath]; exact hget
        change P a (({ s with store := s.store.insert path (emptyObj .dir) } : World).store.lookup
          pe.path) _
        rw [hlook]
        apply hmk a pe hpath ho
        have hold := hs a pe hpe
        rwa [hpath, ho] at hold
      · rw [World.setEntry_heap_of_ne he] at hb
        apply hout b qe hb
        intro hp
        have hl := hi.linked b qe hb
        rw [hp, hh, Option.some.injEq] at hl
        exact he hl.symm
    · rename_i hn
      have hone : World.All { s with store := s.store.insert path (emptyObj .dir) } P := by
        intro a pe ha
        apply hout a pe ha
        intro hp
        have hl := hi.linked a pe ha
        rw [hp] at hl
        exact absurd (hl.symm.trans hn) (by simp)
      split
      · rename_i a u hp
        obtain ⟨_, rfl⟩ := populateHash_some hp
        apply hone.insertEntry
        change P s.brk ((s.store.insert path (emptyObj .dir)).lookup path) _
        rw [hget]
        exact hnew hn
      · exact hone
  · rename_i rc st hne hst
    refine hs.of_eq ?_ ?_
    · rfl
    rcases dplMkdir_cases env s.store path with ⟨_, hsame⟩ | ⟨_, _, _, hok⟩
    · rw [hst] at hsame
      exact hsame
    · rw [hst] at hok
      exact (hne (congrArg Prod.fst hok)).elim

/-- What puts a regular object under a path. -/
theorem World.All.put (hs : s.All P) (hh : t.heap = s.heap) (hp : Puts path s.store t.store)
    (hput : ∀ a pe o, pe.path = path → o.ftype ≠ .dir →
      P a (s.store.lookup path) pe → P a (some o) pe) : t.All P := by
  rcases hp with he | ⟨o, ho, he⟩
  · exact hs.of_eq hh he
  · have hc : Store.Changed path s.store t.store := .inr (.inr ⟨o, he⟩)
    refine hs.changed hh hc ?_
    intro a pe _ hpath hpe
    rw [he, AList.lookup_insert]
    exact hput a pe o hpath (by simp [ho]) hpe

theorem dfsMknod_puts (env : Env) (s : World) (path : Path) :
    Puts path s.store (dfsMknod env s path).2.store ∧ (dfsMknod env s path).2.heap = s.heap := by
  unfold dfsMknod
  rcases dplMknod_cases env s.store path with hok | ⟨hno, hsame⟩
  · rw [hok]
    exact ⟨.inr ⟨_, rfl, rfl⟩, rfl⟩
  · split
    · rename_i st hst
      rw [hst] at hno
      exact (hno rfl).elim
    · rename_i rc st _ hst
      rw [hst] at hsame
      exact ⟨.inl hsame, rfl⟩

/-- A link is a regular object whose metadata hold its text. -/
theorem dfsSymlink_puts {oldpath : Path} (h : dfsSymlink cx env s oldpath path = .ok (ret, t)) :
    Puts path s.store t.store ∧ t.heap = s.heap := by
  unfold dfsSymlink at h
  rcases dplMknod_cases env s.store path with hok | ⟨hno, hsame⟩
  · rw [hok] at h
    have hone : Puts path s.store (s.store.insert path (emptyObj .reg)) := .inr ⟨_, rfl, rfl⟩
    dsimp only at h
    by_cases hdict : (!env.lib .symlinkDict) = true
    · simp only [if_pos hdict, Except.ok.injEq, Prod.mk.injEq] at h
      rw [← h.2]
      exact ⟨hone, rfl⟩
    rw [if_neg hdict] at h
    obtain ⟨opath, _, h⟩ := Except.bind_ok.mp h
    split_ifs at h
    · simp only [Except.ok.injEq, Prod.mk.injEq] at h
      rw [← h.2]
      exact ⟨hone, rfl⟩
    · have hset : ∀ d, Puts path s.store
          (dplSetattr env (s.store.insert path (emptyObj .reg)) path d).2 := by
        intro d
        unfold dplSetattr
        split
        · rw [AList.lookup_insert]
          exact .inr ⟨_, rfl, AList.insert_insert ..⟩
        · exact hone
      split at h
      · rename_i st hst
        simp only [Except.ok.injEq, Prod.mk.injEq] at h
        have hp := hset ((Dict.empty.set .symlink opath).set .size (ulongText opath.length))
        rw [hst] at hp
        rw [← h.2]
        exact ⟨hp, rfl⟩
      · rename_i rc st _ hst
        simp only [Except.ok.injEq, Prod.mk.injEq] at h
        have hp := hset ((Dict.empty.set .symlink opath).set .size (ulongText opath.length))
        rw [hst] at hp
        rw [← h.2]
        exact ⟨hp, rfl⟩
  · split at h
    · rename_i st hst
      rw [hst] at hno
      exact (hno rfl).elim
    · rename_i rc st _ hst
      rw [hst] at hsame
      simp only [Except.ok.injEq, Prod.mk.injEq] at h
      rw [← h.2]
      exact ⟨.inl hsame, rfl⟩

theorem dfsRmdir_all {p : Str} (hP : Removable P) (hs : s.All P)
    (hrm : ∀ a pe o, pe.path = s.text p → s.store.ftype? (s.text p) = some .dir →
      (dplRmdir env s.store (s.text p)).1 = .success → s.heap a = some pe →
      s.store.lookup (s.text p) = some o → P a (some o) pe → P a none pe)
    (h : dfsRmdir cx env s p = .ok (ret, t)) : t.All P := by
  unfold dfsRmdir at h
  dsimp only at h
  split at h
  · rename_i st hst
    have hst' : dplRmdir env s.store (s.text p) = (.success, st) := hst
    obtain ⟨⟨q, u⟩, hq, h⟩ := Except.bind_ok.mp h
    obtain ⟨_, _, rfl⟩ := World.tmpstrPrintf_ok hq
    simp only [Except.ok.injEq, Prod.mk.injEq] at h
    rw [← h.2]
    apply World.All.removeDirent _ hP
    have hc := Store.changed_rmdir env s.store (s.text p)
    rw [hst'] at hc
    refine hs.changed rfl hc ?_
    intro a pe ha hpath hpe
    rcases dplRmdir_cases env s.store (s.text p) with ⟨hno, _⟩ | ⟨_, hroot, hdir, _, hok⟩
    · rw [hst'] at hno
      exact (hno rfl).elim
    obtain rfl : s.store.erase (s.text p) = st := by
      rw [hok] at hst'
      exact congrArg Prod.snd hst'
    have hgone : (s.store.erase (s.text p)).lookup (s.text p) = none := AList.lookup_erase _ _
    change P a ((s.store.erase (s.text p)).lookup (s.text p)) pe
    rw [hgone]
    rw [Store.ftype?_of_ne hroot] at hdir
    obtain ⟨o, ho, _⟩ := Option.map_eq_some_iff.mp hdir
    rw [ho] at hpe
    refine hrm a pe o hpath ?_ (by rw [hok]) ha ho hpe
    rw [Store.ftype?_of_ne hroot]
    exact hdir
  · rename_i rc st hne hst
    have hst' : dplRmdir env s.store (s.text p) = (rc, st) := hst
    simp only [Except.ok.injEq, Prod.mk.injEq] at h
    rw [← h.2]
    refine hs.of_eq ?_ ?_
    · rfl
    rcases dplRmdir_cases env s.store (s.text p) with ⟨_, hsame⟩ | ⟨_, _, _, _, hok⟩
    · rw [hst'] at hsame
      exact hsame
    · rw [hst'] at hok
      exact (hne (congrArg Prod.fst hok)).elim

theorem renameFile_all {p q : Str} (hP : Removable P) (hi : s.Inv) (hs : s.All P)
    (hput : ∀ a pe o, pe.path = s.text q → o.ftype ≠ .dir →
      P a (s.store.lookup (s.text q)) pe → P a (some o) pe)
    (h : renameFile cx env s p q = .ok (ret, t)) : t.All P := by
  rcases renameFile_cases h with ⟨_, hno, rfl⟩ | ⟨store, u, hst, hu, ht⟩
  · refine hs.of_eq ?_ ?_
    · rfl
    rcases dplFcopy_cases env s.store (s.text p) (s.text q) with
      ⟨_, hsame⟩ | ⟨_, _, _, o, _, _, hok⟩
    · exact hsame
    · rw [hok] at hno
      exact (hno rfl).elim
  · have hcopy : World.All { s with store := store } P := by
      rcases dplFcopy_cases env s.store (s.text p) (s.text q) with
        ⟨hno, _⟩ | ⟨_, _, _, o, _, hd, hok⟩
      · rw [hst] at hno
        exact (hno rfl).elim
      obtain rfl : s.store.insert (s.text q) o = store := by
        rw [hok] at hst
        exact congrArg Prod.snd hst
      refine hs.changed rfl (.inr (.inr ⟨o, rfl⟩)) ?_
      intro a pe _ hpath hpe
      change P a ((s.store.insert (s.text q) o).lookup (s.text q)) pe
      rw [AList.lookup_insert]
      exact hput a pe o hpath hd hpe
    have hiu : ({ s with store := store } : World).Inv := hi.congr rfl rfl rfl rfl
    rcases hu with rfl | ⟨dirname, _, rfl⟩
    · exact dfsUnlink_all hP hiu hcopy ht
    · exact dfsUnlink_all hP (onEntry_removeDirent_inv hiu _ _) (hcopy.removeDirent hP _ _) ht

theorem gcCallback_all (hs : s.All P) : (gcCallback cx env s path).All P := by
  rcases gcCallback_cases cx env s path with h | ⟨_, _, _, _, _, h⟩
  · rwa [h]
  · rw [h]
    apply World.All.hashRemove
    exact hs.of_eq rfl rfl

end Callbacks

end DropletFs
