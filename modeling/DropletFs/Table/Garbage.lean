import DropletFs.Release.Whole
import DropletFs.Rename.Handles
import DropletFs.Table.Filetype

/-! Which entries stay for good: the table against the store, the handles and the collector. -/

namespace DropletFs

open CText LocalFs

/-- All three times of the cache file are older than the threshold of the entry. -/
def Aged (cx : Ctx) (env : Env) (pe : Entry) : Prop :=
  let threshold := if pe.exclude then cx.conf.gcAgeThreshold * 10 else cx.conf.gcAgeThreshold
  env.times.1 + threshold ≤ env.now ∧ env.times.2.1 + threshold ≤ env.now ∧
    env.times.2.2 + threshold ≤ env.now

/-- A collector pass that finds the times older than the threshold takes the entry. -/
def World.Collected (cx : Ctx) (s : World) (path : Path) : Prop :=
  ∀ env, (∀ pe, s.entry path = some pe → Aged cx env pe) →
    (gcCallback cx env s path).entry path = none

/-- The entry of the path has a handle on it. -/
def Daemon.Held (d : Daemon) (path : Path) : Prop :=
  ∃ h ∈ d.handles, d.world.hash path = some h.addr

/-- Every entry is for an object or a handle, or falls to the collector. -/
def Daemon.NoGarbage (cx : Ctx) (d : Daemon) : Prop :=
  ∀ path, (d.world.entry path).isSome →
    d.world.store.ftype? path ≠ none ∨ d.Held path ∨ d.world.Collected cx path

/-- A stat that fails adds nothing to the table. -/
def FailsClean (d : Daemon) (c : Call) : Prop :=
  ∀ path, c.op = .getattr path → ∀ ret st t, dfsGetattr c.env d.world path = .ok (ret, st, t) →
    ret ≠ 0 → ∀ q, (t.hash q).isSome = (d.world.hash q).isSome

/-- What the collector asks of an entry, its age apart. -/
structure Entry.Collectable (pe : Entry) : Prop where
  refcount : pe.refcount = 0
  locked : pe.locked = false
  fd : pe.fd.isSome

/-- The release of a handle on the entry puts an object. -/
def Daemon.Sends (cx : Ctx) (env : Env) (d : Daemon) (h : Handle) (pe : Entry) : Prop :=
  ∃ fd, pe.fd = some fd ∧ h.flags.acc ≠ .rdonly ∧ pe.exclude = false ∧
    env.sys .fstatRelease = none ∧ ∀ stat, d.world.fs.fstat fd env.times = some stat →
      (releaseUpload cx env d.world.store d.world.fs h.path fd stat).1 = 0

/-- What is left of an entry when a handle on it goes. -/
def Daemon.ReleaseClean (cx : Ctx) (env : Env) (d : Daemon) (h : Handle) (pe : Entry) : Prop :=
  d.world.store.ftype? h.path ≠ none ∨ 1 < d.handlesOn h.addr ∨ d.Sends cx env h pe ∨
    pe.refcount = 1 ∧ pe.locked = false ∧ pe.fd.isSome ∧ env.sys .fstatRelease = none

/-- A directory whose object goes has no entry, or one that a handle or the collector takes
care of. -/
def Daemon.RenameClean (env : Env) (d : Daemon) (old new : Path) : Prop :=
  match (dplNamei env d.world.store old).2.getD (env.junk old) with
  | .dir => old ≠ new ∧ d.world.store.ftype? old ≠ some .dir ∨
      d.world.NamesLast old new ∧ ∀ q pe, d.world.entry q = some pe → Within old q →
        d.world.store.ftype? q = some .dir →
        d.Held q ∨ pe.Collectable ∨ env.remote (.rmdir q) ≠ .success
  | _ => True

/-- The step leaves no entry behind that is for nothing. -/
def LeavesClean (cx : Ctx) (d : Daemon) (c : Call) : Prop :=
  match c.op with
  | .getattr path => path = rootPath ∨ (d.world.hash path).isSome ∨
      lookupOrPopulate c.env d.world path (c.env.rawType path) = none ∨
      ¬StatStops c.env d.world.store path
  | .open path flags => lookupOrPopulate c.env d.world path .reg = none ∨
      d.world.OpenCompletes cx c.env path flags ∨ d.world.store.ftype? path ≠ none ∨ d.Held path
  | .create path mode flags => d.world.CreateBalanced cx c.env path mode flags ∨
      d.world.store.ftype? path ≠ none ∨ d.Held path
  | .release i => ∀ h pe, d.handles[i]? = some h → d.world.heap h.addr = some pe →
      d.ReleaseClean cx c.env h pe
  | .rmdir path => (dplRmdir c.env d.world.store path).1 = .success →
      ∀ pe, d.world.entry path = some pe → d.Held path ∨ pe.Collectable
  | .rename old new => d.RenameClean c.env old (renameTarget old new)
  | _ => True

/-- The entry is for an object, for one of `n` handles, or can be collected. -/
def Kept (n : Addr → Nat) : EntryProp := fun a o pe =>
  pe.path = rootPath ∨ o.isSome ∨ 0 < n a ∨ pe.Collectable

theorem Entry.Collectable.congr {pe pe' : Entry} (h : pe.Collectable)
    (hr : pe'.refcount = pe.refcount) (hl : pe'.locked = pe.locked)
    (hf : pe.fd.isSome → pe'.fd.isSome) : pe'.Collectable :=
  ⟨hr.trans h.refcount, hl.trans h.locked, hf h.fd⟩

theorem Kept.congr {n m : Addr → Nat} {a : Addr} {o o' : Option Obj} {pe pe' : Entry}
    (h : Kept n a o pe) (hp : pe'.path = pe.path) (ho : o.isSome → o'.isSome)
    (hn : n a ≤ m a) (hc : pe.Collectable → pe'.Collectable) : Kept m a o' pe' := by
  rcases h with h | h | h | h
  · exact .inl (hp.trans h)
  · exact .inr (.inl (ho h))
  · exact .inr (.inr (.inl (Nat.lt_of_lt_of_le h hn)))
  · exact .inr (.inr (.inr (hc h)))

theorem Kept.steady (n : Addr → Nat) : Steady (Kept n) where
  removed _ h := h.congr rfl id le_rfl fun hc => hc.congr rfl rfl id
  atime _ h := h.congr rfl id le_rfl fun hc => hc.congr rfl rfl id
  locked _ _ h := h.congr rfl id le_rfl fun hc => hc.congr rfl rfl id

/-- The collector takes an entry that is not in use and is old enough. -/
theorem World.Collected.of_collectable {cx : Ctx} {s : World} {path : Path} {pe : Entry}
    (he : s.entry path = some pe) (hc : pe.Collectable) : s.Collected cx path := by
  intro env hage
  obtain ⟨hnow₁, hnow₂, hnow₃⟩ := hage pe he
  have hrem : gcRemoves cx env s.fs pe = true := by
    obtain ⟨fd, hfd⟩ := Option.isSome_iff_exists.mp hc.fd
    unfold gcRemoves
    rw [hfd]
    dsimp only
    split
    · rename_i st _ hst
      obtain ⟨i, _, rfl⟩ := Option.map_eq_some_iff.mp hst
      simp only [gcKeeps, Bool.not_eq_true', Bool.and_eq_false_iff, decide_eq_false_iff_not,
        not_lt]
      exact .inl (.inl hnow₁)
    · rfl
  unfold gcCallback
  rw [he]
  dsimp only
  rw [if_neg (by simp [hc.refcount]), hc.locked, if_neg (by decide), if_pos hrem]
  simp [gcRemove, World.entry, World.hashRemove_hash]

section Steps

variable {cx : Ctx} {env : Env} {d : Daemon} {s t : World} {n : Addr → Nat} {path : Path}
  {ret : Int}

/-- A stat of a path without an entry is a first stat. -/
theorem dfsGetattr_first {st : Stat} (hi : s.Inv) (hn : s.hash path = none)
    (h : dfsGetattr env s path = .ok (ret, st, t)) :
    t = s ∨ path ≠ rootPath ∧ lookupOrPopulate env s path (env.rawType path) ≠ none ∧
      ∃ pe fill, getattrUnset env s.store (pentryNew env path (env.rawType path)) path
          { Stat.zero with nlink := 1 } =
        .ok (ret, st, pe, fill) := by
  have hfresh : ∀ {a : Addr} {u : World} {pe : Entry},
      lookupOrPopulate env s path (env.rawType path) = some (a, u) → u.heap a = some pe →
      pe = pentryNew env path (env.rawType path) := by
    intro a u pe hl ha
    rw [(lookupOrPopulate_spec hi hl).entryOr ha]
    simp [World.entryOr, World.entry, hn]
  cases dfsGetattr_cases h with
  | root => exact .inl rfl
  | noEntry => exact .inl rfl
  | remote _ hl ha ho =>
    rw [hfresh hl ha] at ho
    cases ho
  | loc _ hl ha ho =>
    rw [hfresh hl ha] at ho
    cases ho
  | unset hroot hl ha _ hu =>
    rw [hfresh hl ha, (lookupOrPopulate_spec hi hl).store] at hu
    exact .inr ⟨hroot, by simp [hl], _, _, hu⟩

theorem hashFillDirent_hash (s : World) (path : Path) :
    (hashFillDirent s path).hash = s.hash := by
  unfold hashFillDirent
  cases beforeLastSlash path with
  | none => rfl
  | some d =>
    exact (World.onEntry_rest _ _ _).2.1

/-- A stat of a path that has an entry. -/
theorem dfsGetattr_hash {st : Stat} (hs : (s.hash path).isSome)
    (h : dfsGetattr env s path = .ok (ret, st, t)) : t.hash = s.hash := by
  have hsame : ∀ {a : Addr} {u : World},
      lookupOrPopulate env s path (env.rawType path) = some (a, u) → u = s := by
    intro a u hl
    obtain ⟨b, hb⟩ := Option.isSome_iff_exists.mp hs
    simp only [lookupOrPopulate, hb, Option.some.injEq, Prod.mk.injEq] at hl
    exact hl.2.symm
  cases dfsGetattr_cases h with
  | root => rfl
  | noEntry => rfl
  | remote _ hl =>
    rw [World.setEntry_hash, hsame hl]
  | loc _ hl =>
    rw [World.setEntry_hash, hsame hl]
  | unset _ hl =>
    obtain rfl := hsame hl
    split_ifs
    · exact hashFillDirent_hash _ path
    · rfl

/-- What a first stat that the guard lets through comes to. -/
theorem dfsGetattr_found {st : Stat} (hi : s.Inv) (hn : s.hash path = none)
    (hg : path = rootPath ∨ (s.hash path).isSome ∨
      lookupOrPopulate env s path (env.rawType path) = none ∨
      ¬StatStops env s.store path)
    (h : dfsGetattr env s path = .ok (ret, st, t)) :
    t = s ∨ ret = 0 ∧ ∃ o, s.store.lookup path = some o := by
  rcases dfsGetattr_first hi hn h with rfl | ⟨hroot, hl, pe, fill, hu⟩
  · exact .inl rfl
  · have hstops : ¬StatStops env s.store path := by
      rcases hg with hg | hg | hg | hg
      · exact (hroot hg).elim
      · simp [hn] at hg
      · exact (hl hg).elim
      · exact hg
    rcases getattrUnset_not_stops hroot hstops with ⟨o, hs⟩ | hf
    · exact .inr ⟨getattrUnset_returns hs hroot hu, o, hs.object⟩
    · rw [hf] at hu
      cases hu

theorem dfsGetattr_keys {st : Stat} (hi : s.Inv)
    (hg : path = rootPath ∨ (s.hash path).isSome ∨
      lookupOrPopulate env s path (env.rawType path) = none ∨
      ¬StatStops env s.store path)
    (h : dfsGetattr env s path = .ok (ret, st, t)) (hr : ret ≠ 0) : t.hash = s.hash := by
  cases hn : s.hash path with
  | some a => exact dfsGetattr_hash (by rw [hn]; rfl) h
  | none =>
    rcases dfsGetattr_found hi hn hg h with rfl | ⟨h0, _⟩
    · rfl
    · exact (hr h0).elim

theorem dfsGetattr_kept {st : Stat} (hi : s.Inv) (hs : s.All (Kept n))
    (hg : path = rootPath ∨ (s.hash path).isSome ∨
      lookupOrPopulate env s path (env.rawType path) = none ∨
      ¬StatStops env s.store path)
    (h : dfsGetattr env s path = .ok (ret, st, t)) : t.All (Kept n) := by
  by_cases ht : t = s
  · rwa [ht]
  have hnew : s.hash path = none →
      Kept n s.brk (s.store.lookup path) (pentryNew env path (env.rawType path)) := by
    intro hn
    obtain ⟨_, o, ho⟩ := (dfsGetattr_found hi hn hg h).resolve_left ht
    exact .inr (.inl (by simp [ho]))
  apply dfsGetattr_all (Kept.steady n) hi hs hnew ?_ ?_ h
  · exact fun a o dict _ _ _ hpe => hpe.congr rfl id le_rfl fun hc => hc.congr rfl rfl id
  · exact fun a o pe _ hpe => hpe.congr rfl id le_rfl fun hc => hc.congr rfl rfl id

/-- The entry of the path apart, everything is kept. -/
def KeptBut (s : World) (path : Path) (n : Addr → Nat) : EntryProp := fun a o pe =>
  pe.path = path ∧ ((s.store.lookup path).isSome → o.isSome) ∨ Kept n a o pe

/-- What the entry of an opened path is kept for. -/
theorem opened_kept {m : Addr → Nat} {fh : Option Addr} (hi : s.Inv) (hti : t.Inv)
    (hk : s.Keeps t) (hall : t.All (KeptBut s path n))
    (hnm : ∀ a, n a ≤ m a) (hfh : ∀ a, fh = some a → ret = 0 → 0 < m a)
    (hgrant : ret = 0 → Granted s path fh t)
    (hg : ret = 0 ∨ s.store.ftype? path ≠ none ∨ ∃ a, s.hash path = some a ∧ 0 < n a) :
    t.All (Kept m) := by
  intro a pe ha
  rcases hall a pe ha with ⟨hp, ho⟩ | hkept
  swap
  · exact hkept.congr rfl id (hnm a) id
  rcases hg with h0 | hobj | ⟨b, hb, hpos⟩
  · obtain ⟨c, qe, hc, hqe, hq, _⟩ := (hgrant h0).entry
    have hlink := hti.linked a pe ha
    rw [hp, ← hq, hti.linked c qe hqe, Option.some.injEq] at hlink
    exact .inr (.inr (.inl (hlink ▸ hfh c hc h0)))
  · by_cases hr : path = rootPath
    · exact .inl (hp.trans hr)
    · rw [Store.ftype?_of_ne hr, ne_eq, Option.map_eq_none_iff] at hobj
      exact .inr (.inl (ho (Option.isSome_iff_ne_none.mpr hobj)))
  · obtain ⟨old, hold, hop⟩ := hi.entry path b hb
    obtain ⟨qe, hqe, hq, _⟩ := hk b old hold
    have hlink := hti.linked b qe hqe
    rw [hq, hop, ← hp, hti.linked a pe ha, Option.some.injEq] at hlink
    rw [hlink]
    exact .inr (.inr (.inl (Nat.lt_of_lt_of_le hpos (hnm b))))

theorem dfsOpen_kept {flags : OpenFlags} {m : Addr → Nat} {fh : Option Addr} (hi : s.Inv)
    (hs : s.All (Kept n)) (hnm : ∀ a, n a ≤ m a) (hfh : ∀ a, fh = some a → ret = 0 → 0 < m a)
    (hg : lookupOrPopulate env s path .reg = none ∨ s.OpenCompletes cx env path flags ∨
      s.store.ftype? path ≠ none ∨ ∃ a, s.hash path = some a ∧ 0 < n a)
    (h : dfsOpen cx env s path flags = .ok (ret, fh, t)) : t.All (Kept m) := by
  by_cases ht : t = s
  · rw [ht]
    exact fun a pe ha => (hs a pe ha).congr rfl id (hnm a) id
  obtain ⟨hti, hk, hret⟩ := dfsOpen_inv hi h
  have hbut : s.All (KeptBut s path n) := fun a pe ha => .inr (hs a pe ha)
  have hall : t.All (KeptBut s path n) := by
    apply (dfsOpen_all hi hbut (fun _ => .inl ⟨rfl, id⟩) ?_ h).1
    intro a qe fs hm _
    have hp : qe.path = path :=
      (openMode_spec hi.wf hm).update.path.trans (hi.entryOr_path _ path _)
    split_ifs
    · exact .inl ⟨hp, id⟩
    · exact .inl ⟨hp, id⟩
  refine opened_kept hi hti hk hall hnm hfh (fun h0 => ?_) ?_
  · exact (hret.resolve_right fun hm => by omega).2
  · rcases hg with hg | hg | hg
    · exact .inl ((dfsOpen_balanced hi (.inl hg) h).resolve_left ht).1
    · exact .inl ((dfsOpen_balanced hi (.inr hg) h).resolve_left ht).1
    · exact .inr hg

theorem dfsCreate_kept {mode : Nat} {flags : OpenFlags} {m : Addr → Nat} {fh : Option Addr}
    (hi : s.Inv) (hs : s.All (Kept n)) (hnm : ∀ a, n a ≤ m a)
    (hfh : ∀ a, fh = some a → ret = 0 → 0 < m a)
    (hg : s.CreateBalanced cx env path mode flags ∨ s.store.ftype? path ≠ none ∨
      ∃ a, s.hash path = some a ∧ 0 < n a)
    (h : dfsCreate cx env s path mode flags = .ok (ret, fh, t)) : t.All (Kept m) := by
  by_cases ht : t = s
  · rw [ht]
    exact fun a pe ha => (hs a pe ha).congr rfl id (hnm a) id
  obtain ⟨hti, hk, hret⟩ := dfsCreate_inv hi h
  have hbut : s.All (KeptBut s path n) := fun a pe ha => .inr (hs a pe ha)
  have hall : t.All (KeptBut s path n) := by
    apply dfsCreate_all hi hbut (fun _ => .inl ⟨rfl, id⟩) ?_ ?_ h
    · intro a qe fs hm _
      exact .inl ⟨(openMode_spec hi.wf hm).update.path.trans (hi.entryOr_path _ path _), id⟩
    · intro a r qe fs pe' fs' st _ hm hc _
      have hspec := openMode_spec hi.wf hm
      have hp : qe.path = path := hspec.update.path.trans (hi.entryOr_path _ path _)
      obtain ⟨md, l, rfl, _⟩ := createOpened_spec hspec.update.wf hc
      refine .inl ⟨hp, fun ho => ?_⟩
      rcases createOpened_put hc with rfl | ⟨_, _, rfl⟩
      · exact ho
      · rw [AList.lookup_insert]
        rfl
  refine opened_kept hi hti hk hall hnm hfh (fun h0 => ?_) ?_
  · exact hret.resolve_right fun hne => hne h0
  · exact hg.imp (fun hg => ((dfsCreate_balanced hi hg h).resolve_left ht).1) id

theorem dfsRmdir_kept (hi : s.Inv) (hs : s.All (Kept n))
    (hg : (dplRmdir env s.store path).1 = .success → ∀ pe, s.entry path = some pe →
      (∃ a, s.hash path = some a ∧ 0 < n a) ∨ pe.Collectable)
    (h : dfsRmdir cx env s (.ext path) = .ok (ret, t)) : t.All (Kept n) := by
  apply dfsRmdir_all (Kept.steady n).removable hs ?_ h
  intro a pe o hp _ hok ha _ _
  have hp' : pe.path = path := hp
  have hlink := hi.linked a pe ha
  rw [hp'] at hlink
  have he : s.entry path = some pe := by rw [World.entry, hlink, Option.bind_some, ha]
  rcases hg hok pe he with ⟨b, hb, hpos⟩ | hc
  · obtain rfl : a = b := Option.some.inj (hlink.symm.trans hb)
    exact .inr (.inr (.inl hpos))
  · exact .inr (.inr (.inr hc))

theorem dfsMkdir_kept (hi : s.Inv) (hs : s.All (Kept n)) :
    (dfsMkdir env s path).2.All (Kept n) := by
  apply dfsMkdir_all hi hs
  · exact fun _ _ _ _ _ => .inr (.inl rfl)
  · exact fun _ => .inr (.inl rfl)

theorem renameFile_kept {a b : Path} (hi : s.Inv) (hs : s.All (Kept n))
    (h : renameFile cx env s (.ext a) (.ext b) = .ok (ret, t)) : t.All (Kept n) :=
  renameFile_all (Kept.steady n).removable hi hs (fun _ _ _ _ _ _ => .inr (.inl rfl)) h

/-- A directory below `o` can lose its object. -/
def Spared (env : Env) (n : Addr → Nat) (o : Path) : EntryProp := fun a obj pe =>
  Kept n a obj pe ∧ (Within o pe.path → obj.map (·.ftype) = some .dir →
    0 < n a ∨ pe.Collectable ∨ env.remote (.rmdir pe.path) ≠ .success)

theorem Spared.steady (env : Env) (n : Addr → Nat) (o : Path) : Steady (Spared env n o) where
  removed name h := ⟨(Kept.steady n).removed name h.1, fun hw hd => (h.2 hw hd).imp id
    (Or.imp (fun hc => hc.congr rfl rfl id) id)⟩
  atime k h := ⟨(Kept.steady n).atime k h.1, fun hw hd => (h.2 hw hd).imp id
    (Or.imp (fun hc => hc.congr rfl rfl id) id)⟩
  locked l hr h := ⟨(Kept.steady n).locked l hr h.1, fun hw hd => (h.2 hw hd).imp id
    (Or.imp (fun hc => hc.congr rfl rfl id) id)⟩

theorem sparedSteps {o b : Path} (hsep : Separate o b) :
    MoveSteps cx env o b fun t => t.Inv ∧ t.All (Spared env n o) := by
  refine ⟨?_, ?_, ?_, ?_⟩
  · intro u ring cwd trace ⟨hi, hs⟩
    exact ⟨hi.congr rfl rfl rfl rfl, hs.of_eq rfl rfl⟩
  · intro u q hq ⟨hi, hs⟩
    refine ⟨(dfsMkdir_inv hi).1, dfsMkdir_all hi hs ?_ fun _ => ?_⟩
    · intro a pe hp _ _
      exact ⟨.inr (.inl rfl), fun hw _ => (hsep.not_both (hp ▸ hw) hq).elim⟩
    · exact ⟨.inr (.inl rfl), fun hw _ => (hsep.not_both hw hq).elim⟩
  · intro u p q ret v _ hq ⟨hi, hs⟩ h
    refine ⟨renameFile_inv hi h, renameFile_all (Spared.steady env n o).removable hi hs ?_ h⟩
    intro a pe obj hp _ _
    have hp' : pe.path = q := hp
    exact ⟨.inr (.inl rfl), fun hw _ => (hsep.not_both (hp' ▸ hw) hq).elim⟩
  · intro u p ret v hw ⟨hi, hs⟩ h
    refine ⟨(dfsRmdir_inv hi h).1, dfsRmdir_all (Spared.steady env n o).removable hs ?_ h⟩
    intro a pe obj hp hdir hok _ hobj hpe
    have hp' : pe.path = p := hp
    rcases dplRmdir_cases env u.store p with ⟨hno, _⟩ | ⟨hr, hne, _, _⟩
    · exact (hno hok).elim
    have htype : u.store.ftype? p = some .dir := hdir
    have hlook : u.store.lookup p = some obj := hobj
    rw [Store.ftype?_of_ne hne, hlook] at htype
    refine ⟨?_, fun _ hnone => by cases hnone⟩
    rcases hpe.2 (hp' ▸ hw) htype with hpos | hc | hno
    · exact .inr (.inr (.inl hpos))
    · exact .inr (.inr (.inr hc))
    · rw [hp'] at hno
      exact (hno hr).elim

theorem Daemon.held_iff : d.Held path ↔ ∃ a, d.world.hash path = some a ∧ 0 < d.handlesOn a := by
  constructor
  · intro ⟨h, hh, ha⟩
    exact ⟨h.addr, ha, handlesOn_pos hh⟩
  · intro ⟨a, ha, hpos⟩
    obtain ⟨h, hh, hha⟩ := List.countP_pos_iff.mp hpos
    simp only [decide_eq_true_eq] at hha
    exact ⟨h, hh, hha ▸ ha⟩

theorem dfsRename_kept {old new : Path} (hi : d.world.Inv)
    (hs : d.world.All (Kept d.handlesOn)) (hg : d.RenameClean env old (renameTarget old new))
    (h : dfsRename cx env d.world old new = .ok (ret, t)) : t.All (Kept d.handlesOn) := by
  rcases dfsRename_cases h with ⟨_, _, rfl⟩ | ⟨_, r, _, hr⟩ | ⟨ht, r, _, hr⟩
  · exact hs
  · exact renameFile_kept hi hs hr
  rw [Daemon.RenameClean, ht] at hg
  rcases hg with ⟨hne, hdir⟩ | ⟨⟨hroot, f, hch, hready⟩, hdirs⟩
  · have hend : t.Inv ∧ t.All (Kept d.handlesOn) := by
      apply renameDirectory_refused ?_ ?_ hne hdir ⟨hi, hs⟩ hr
      · exact fun u _ _ _ ⟨hi, hs⟩ => ⟨hi.congr rfl rfl rfl rfl, hs.of_eq rfl rfl⟩
      · exact fun u ⟨hi, hs⟩ => ⟨(dfsMkdir_inv hi).1, dfsMkdir_kept hi hs⟩
    exact hend.2
  · obtain ⟨he, hkeep⟩ := renameDirectory_agree cx env env.stack hready hroot hch
    rw [he] at hr
    have hspared : d.world.All (Spared env d.handlesOn old) := by
      intro a pe ha
      refine ⟨hs a pe ha, fun hw hd => ?_⟩
      have hlink := hi.linked a pe ha
      have hentry : d.world.entry pe.path = some pe := by
        rw [World.entry, hlink, Option.bind_some, ha]
      have htype : d.world.store.ftype? pe.path = some .dir := by
        by_cases hpr : pe.path = rootPath
        · rw [hpr, Store.ftype?_root]
        · rw [Store.ftype?_of_ne hpr]
          exact hd
      rcases hdirs pe.path pe hentry hw htype with hheld | hc | hno
      · obtain ⟨b, hb, hpos⟩ := Daemon.held_iff.mp hheld
        obtain rfl : a = b := Option.some.inj (hlink.symm.trans hb)
        exact .inl hpos
      · exact .inr (.inl hc)
      · exact .inr (.inr hno)
    have hend := ((hkeep r t hr).2 _ (sparedSteps hready.separate) ⟨hi, hspared⟩).2
    exact fun a pe ha => (hend a pe ha).1

/-- A release that counts down takes the descriptor and the lock as they are. -/
theorem releaseEntry_collectable {fs fs' : LocalFs} {st st' : Store} {flags : OpenFlags}
    {pe pe' : Entry} (hw : fs.Wf) {fd : Nat} {f : OpenFile} (hr : pe.refcount = 1)
    (hl : pe.locked = false) (hs : env.sys .fstatRelease = none) (hfd : pe.fd = some fd)
    (hf : fs.fds.lookup fd = some f)
    (h : releaseEntry cx env st fs path flags pe = .ok (ret, pe', fs', st')) :
    pe'.Collectable := by
  have hcount := releaseEntry_counts hs hfd hf h
  have hspec := releaseEntry_spec hw h
  refine ⟨by omega, ?_, by rw [hspec.fd, hfd]; rfl⟩
  obtain ⟨stat, hstat⟩ : ∃ stat, fs.fstat fd env.times = some stat := by
    simp [LocalFs.fstat, inodeOf, hf]
  unfold releaseEntry at h
  simp only [hfd, hs, hstat] at h
  obtain ⟨qe, hq, h⟩ := Except.bind_ok.mp h
  obtain ⟨_, rfl⟩ := pentryDecRefcount_ok hq
  split_ifs at h
  all_goals
    simp only [Except.ok.injEq, Prod.mk.injEq] at h
    obtain ⟨_, rfl, _⟩ := h
  · exact hl
  · rfl
  · rfl

/-- The upload of a release that returns 0 has put its object. -/
theorem releaseEntry_sends {fs' : LocalFs} {st' : Store} {h : Handle} {pe pe' : Entry}
    (hs : d.Sends cx env h pe) (hi : d.world.Inv) {a : Addr} (ha : d.world.heap a = some pe)
    (hr : releaseEntry cx env d.world.store d.world.fs h.path h.flags pe =
      .ok (ret, pe', fs', st')) : (st'.lookup h.path).isSome := by
  obtain ⟨fd, hfd, hw, hx, hsys, hup⟩ := hs
  obtain ⟨f, hf, _⟩ := hi.opened a pe fd ha hfd
  obtain ⟨stat, hstat⟩ : ∃ stat, d.world.fs.fstat fd env.times = some stat := by
    simp [LocalFs.fstat, inodeOf, hf]
  have hzero := hup stat hstat
  obtain ⟨fs₁, hhand⟩ := releaseUpload_handed cx env d.world.fs h.path fd stat d.world.store
  unfold releaseEntry at hr
  simp only [hfd, hsys, hstat] at hr
  obtain ⟨qe, hq, hr⟩ := Except.bind_ok.mp hr
  obtain ⟨_, rfl⟩ := pentryDecRefcount_ok hq
  rw [if_neg hw, if_neg (by simp [hx])] at hr
  rw [hhand] at hr hzero
  cases hh : handedAt cx env d.world.fs.scratchFd d.world.fs h.path fd stat with
  | none => simp [hh] at hzero
  | some up =>
    rw [hh] at hzero
    simp only [hh, Except.ok.injEq, Prod.mk.injEq] at hr
    obtain ⟨_, _, _, rfl⟩ := hr
    have hpair : sendUpload cx env d.world.store h.path up =
        (0, (sendUpload cx env d.world.store h.path up).2) := Prod.ext hzero rfl
    rw [sendUpload_zero hpair, AList.lookup_insert]
    rfl

theorem dfsRelease_kept {i : Nat} {h : Handle} {w : World} (hi : d.world.Inv)
    (ho : d.Original cx) (hs : d.world.All (Kept d.handlesOn)) (hidx : d.handles[i]? = some h)
    (hg : ∀ pe, d.world.heap h.addr = some pe → d.ReleaseClean cx env h pe)
    (hr : dfsRelease cx env d.world h.path h.flags h.addr = .ok (ret, w)) :
    w.All (Kept (Daemon.handlesOn ⟨w, d.handles.eraseIdx i⟩)) := by
  obtain ⟨pe, pe', fs, st, ha, hre, rfl⟩ := dfsRelease_cases hr
  have hspec := releaseEntry_spec hi.wf hre
  have hpath : pe.path = h.path :=
    (ho.origin h.addr pe ha).1 h (List.mem_of_getElem? hidx) rfl
  have hput : ∀ q, (d.world.store.lookup q).isSome → (st.lookup q).isSome := by
    intro q hq
    rcases (releaseEntry_puts hre).1 with rfl | ⟨o, _, rfl⟩
    · exact hq
    · by_cases he : q = h.path
      · rw [he, AList.lookup_insert]
        rfl
      · rwa [AList.lookup_insert_ne he]
  intro a qe hqe
  have hcount := Daemon.handlesOn_eraseIdx d.world
    ({ d.world.setEntry h.addr pe' with fs := fs, store := st } : World) hidx a
  change d.handlesOn a = _ at hcount
  by_cases he : a = h.addr
  swap
  · have hold : d.world.heap a = some qe := (World.setEntry_heap_of_ne he pe').symm.trans hqe
    rw [if_neg (Ne.symm he)] at hcount
    exact (hs a qe hold).congr rfl (hput _) hcount.le id
  subst he
  obtain rfl : pe' = qe := Option.some.inj
    ((World.setEntry_heap_self d.world h.addr pe').symm.trans hqe)
  have hp : pe'.path = h.path := hspec.update.path.trans hpath
  rw [if_pos rfl] at hcount
  rw [hp]
  rcases hg pe ha with hobj | hmore | hsend | ⟨hone, hlock, hsome, hsys⟩
  · by_cases hroot : h.path = rootPath
    · exact .inl (hp.trans hroot)
    · rw [Store.ftype?_of_ne hroot, ne_eq, Option.map_eq_none_iff] at hobj
      exact .inr (.inl (hput _ (Option.isSome_iff_ne_none.mpr hobj)))
  · exact .inr (.inr (.inl (by omega)))
  · exact .inr (.inl (releaseEntry_sends hsend hi ha hre))
  · obtain ⟨fd, hfd⟩ := Option.isSome_iff_exists.mp hsome
    obtain ⟨f, hf, _⟩ := hi.opened h.addr pe fd ha hfd
    exact .inr (.inr (.inr (releaseEntry_collectable hi.wf hone hlock hsys hfd hf hre)))

theorem Calls.kept {d' : Daemon} {op : Op} (hi : d.world.Inv) (ho : d.Original cx)
    (hs : d.world.All (Kept d.handlesOn)) (hg : LeavesClean cx d ⟨op, env⟩)
    (h : Calls cx env d op ret d') : d'.world.All (Kept d'.handlesOn) := by
  have hgrant : ∀ (a : Addr) (path : Path) (flags : OpenFlags) (w : World) (b : Addr),
      d.handlesOn b ≤ Daemon.handlesOn ⟨w, d.handles ++ [⟨a, path, flags⟩]⟩ b := by
    intro a path flags w b
    rw [Daemon.handlesOn_append]
    exact Nat.le_add_right _ _
  have hnew : ∀ (a : Addr) (path : Path) (flags : OpenFlags) (w : World) (b : Addr),
      some a = some b → 0 < Daemon.handlesOn ⟨w, d.handles ++ [⟨a, path, flags⟩]⟩ b := by
    intro a path flags w b hab
    obtain rfl := Option.some.inj hab
    rw [Daemon.handlesOn_append, if_pos rfl]
    omega
  cases h with
  | getattr h => exact dfsGetattr_kept hi hs hg h
  | opened h =>
    exact dfsOpen_kept hi hs (hgrant _ _ _ _) (fun b hb _ => hnew _ _ _ _ b hb)
      (hg.imp id (Or.imp id (Or.imp id Daemon.held_iff.mp))) h
  | openFailed hr h =>
    refine dfsOpen_kept hi hs (fun _ => le_rfl) (fun b hb h0 => ?_)
      (hg.imp id (Or.imp id (Or.imp id Daemon.held_iff.mp))) h
    rcases hr with hr | hr
    · exact (hr h0).elim
    · rw [hr] at hb
      cases hb
  | created h =>
    exact dfsCreate_kept hi hs (hgrant _ _ _ _) (fun b hb _ => hnew _ _ _ _ b hb)
      (hg.imp id (Or.imp id Daemon.held_iff.mp)) h
  | createFailed hr h =>
    refine dfsCreate_kept hi hs (fun _ => le_rfl) (fun b hb h0 => ?_)
      (hg.imp id (Or.imp id Daemon.held_iff.mp)) h
    rcases hr with hr | hr
    · exact (hr h0).elim
    · rw [hr] at hb
      cases hb
  | read => exact hs
  | written _ _ h =>
    obtain ⟨_, _, ⟨rfl, _⟩ | ⟨_, _, _, _, _, _, rfl⟩⟩ := dfsWrite_cases h
    · exact hs
    · exact hs.of_eq rfl rfl
  | notWritten _ => exact hs
  | released hidx h => exact dfsRelease_kept hi ho hs hidx (fun pe ha => hg _ pe hidx ha) h
  | notReleased => exact hs
  | unlink h => exact dfsUnlink_all (Kept.steady _).removable hi hs h
  | rename h => exact dfsRename_kept (d := d) hi hs hg h
  | rmdir h =>
    exact dfsRmdir_kept hi hs (fun hok pe he => (hg hok pe he).imp Daemon.held_iff.mp id) h
  | mkdir => exact dfsMkdir_kept hi hs
  | mknod =>
    obtain ⟨hp, hh⟩ := dfsMknod_puts env d.world _
    exact hs.put hh hp fun _ _ _ _ _ _ => .inr (.inl rfl)
  | symlink h =>
    obtain ⟨hp, hh⟩ := dfsSymlink_puts h
    exact hs.put hh hp fun _ _ _ _ _ _ => .inr (.inl rfl)
  | chmod h =>
    refine setAttributes_all hi hs (fun _ _ _ _ _ _ hobj hpe => ?_) h
    refine hpe.congr rfl (fun hsome => ?_) le_rfl fun hc => hc.congr rfl rfl id
    rcases hobj with rfl | ⟨_, _, rfl⟩
    · exact hsome
    · rfl
  | chown h =>
    refine setAttributes_all hi hs (fun _ _ _ _ _ _ hobj hpe => ?_) h
    refine hpe.congr rfl (fun hsome => ?_) le_rfl fun hc => hc.congr rfl rfl id
    rcases hobj with rfl | ⟨_, _, rfl⟩
    · exact hsome
    · rfl
  | gc => exact gcCallback_all hs

theorem World.All.noGarbage (hi : d.world.Inv) (hs : d.world.All (Kept d.handlesOn)) :
    d.NoGarbage cx := by
  intro path he
  obtain ⟨pe, hpe⟩ := Option.isSome_iff_exists.mp he
  obtain ⟨a, hh, ha⟩ := Option.bind_eq_some_iff.mp hpe
  obtain ⟨qe, hqe, hp⟩ := hi.entry path a hh
  obtain rfl : pe = qe := Option.some.inj (ha.symm.trans hqe)
  have hkept := hs a pe ha
  rw [hp] at hkept
  rcases hkept with hroot | hobj | hpos | hc
  · exact .inl (by rw [← hp, hroot, Store.ftype?_root]; exact Option.some_ne_none _)
  · refine .inl fun hnone => ?_
    rw [(Store.ftype?_none.mp hnone).2] at hobj
    cases hobj
  · exact .inr (.inl (Daemon.held_iff.mpr ⟨a, hh, hpos⟩))
  · exact .inr (.inr (.of_collectable hpe hc))

end Steps

/-- In a run whose steps keep to the condition no state has an entry that is for nothing, and no
stat that fails adds one. -/
theorem no_garbage (cx : Ctx) {store : Store} {fs : LocalFs} {ring : Ring} {calls : List Call}
    (hw : fs.Wf)
    (hm : Transition.Meets (Daemon.step cx) (LeavesClean cx) (.init store fs ring) calls) :
    Transition.Always (Daemon.step cx) (Daemon.NoGarbage cx) (.init store fs ring) calls ∧
      Transition.Meets (Daemon.step cx) FailsClean (.init store fs ring) calls := by
  have hkeep : ∀ d c d', (d.world.Inv ∧ d.Original cx ∧ d.world.All (Kept d.handlesOn)) →
      LeavesClean cx d c → Daemon.step cx d c = .ok d' →
      d'.world.Inv ∧ d'.Original cx ∧ d'.world.All (Kept d'.handlesOn) := by
    intro d c d' ⟨hi, ho, hs⟩ hg ht
    obtain ⟨ret, hc⟩ := Daemon.step_cases ht
    exact ⟨hc.inv hi, hc.original hi ho, hc.kept hi ho hs hg⟩
  have hinit : (Daemon.init store fs ring).world.Inv ∧ (Daemon.init store fs ring).Original cx ∧
      (Daemon.init store fs ring).world.All (Kept (Daemon.init store fs ring).handlesOn) := by
    refine ⟨Daemon.init_inv hw, ?_, fun a pe ha => by cases ha⟩
    exact ⟨fun h hh => (by cases hh), fun a pe ha => (by cases ha)⟩
  constructor
  · exact Transition.always_of_meets (fun d ⟨hi, _, hs⟩ => hs.noGarbage hi) hkeep hinit hm
  · refine Transition.meets_of_meets ?_ hkeep hinit hm
    intro d c ⟨hi, _⟩ hg path hop ret st t h hr q
    obtain ⟨op, env⟩ := c
    obtain rfl : op = .getattr path := hop
    rw [dfsGetattr_keys hi hg h hr]

/-- A file is looked at and opened, and a directory is made. -/
theorem no_garbage_sample :
    Transition.Always (Daemon.step Sample.plain) (Daemon.NoGarbage Sample.plain)
        (Sample.daemon [(['/', 'f'], Sample.file [1])])
        [Sample.call (.getattr ['/', 'f']), Sample.call (.open ['/', 'f'] Sample.readOnly),
          Sample.call (.mkdir ['/', 'd'])] ∧
      Transition.Meets (Daemon.step Sample.plain) FailsClean
        (Sample.daemon [(['/', 'f'], Sample.file [1])])
        [Sample.call (.getattr ['/', 'f']), Sample.call (.open ['/', 'f'] Sample.readOnly),
          Sample.call (.mkdir ['/', 'd'])] := by
  have hf : Stated Env.quiet (Sample.store [(['/', 'f'], Sample.file [1])]) ['/', 'f']
      (Sample.file [1]) := ⟨rfl, rfl, rfl, rfl, rfl⟩
  apply no_garbage Sample.plain Sample.fs_wf
  exact ⟨.inr (.inr (.inr (hf.not_stops (by decide)))), .inr (.inr (.inl (by decide))), trivial,
    trivial⟩

/-- The collector passes over an entry without a descriptor, at any age. -/
theorem Daemon.garbage {cx : Ctx} {d : Daemon} (path : Path) {pe : Entry}
    (he : d.world.entry path = some pe) (hfd : pe.fd = none) (hh : d.handles = [])
    (ho : d.world.store.ftype? path = none) : ¬d.NoGarbage cx := by
  intro hn
  rcases hn path (by rw [he]; rfl) with hobj | ⟨h, hmem, _⟩ | hc
  · exact hobj ho
  · rw [hh] at hmem
    cases hmem
  · let threshold : Int :=
      if pe.exclude then cx.conf.gcAgeThreshold * 10 else cx.conf.gcAgeThreshold
    have hgone := hc { Env.quiet with now := threshold.toNat } ?_
    · have hstays : ∀ env, gcCallback cx env d.world path = d.world := by
        intro env
        unfold gcCallback
        rw [he]
        simp [gcRemoves, hfd]
      rw [hstays, he] at hgone
      cases hgone
    · intro qe hqe
      obtain rfl : pe = qe := Option.some.inj (he.symm.trans hqe)
      have hle := Int.self_le_toNat threshold
      refine ⟨?_, ?_, ?_⟩
      all_goals
        change 0 + threshold ≤ _
        rw [Int.zero_add]
        exact hle

/-- A stat of a name that does not exist leaves an entry behind, and so does the removal of a
directory. -/
theorem missing_name_stays :
    (∃ d, Transition.exec (Daemon.step Sample.plain) (Sample.daemon [])
        [Sample.call (.getattr ['/', 'x'])] = .ok d ∧ ¬d.NoGarbage Sample.plain) ∧
      ¬FailsClean (Sample.daemon []) (Sample.call (.getattr ['/', 'x'])) ∧
      ∃ d, Transition.exec (Daemon.step Sample.plain) (Sample.daemon [])
        [Sample.call (.mkdir ['/', 'd']), Sample.call (.rmdir ['/', 'd'])] = .ok d ∧
        ¬d.NoGarbage Sample.plain := by
  refine ⟨⟨_, rfl, ?_⟩, ?_, _, rfl, ?_⟩
  · exact Daemon.garbage ['/', 'x'] rfl rfl rfl (by decide)
  · intro h
    have hkeys := h ['/', 'x'] rfl _ _ _ rfl (by decide) ['/', 'x']
    exact absurd hkeys (by decide)
  · exact Daemon.garbage ['/', 'd'] rfl rfl rfl (by decide)

end DropletFs
