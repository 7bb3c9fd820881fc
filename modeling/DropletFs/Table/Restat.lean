import DropletFs.Model.Sample
import DropletFs.Table.Lasting

/-! Stats of one path in a row: `getattr_unset` answers the first from the headers, and
`getattr_remote` the later ones from the metadata it kept. -/

namespace DropletFs

open CText LocalFs

/-- Every stat of the path, one after the other, returns 0 with these attributes. -/
def World.Repeats (path : Path) (st : Stat) : World → List Env → Prop
  | _, [] => True
  | s, env :: envs => ∃ t, dfsGetattr env s path = .ok (0, st, t) ∧ t.Repeats path st envs

/-- No missing header is read, and a stat that returns 0 is repeated by all that follow it. -/
def World.StatStable (s : World) (env : Env) (path : Path) : Prop :=
  dfsGetattr env s path ≠ .error .nullDeref ∧
    ∀ st t, dfsGetattr env s path = .ok (0, st, t) → ∀ envs, t.Repeats path st envs

/-- The metadata of an entry is locked only by a stat of a remote one, and no entry becomes unset
again. -/
def Entry.FreeUnset (pe : Entry) : Prop := pe.ondisk = .unset → pe.mdLocked = false

theorem Entry.FreeUnset.lasting (cx : Ctx) (env : Env) : Lasting cx env Entry.FreeUnset where
  new _ _ := fun _ => rfl
  filetype _ h := h
  dirent _ h := h
  atime _ h := h
  locked l ho _ := fun hu => by
    change _ = OnDisk.unset at hu
    rw [ho] at hu
    cases hu
  stated _ _ := fun _ => rfl
  opened := by
    intro st fs fs' path pe qe m ret hw ho h
    have hs := openMode_spec hw ho
    split_ifs
    · intro hu
      apply hs.unlocked
      exact h (hs.ondisk ▸ hu)
    · rintro ⟨⟩
  created x md l hloc _ := fun hu => by
    change _ = OnDisk.unset at hu
    rw [hloc] at hu
    cases hu
  attributes _ _ := fun _ => rfl
  released _ _ _ _ h := h

section

variable {cx : Ctx} {env : Env} {s t u : World} {path : Path} {a : Addr} {pe : Entry}

/-- `dfs_getattr` of an entry that is unset runs `getattr_unset` on it. -/
theorem dfsGetattr_unset (hr : path ≠ rootPath)
    (hlook : Looked env (env.rawType path) s path a u)
    (hl : lookupOrPopulate env s path (env.rawType path) = some (a, u)) (ha : u.heap a = some pe)
    (ho : pe.ondisk = .unset) :
    dfsGetattr env s path =
      getattrUnset env s.store pe path { Stat.zero with nlink := 1 } >>= fun r =>
        .ok (r.1, r.2.1, if r.2.2.2 then
            hashFillDirent (u.setEntry a { r.2.2.1 with atime := env.now }) path
          else u.setEntry a { r.2.2.1 with atime := env.now }) := by
  have hd : u.deref a = .ok pe := World.deref_ok.mpr ha
  unfold dfsGetattr
  simp only [if_neg hr, hl, hd, bind, Except.bind, ho, hlook.store]

/-- The link count `getattr_unset` leaves is the one `set_default_stat` wrote. -/
theorem statOfHeaders_nlink {env : Env} {st st' : Stat} {headers : Headers} {dict : Dict}
    (h : statOfHeaders env st headers = .ok (st', dict)) : st'.nlink = st.nlink := by
  unfold statOfHeaders at h
  dsimp only at h
  split at h
  · simp only [Except.ok.injEq, Prod.mk.injEq] at h
    rw [← h.1]
    unfold fillStatFromMetadata
    dsimp only
    split_ifs
    · rfl
    · rfl
  · cases hc : headers.contentLength with
    | none => simp [hc] at h
    | some length =>
      simp only [hc, Except.ok.injEq, Prod.mk.injEq] at h
      rw [← h.1]

theorem statOfHeaders_error {env : Env} {st : Stat} {headers : Headers} {e : Fault}
    (h : statOfHeaders env st headers = .error e) : e = .nullDeref := by
  unfold statOfHeaders at h
  dsimp only at h
  split at h
  · cases h
  · cases hc : headers.contentLength with
    | none =>
      simp only [hc, Except.error.injEq] at h
      exact h.symm
    | some length => simp [hc] at h

/-- A stat answered from the table gives the file one link. -/
theorem getattrRemote_nlink {pe' : Entry} {st st' : Stat}
    (h : getattrRemote pe st = .ok (0, st', pe')) : st'.nlink = st.nlink := by
  unfold getattrRemote at h
  obtain ⟨pl, hl, h⟩ := Except.bind_ok.mp h
  cases hu : pl.usermd with
  | none => simp [hu] at h
  | some md =>
    simp only [hu, Except.ok.injEq, Prod.mk.injEq, true_and] at h
    rw [← h.1]
    unfold fillStatFromMetadata
    dsimp only
    split_ifs
    · rfl
    · rfl

/-- What an update of some entry's list leaves of the others' places. -/
theorem World.onEntry_ondisk {f : Entry → Entry} (hf : ∀ pe, (f pe).ondisk = pe.ondisk)
    (q : Path) (ha : s.heap a = some pe) :
    ∃ qe, (s.onEntry q f).heap a = some qe ∧ qe.ondisk = pe.ondisk := by
  unfold World.onEntry
  cases s.hash q with
  | none => exact ⟨pe, ha, rfl⟩
  | some b =>
    dsimp only
    cases hb : s.heap b with
    | none => exact ⟨pe, ha, rfl⟩
    | some re =>
      by_cases he : a = b
      · subst he
        rw [ha, Option.some.injEq] at hb
        exact ⟨f pe, by rw [hb]; exact World.setEntry_heap_self s a _, hf pe⟩
      · exact ⟨pe, (World.setEntry_heap_of_ne he _).trans ha, rfl⟩

theorem World.entryOr_of_heap (hh : s.hash path = some a) (ha : s.heap a = some pe) :
    s.entryOr env path (env.rawType path) = pe := by
  rw [World.entryOr, World.entry, hh, Option.bind_some, ha, Option.getD_some]

/-- After a first stat that returned 0 the entry is a remote one. -/
theorem dfsGetattr_makes_remote {st : Stat} (hi : s.Inv) (hr : path ≠ rootPath)
    (ho : (s.entryOr env path (env.rawType path)).ondisk = .unset)
    (h : dfsGetattr env s path = .ok (0, st, t)) :
    st.nlink = 0 ∧ (t.entryOr env path (env.rawType path)).ondisk = .remote := by
  cases dfsGetattr_cases h with
  | root hroot => exact (hr hroot).elim
  | remote _ hl ha hrem =>
    rw [(lookupOrPopulate_spec hi hl).entryOr ha, ho] at hrem
    cases hrem
  | loc _ hl ha hloc =>
    rw [(lookupOrPopulate_spec hi hl).entryOr ha, ho] at hloc
    cases hloc
  | unset _hr hl ha _hun hg =>
    rename_i b u pe pe' fill
    have hlook : Looked env _ s path b u := lookupOrPopulate_spec hi hl
    rcases getattrUnset_spec hg with ⟨hz, _⟩ | ⟨_, o, type, dict, _, hst, rfl⟩
    · exact (hz rfl).elim
    refine ⟨statOfHeaders_nlink hst, ?_⟩
    have hset : ∀ qe, (u.setEntry b qe).heap b = some qe := World.setEntry_heap_self u b
    split_ifs
    · have hhash : ∀ qe, (hashFillDirent (u.setEntry b qe) path).hash path = some b := by
        intro qe
        unfold hashFillDirent
        cases beforeLastSlash path with
        | none => exact hlook.hash
        | some d =>
          obtain ⟨heap, he⟩ := (u.setEntry b qe).onEntry_eq (if d = [] then rootPath else d)
            fun dir => pentryAddDirent dir path
          dsimp only
          rw [he]
          exact hlook.hash
      have hheap : ∀ qe, ∃ re, (hashFillDirent (u.setEntry b qe) path).heap b = some re ∧
          re.ondisk = qe.ondisk := by
        intro qe
        unfold hashFillDirent
        cases beforeLastSlash path with
        | none => exact ⟨qe, hset qe, rfl⟩
        | some d =>
          exact World.onEntry_ondisk (f := fun dir => pentryAddDirent dir path) (fun _ => rfl) _
            (hset qe)
      obtain ⟨re, hre, hod⟩ := hheap { pe with
        usermd := keptUsermd env dict, filetype := .reg, ondisk := .remote, mdLocked := false,
        atime := env.now }
      exact (congrArg _ (World.entryOr_of_heap (hhash _) hre)).trans hod
    · have hhash : ∀ qe, (u.setEntry b qe).hash path = some b := fun _ => hlook.hash
      exact congrArg _ (World.entryOr_of_heap (hhash _) (hset _))

/-- A stat answered from the table gives the file one link. -/
theorem dfsGetattr_remote_nlink {st : Stat} (hi : s.Inv) (hr : path ≠ rootPath)
    (ho : (s.entryOr env path (env.rawType path)).ondisk = .remote)
    (h : dfsGetattr env s path = .ok (0, st, t)) :
    st.nlink = 1 := by
  cases dfsGetattr_cases h with
  | root hroot => exact (hr hroot).elim
  | remote _ _ _ _ hg => exact getattrRemote_nlink hg
  | loc _ hl ha hloc =>
    rw [(lookupOrPopulate_spec hi hl).entryOr ha, ho] at hloc
    cases hloc
  | unset _ hl ha hun =>
    rw [(lookupOrPopulate_spec hi hl).entryOr ha, ho] at hun
    cases hun

theorem World.StatStable.first_fails {st : Stat} (hi : s.Inv) (hr : path ≠ rootPath)
    (ho : (s.entryOr env path (env.rawType path)).ondisk = .unset) (hs : s.StatStable env path)
    (h : dfsGetattr env s path = .ok (0, st, t)) : False := by
  obtain ⟨t', ht', _⟩ := hs.2 st t h [env]
  obtain ⟨h0, hrem⟩ := dfsGetattr_makes_remote hi hr ho h
  have h1 := dfsGetattr_remote_nlink (dfsGetattr_inv hi h).1 hr hrem ht'
  omega

/-- Once the headers are read, a first stat reads a missing one or returns no links at all. -/
theorem dfsGetattr_stated {o : Obj} {b : Addr} (hi : s.Inv) (hr : path ≠ rootPath)
    (hf : s.All fun _ _ pe => pe.FreeUnset)
    (ho : (s.entryOr env path (env.rawType path)).ondisk = .unset)
    (hl : lookupOrPopulate env s path (env.rawType path) = some (b, u))
    (hst : Stated env s.store path o) :
    dfsGetattr env s path = .error .nullDeref ∨
      ∃ st t, dfsGetattr env s path = .ok (0, st, t) := by
  have hlook : Looked env _ s path b u := lookupOrPopulate_spec hi hl
  obtain ⟨pe, ha, _⟩ := hlook.heap
  obtain rfl := hlook.entryOr ha
  have hfree : (s.entryOr env path (env.rawType path)).mdLocked = false := by
    have hu := hf.looked hlook fun _ => (Entry.FreeUnset.lasting Sample.plain env).new path _
    exact hu b _ ha ho
  have hlock : ∀ r : Stat × Dict, pentryMdLock (s.entryOr env path (env.rawType path)) =
      .ok { s.entryOr env path (env.rawType path) with mdLocked := true } := by
    intro _
    rw [pentryMdLock, hfree]
    rfl
  rw [dfsGetattr_unset hr hlook hl ha ho, getattrUnset_stated hst hr]
  cases hs : statOfHeaders env { setDefaultStat env o.ftype with nlink := 0 } o.headers with
  | error e =>
    left
    rw [statOfHeaders_error hs]
    rfl
  | ok r =>
    right
    simp only [hlock r, bind, Except.bind]
    exact ⟨_, _, rfl⟩

end

/-- The first stat of a path is never repeated: `set_default_stat` clears the link count that
`dfs_getattr` has set, and the later stats keep it. -/
theorem stat_stable_iff {cx : Ctx} {d : Daemon} (h : d.Reachable cx) (env : Env) {path : Path}
    (hr : path ≠ rootPath) (ho : (d.world.entryOr env path (env.rawType path)).ondisk = .unset) :
    d.world.StatStable env path ↔
      lookupOrPopulate env d.world path (env.rawType path) = none ∨
        StatStops env d.world.store path := by
  have hi := h.inv
  have hf : d.world.All fun _ _ pe => pe.FreeUnset := h.lasting (Entry.FreeUnset.lasting cx)
  constructor
  · intro hs
    cases hl : lookupOrPopulate env d.world path (env.rawType path) with
    | none => exact .inl rfl
    | some bu =>
      obtain ⟨b, u⟩ := bu
      right
      by_contra hstop
      have hlook : Looked env _ d.world path b u := lookupOrPopulate_spec hi hl
      obtain ⟨pe, ha, _⟩ := hlook.heap
      rcases getattrUnset_not_stops hr hstop with ⟨o, hst⟩ | hfault
      · rcases dfsGetattr_stated hi hr hf ho hl hst with he | ⟨st, t, he⟩
        · exact hs.1 he
        · exact hs.first_fails hi hr ho he
      · apply hs.1
        obtain rfl := hlook.entryOr ha
        rw [dfsGetattr_unset hr hlook hl ha ho, hfault]
        rfl
  · intro hno
    have hfail : ∃ ret st t, ret ≠ 0 ∧ dfsGetattr env d.world path = .ok (ret, st, t) := by
      cases hl : lookupOrPopulate env d.world path (env.rawType path) with
      | none =>
        refine ⟨-1, { Stat.zero with nlink := 1 }, d.world, by decide, ?_⟩
        unfold dfsGetattr
        rw [if_neg hr, hl]
      | some bu =>
        obtain ⟨b, u⟩ := bu
        have hstop := hno.resolve_left (by rw [hl]; simp)
        have hlook : Looked env _ d.world path b u := lookupOrPopulate_spec hi hl
        obtain ⟨pe, ha, _⟩ := hlook.heap
        obtain rfl := hlook.entryOr ha
        obtain ⟨ret, st, hret, hg⟩ := getattrUnset_stops hstop
          (d.world.entryOr env path (env.rawType path))
          { Stat.zero with nlink := 1 }
        have heq := dfsGetattr_unset hr hlook hl ha ho
        rw [hg] at heq
        exact ⟨ret, st, _, hret, heq⟩
    obtain ⟨ret, st, t, hret, he⟩ := hfail
    refine ⟨?_, ?_⟩
    · rw [he]
      simp
    · intro st' t' h'
      rw [he] at h'
      simp only [Except.ok.injEq, Prod.mk.injEq] at h'
      exact (hret h'.1).elim

/-- `/f` has no entry yet. -/
theorem stat_stable_sample :
    (Sample.daemon [(['/', 'f'], Sample.file [1])]).world.StatStable
        { Env.quiet with remote := fun _ => .enoent } ['/', 'f'] :=
  (stat_stable_iff (Sample.daemon_reachable Sample.plain _) _ (by decide) rfl).mpr
    (.inr (.inl (by decide)))

/-- `/f` with a size in its metadata: no link at first, one link from then on. -/
theorem stat_not_repeated :
    ¬(Sample.daemon [(['/', 'f'], { Sample.file [1] with
      userMeta := Dict.empty.set .size ['1'] })]).world.StatStable Env.quiet ['/', 'f'] := by
  intro hs
  exact hs.first_fails (Sample.daemon_reachable Sample.plain _).inv (by decide) rfl rfl

end DropletFs
