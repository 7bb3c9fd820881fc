import DropletFs.Table.Reading

/-! The content and the size of a file across `dfs_rename`. -/

namespace DropletFs

open CText LocalFs

/-- Neither the entry of a path nor what is behind its descriptor has changed, but for its
list of names. -/
structure World.Spares (p : Path) (s t : World) : Prop where
  absent : s.entry p = none → t.entry p = none
  present : ∀ pe, s.entry p = some pe → ∃ ds, t.entry p = some { pe with dirent := ds } ∧
    ∀ fd, pe.fd = some fd → t.fs.content fd = s.fs.content fd

namespace World.Spares

variable {s t u : World} {p : Path}

theorem trans (h : Spares p s t) (h' : Spares p t u) : Spares p s u := by
  refine ⟨fun hn => h'.absent (h.absent hn), fun pe hpe => ?_⟩
  obtain ⟨ds, ht, hc⟩ := h.present pe hpe
  obtain ⟨ds', hu, hc'⟩ := h'.present _ ht
  exact ⟨ds', hu, fun fd hfd => (hc' fd hfd).trans (hc fd hfd)⟩

theorem of_eq (hh : t.hash = s.hash) (hp : t.heap = s.heap)
    (hf : ∀ fd, t.fs.content fd = s.fs.content fd) : Spares p s t := by
  have he : t.entry p = s.entry p := by simp [World.entry, hh, hp]
  exact ⟨fun hn => he.trans hn, fun pe hpe => ⟨pe.dirent, he.trans hpe, fun fd _ => hf fd⟩⟩

theorem onEntry_removeDirent (s : World) (p q name : Path) :
    Spares p s (s.onEntry q fun dir => pentryRemoveDirent dir name) := by
  have hf : ∀ pe : Entry, ∃ ds, pentryRemoveDirent pe name = { pe with dirent := ds } := by
    intro pe
    unfold pentryRemoveDirent
    split_ifs
    · exact ⟨_, rfl⟩
    · exact ⟨pe.dirent, rfl⟩
  unfold World.onEntry
  cases hq : s.hash q with
  | none => exact of_eq rfl rfl fun _ => rfl
  | some b =>
    dsimp only
    cases hb : s.heap b with
    | none => exact of_eq rfl rfl fun _ => rfl
    | some qe =>
      have hentry : ∀ a, s.hash p = some a →
          (s.setEntry b (pentryRemoveDirent qe name)).entry p =
            if a = b then some (pentryRemoveDirent qe name) else s.heap a := by
        intro a ha
        simp only [World.entry, World.setEntry_hash, ha, Option.bind_some]
        split_ifs with he
        · rw [he, World.setEntry_heap_self]
        · exact World.setEntry_heap_of_ne he _
      cases hp : s.hash p with
      | none =>
        exact ⟨fun _ => by simp [World.entry, hp], fun pe hpe => by simp [World.entry, hp] at hpe⟩
      | some a =>
        have hs : s.entry p = s.heap a := by simp [World.entry, hp]
        refine ⟨fun hn => ?_, fun pe hpe => ?_⟩
        · rw [hentry a hp]
          split_ifs with he
          · rw [hs, he, hb] at hn
            cases hn
          · rw [← hs, hn]
        · rw [hentry a hp]
          split_ifs with he
          · rw [hs, he, hb, Option.some.injEq] at hpe
            obtain ⟨ds, hds⟩ := hf qe
            exact ⟨ds, by rw [hds, hpe], fun _ _ => rfl⟩
          · exact ⟨pe.dirent, hs ▸ hpe, fun _ _ => rfl⟩

/-- Removing one entry leaves those of the other paths alone. -/
theorem hashRemove (hi : s.Inv) {q : Path} (hne : p ≠ q) : Spares p s (s.hashRemove q) := by
  have hentry : (s.hashRemove q).entry p = s.entry p := by
    simp only [World.entry, World.hashRemove_hash, if_neg hne]
    cases hp : s.hash p with
    | none => rfl
    | some a =>
      have hq : ¬s.hash q = some a := fun hq => hne (hi.addr_inj hp hq)
      simp [World.hashRemove_heap, hq]
  refine ⟨fun hn => hentry.trans hn, fun pe hpe => ⟨pe.dirent, hentry.trans hpe, ?_⟩⟩
  intro fd hfd
  unfold World.hashRemove
  cases hq : s.hash q with
  | none => rfl
  | some b =>
    obtain ⟨qe, hqe, hqp⟩ := hi.entry q b hq
    have hk : qe.fd ≠ some fd := by
      intro hk
      cases hp : s.hash p with
      | none => simp [World.entry, hp] at hpe
      | some a =>
        simp only [World.entry, hp, Option.bind_some] at hpe
        have hab := hi.distinct a b pe qe fd hpe hqe hfd hk
        exact hne (hi.addr_inj hp (hab ▸ hq))
    simp only [World.pentryFree, hqe]
    cases hqf : qe.fd with
    | none => rfl
    | some k =>
      have hkf : fd ≠ k := by
        rintro rfl
        exact hk hqf
      simp [LocalFs.closeOpt, LocalFs.close, LocalFs.content, inodeOf,
        AList.lookup_erase_ne hkf]

end World.Spares

/-- The removal of one path leaves the entries of the others alone. -/
theorem dfsUnlink_spares {cx : Ctx} {env : Env} {s t : World} {path p : Path} {ret : Int}
    (hi : s.Inv) (hne : p ≠ path) (h : dfsUnlink cx env s (.ext path) = .ok (ret, t)) :
    s.Spares p t := by
  rcases dfsUnlink_cases h with ⟨_, _, rfl⟩ | ⟨store, u, _, _, hu, hcase⟩
  · exact .of_eq rfl rfl fun _ => rfl
  · have hsu : s.Spares p u := by
      rw [hu]
      exact .of_eq rfl rfl fun _ => tryUnlink_content _ _ _ _ _
    have hui : u.Inv := by
      rw [hu]
      exact (hi.tryUnlink env _ _).congr rfl rfl rfl rfl
    rcases hcase with ⟨_, _, rfl⟩ | ⟨_, he⟩
    · exact hsu
    · obtain ⟨_, freed, v, _, hv, ht⟩ := unlinkEntry_cases he
      have hv' : u.Spares p v := by
        rw [hv]
        exact (World.Spares.hashRemove hui hne).trans (.of_eq rfl rfl fun _ => rfl)
      rcases ht with ⟨_, rfl⟩ | ⟨parent, _, rfl⟩
      · exact hsu.trans hv'
      · exact hsu.trans (hv'.trans (.onEntry_removeDirent _ _ _ _))

theorem dfsUnlink_store {cx : Ctx} {env : Env} {s t : World} {path : Path} {ret : Int}
    (h : dfsUnlink cx env s (.ext path) = .ok (ret, t)) :
    t.store = (dplUnlink env s.store path).2 := by
  rcases dfsUnlink_cases h with ⟨_, _, rfl⟩ | ⟨store, u, hst, _, hu, hcase⟩
  · rfl
  · have hst' : dplUnlink env s.store path = (.success, store) := hst
    rw [hst']
    have hus : u.store = store := by rw [hu]; rfl
    rcases hcase with ⟨_, _, rfl⟩ | ⟨_, he⟩
    · exact hus
    · obtain ⟨_, freed, v, _, hv, ht⟩ := unlinkEntry_cases he
      have hvs : v.store = store := by
        rw [hv]
        exact (World.hashRemove_store u _).trans hus
      rcases ht with ⟨_, rfl⟩ | ⟨parent, _, rfl⟩
      · exact hvs
      · rw [← hvs]
        unfold World.onEntry
        split
        · split <;> rfl
        · rfl

/-- A rename of a regular file that reports success has put its object under the new name
and has left the new name's entry as it was. -/
theorem dfsRename_file {cx : Ctx} {env : Env} (hok : env.RemoteOk) {s t : World} (hi : s.Inv)
    {old new : Path} (hne : old ≠ new) (habs : new.head? = some '/') {o : Obj}
    (ho : s.store.lookup old = some o) (hreg : s.store.ftype? old = some .reg)
    (h : dfsRename cx env s old new = .ok (0, t)) :
    new ≠ rootPath ∧ t.store.lookup new = some o ∧ t.Inv ∧ s.Spares new t := by
  have hti := dfsRename_inv hi h
  have hroot : old ≠ rootPath := by
    rintro rfl
    simp [Store.ftype?] at hreg
  have hor : o.ftype = .reg := by simpa [Store.ftype?, hroot, ho] using hreg
  have htarget : renameTarget old new = new := by
    rw [renameTarget, if_neg]
    rintro rfl
    simp at habs
  have hnamei : dplNamei env s.store old = (.success, some .reg) := by
    simp [dplNamei, hok.remote, hreg]
  unfold dfsRename at h
  simp only [htarget, hnamei, Option.getD_some] at h
  obtain ⟨⟨r, u⟩, hr, h⟩ := Except.bind_ok.mp h
  simp only [Except.ok.injEq, Prod.mk.injEq] at h
  obtain ⟨h0, rfl⟩ := h
  change renameFile cx env s (.ext old) (.ext new) = .ok (r, u) at hr
  rcases renameFile_cases hr with ⟨rfl, _, _⟩ | ⟨store, v, hcopy, hv, hun⟩
  · simp at h0
  · have hcopy' : dplFcopy env s.store old new = (.success, store) := hcopy
    have hstore : new ≠ rootPath ∧ store = s.store.insert new o := by
      unfold dplFcopy at hcopy'
      by_cases h1 : old = rootPath ∨ s.store.ftype? new = some .dir
      · simp [hok.remote, h1] at hcopy'
      · have hnr : new ≠ rootPath := fun e => h1 (.inr (by simp [Store.ftype?, e]))
        simp only [hok.remote, if_neg h1, ho, hor, reduceCtorEq, if_false, Prod.mk.injEq,
          true_and] at hcopy'
        exact ⟨hnr, hcopy'.symm⟩
    obtain ⟨hnroot, hstore⟩ := hstore
    have hvs : v.store = store ∧ v.Inv ∧ s.Spares new v := by
      have hi' : ({ s with store := store } : World).Inv := hi.congr rfl rfl rfl rfl
      rcases hv with rfl | ⟨dirname, _, rfl⟩
      · exact ⟨rfl, hi', .of_eq rfl rfl fun _ => rfl⟩
      · refine ⟨?_, onEntry_removeDirent_inv hi' _ _,
          World.Spares.trans (t := { s with store := store }) (.of_eq rfl rfl fun _ => rfl)
            (.onEntry_removeDirent _ _ _ _)⟩
        unfold World.onEntry
        split
        · split <;> rfl
        · rfl
    obtain ⟨hvs, hvi, hvsp⟩ := hvs
    have hst := dfsUnlink_store hun
    have hold : v.store.ftype? old = some .reg := by
      rw [hvs, hstore, Store.ftype?, if_neg hroot, AList.lookup_insert_ne hne, ho]
      exact congrArg some hor
    have hdel : (dplUnlink env v.store old).2 = v.store.erase old := by
      simp [dplUnlink, hok.remote, hold]
    refine ⟨hnroot, ?_, hti, hvsp.trans (dfsUnlink_spares hvi (Ne.symm hne) hun)⟩
    rw [hst, hdel, AList.lookup_erase_ne (Ne.symm hne), hvs, hstore, AList.lookup_insert]

/-- What the table and the cache say about a name agrees with an object of that name that
stands for `bytes`. -/
def World.Agrees (cx : Ctx) (s : World) (path : Path) (o : Obj) (bytes : Bytes) : Prop :=
  match s.entry path with
  | none =>
    unpack cx (localName cx path) o.userMeta o.data = some bytes ∧
      o.statedSize = some (bytes.length : Int)
  | some pe =>
    match pe.ondisk with
    | .loc => pe.fd.bind s.fs.content = some bytes
    | .remote => pe.mdLocked = false ∧
        unpack cx (localName cx path) o.userMeta o.data = some bytes ∧
        ∃ md, pe.usermd = some md ∧ mdSize md = bytes.length
    | .unset => pe.mdLocked = false ∧
        unpack cx (localName cx path) o.userMeta o.data = some bytes ∧
        o.statedSize = some (bytes.length : Int)

/-- Opened read-only the path reads as `bytes`, and `dfs_getattr` reports their number. -/
def World.Shows (cx : Ctx) (s : World) (path : Path) (bytes : Bytes) : Prop :=
  ∀ env : Env, env.AllOk →
    (∃ a t, dfsOpen cx env s path ⟨.rdonly, false, false, false⟩ = .ok (0, some a, t) ∧
      t.ReadsAs a bytes) ∧
    ∃ stat t, dfsGetattr env s path = .ok (0, stat, t) ∧ stat.size = bytes.length

theorem World.shows_iff {cx : Ctx} {s : World} (hi : s.Inv) {path : Path} (hr : path ≠ rootPath)
    {o : Obj} (ho : s.store.lookup path = some o) (hd : o.ftype ≠ .dir) (bytes : Bytes) :
    s.Shows cx path bytes ↔ s.Agrees cx path o bytes := by
  have hiff : ∀ env : Env, env.AllOk →
      (((∃ a t, dfsOpen cx env s path ⟨.rdonly, false, false, false⟩ = .ok (0, some a, t) ∧
        t.ReadsAs a bytes) ∧
      ∃ stat t, dfsGetattr env s path = .ok (0, stat, t) ∧ stat.size = bytes.length) ↔
      s.Agrees cx path o bytes) := by
    intro env hok
    rw [dfsOpen_readOnly_iff hok hi rfl ho hd, dfsGetattr_size_iff hok hi hr ho, World.Agrees]
    cases s.entry path with
    | none =>
      simp only [Option.getD_none, pentryNew, reduceCtorEq, if_false, true_and]
    | some pe =>
      simp only [Option.getD_some]
      cases pe.ondisk with
      | loc =>
        simp only [if_true]
        constructor
        · exact fun h => h.1
        · exact fun h => ⟨h, bytes, h, rfl⟩
      | remote =>
        simp only [reduceCtorEq, if_false]
        tauto
      | unset =>
        simp only [reduceCtorEq, if_false]
        tauto
  constructor
  · exact fun h => (hiff _ Env.quiet_allOk).mp (h _ Env.quiet_allOk)
  · exact fun h env hok => (hiff env hok).mpr h

theorem World.Spares.agrees_iff {cx : Ctx} {s t : World} {path : Path} (h : s.Spares path t)
    (o : Obj) (bytes : Bytes) : t.Agrees cx path o bytes ↔ s.Agrees cx path o bytes := by
  unfold World.Agrees
  cases hs : s.entry path with
  | none => rw [h.absent hs]
  | some pe =>
    obtain ⟨ds, ht, hc⟩ := h.present pe hs
    have hcont : pe.fd.bind t.fs.content = pe.fd.bind s.fs.content := by
      cases hfd : pe.fd with
      | none => rfl
      | some fd => exact hc fd hfd
    rw [ht]
    simp only [hcont]

/-- In every reachable state, a rename of a regular file that reports success makes the new
name show the file exactly when what the table and the cache held about the new name
agrees with it. -/
theorem rename_shows_iff (cx : Ctx) (d : Daemon) (hd : d.Reachable cx) (env : Env)
    (hok : env.RemoteOk) (old new : Path) (hne : old ≠ new) (habs : new.head? = some '/')
    (o : Obj) (ho : d.world.store.lookup old = some o)
    (hreg : d.world.store.ftype? old = some .reg) (t : World)
    (h : dfsRename cx env d.world old new = .ok (0, t)) :
    ∀ bytes, d.world.fileBytes cx old = some bytes →
      (t.Shows cx new bytes ↔ d.world.Agrees cx new o bytes) := by
  intro bytes _
  obtain ⟨hnroot, hnew, hti, hsp⟩ := dfsRename_file hok hd.inv hne habs ho hreg h
  have hor : o.ftype ≠ .dir := by
    have hroot : old ≠ rootPath := by
      rintro rfl
      simp [Store.ftype?] at hreg
    have : o.ftype = .reg := by simpa [Store.ftype?, hroot, ho] using hreg
    simp [this]
  rw [World.shows_iff hti hnroot hnew hor, hsp.agrees_iff]

/-- `/f` holds two bytes and `/g` one. -/
def twoFiles : List (Path × Obj) :=
  [(['/', 'f'], Sample.file [1, 2]), (['/', 'g'], Sample.file [9])]

/-- A name the table does not know is taken from the store. -/
theorem rename_shows_new :
    ∃ t, dfsRename Sample.plain Env.quiet (Sample.daemon twoFiles).world ['/', 'f'] ['/', 'g'] =
        .ok (0, t) ∧ t.Shows Sample.plain ['/', 'g'] [1, 2] := by
  refine ⟨_, rfl, (rename_shows_iff Sample.plain _ (Sample.daemon_reachable _ twoFiles) Env.quiet
    Env.quiet_allOk.toRemoteOk ['/', 'f'] ['/', 'g'] (by decide) rfl (Sample.file [1, 2]) rfl rfl _
    rfl [1, 2] rfl).mpr ?_⟩
  exact ⟨rfl, rfl⟩

/-- With `/g` still in the cache from an earlier read, it reads as before the rename. -/
theorem rename_hides_file :
    ∃ d t, Transition.exec (Daemon.step Sample.plain) (Sample.daemon twoFiles)
        [Sample.call (.open ['/', 'g'] Sample.readOnly), Sample.call (.release 0)] = .ok d ∧
      d.world.fileBytes Sample.plain ['/', 'f'] = some [1, 2] ∧
      dfsRename Sample.plain Env.quiet d.world ['/', 'f'] ['/', 'g'] = .ok (0, t) ∧
      ¬t.Shows Sample.plain ['/', 'g'] [1, 2] := by
  refine ⟨_, _, rfl, rfl, rfl, fun h => ?_⟩
  obtain ⟨⟨a, u, ho, hr⟩, _⟩ := h Env.quiet Env.quiet_allOk
  cases ho
  have hread := hr Env.quiet 2 0 rfl
  cases hread

end DropletFs
