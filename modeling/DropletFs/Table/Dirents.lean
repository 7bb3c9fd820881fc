import DropletFs.Rename.Handles
import DropletFs.Table.Lasting

/-! The lists of names against the table: `hash_fill_dirent` adds a path at its first stat, and the
callbacks that free an entry mostly leave it where it was listed. -/

namespace DropletFs

open CText LocalFs

/-- Some entry has the path in its list. -/
def World.Listed (s : World) (q : Path) : Prop := ∃ a dir, s.heap a = some dir ∧ q ∈ dir.dirent

/-- The lists mirror the table. -/
structure World.Mirrors (s : World) : Prop where
  nodup : ∀ key dir, s.entry key = some dir → dir.dirent.Nodup
  entry : ∀ key dir q, s.entry key = some dir → q ∈ dir.dirent → (s.entry q).isSome
  parent : ∀ key dir q, s.entry key = some dir → q ∈ dir.dirent → parentDir q = some key

/-- Every entry of the path is a directory's: its list is one that paths are taken from. -/
def World.DirAt (s : World) (key : Path) : Prop :=
  ∀ a pe, s.heap a = some pe → pe.path = key → pe.filetype = .dir

/-- `rename_file` takes the old path from the list of the directory the new one is in. -/
def World.Delists (s : World) (a b : Path) : Prop :=
  ∃ key, renameDirname b = some key ∧ parentDir a = some key ∧ s.DirAt key

/-- `dfs_unlink` takes the path from its list, or does not come back: it looks the directory up
by the path of the entry it has freed. -/
def World.Forgets (s : World) (env : Env) (p : Path) : Prop :=
  ∀ freed parent, env.stale p = some freed → pentryGetParent (tmpstr freed) = .ok parent →
    ∃ key, parent = some key ∧ parentDir p = some key ∧ s.DirAt key

/-- A rename frees no entry that stays listed. -/
def RenameMirrors (env : Env) (s : World) (old new : Path) : Prop :=
  match (dplNamei env s.store old).2.getD (env.junk old) with
  | .other => True
  | .reg => (dplFcopy env s.store old new).1 = .success →
      (dplUnlink env (dplFcopy env s.store old new).2 old).1 = .success →
      s.Listed old → s.Delists old new ∨ s.Forgets env old
  | .dir => (∀ q, ¬s.Listed q) ∨ old ≠ new ∧ s.store.ftype? old ≠ some .dir ∨
      s.NamesLast old new ∧ ∀ q, s.Listed q → Within old q →
        (∀ o, s.store.lookup q = some o → o.ftype = .dir) ∨ env.Refuses q new ∨ s.Forgets env q

/-- No step frees the entry of a path that stays listed. -/
def KeepsMirror (cx : Ctx) (d : Daemon) (c : Call) : Prop :=
  match c.op with
  | .unlink path => (dplUnlink c.env d.world.store path).1 = .success → d.world.Listed path →
    d.world.Forgets c.env path
  | .rename old new => RenameMirrors c.env d.world old (renameTarget old new)
  | .gc path => ∀ pe, d.world.entry path = some pe → pe.refcount = 0 → pe.locked = false →
    gcRemoves cx c.env d.world.fs pe = true → ¬d.world.Listed path
  | _ => True

/-- The lists in themselves: no path twice, and each in the list of its directory. -/
structure World.Filed (s : World) : Prop where
  nodup : ∀ a dir, s.heap a = some dir → dir.dirent.Nodup
  parent : ∀ a dir q, s.heap a = some dir → q ∈ dir.dirent → parentDir q = some dir.path

/-- The invariant: what is listed has had its first stat, so no second one adds it again. -/
structure World.Lists (s : World) : Prop extends s.Filed where
  known : ∀ q, s.Listed q → ∃ pe, s.entry q = some pe ∧ pe.ondisk ≠ .unset

theorem World.Lists.mirrors {s : World} (hi : s.Inv) (hl : s.Lists) : s.Mirrors := by
  have hent : ∀ key dir, s.entry key = some dir → ∃ a, s.heap a = some dir ∧ dir.path = key := by
    intro key dir he
    obtain ⟨a, hh, ha⟩ := Option.bind_eq_some_iff.mp he
    obtain ⟨pe, hpe, hp⟩ := hi.entry key a hh
    obtain rfl : dir = pe := Option.some.inj (ha.symm.trans hpe)
    exact ⟨a, ha, hp⟩
  refine ⟨fun key dir he => ?_, fun key dir q he hq => ?_, fun key dir q he hq => ?_⟩
  · obtain ⟨a, ha, _⟩ := hent key dir he
    exact hl.nodup a dir ha
  · obtain ⟨a, ha, _⟩ := hent key dir he
    obtain ⟨pe, hpe, _⟩ := hl.known q ⟨a, dir, ha, hq⟩
    rw [hpe]
    rfl
  · obtain ⟨a, ha, hp⟩ := hent key dir he
    rw [← hp]
    exact hl.parent a dir q ha hq

/-- An entry's list is no longer than in `s`, and once known the entry stays so. -/
def Since (s : World) : EntryProp := fun a _ pe =>
  (pe.dirent = [] ∨ ∃ dir, s.heap a = some dir ∧ pe.path = dir.path ∧
    pe.dirent.Sublist dir.dirent) ∧
  ∀ old, s.heap a = some old → old.ondisk ≠ .unset → pe.ondisk ≠ .unset

theorem Since.congr {s : World} {a : Addr} {o o' : Option Obj} {pe pe' : Entry}
    (h : Since s a o pe) (hp : pe'.path = pe.path) (hd : pe'.dirent.Sublist pe.dirent)
    (ho : pe.ondisk ≠ .unset → pe'.ondisk ≠ .unset) : Since s a o' pe' := by
  refine ⟨?_, fun old ha hold => ho (h.2 old ha hold)⟩
  rcases h.1 with hnil | ⟨dir, ha, hpath, hsub⟩
  · rw [hnil] at hd
    exact .inl (List.sublist_nil.mp hd)
  · exact .inr ⟨dir, ha, hp.trans hpath, hd.trans hsub⟩

theorem Since.steady (s : World) : Steady (Since s) where
  removed _ h := h.congr rfl (List.erase_sublist ..) id
  atime _ h := h.congr rfl (List.Sublist.refl _) id
  locked _ _ h := h.congr rfl (List.Sublist.refl _) id

theorem Since.self (s : World) : s.All (Since s) := by
  intro a pe ha
  refine ⟨.inr ⟨pe, ha, rfl, List.Sublist.refl _⟩, fun old hold ho => ?_⟩
  obtain rfl : pe = old := Option.some.inj (ha.symm.trans hold)
  exact ho

theorem Since.fresh {env : Env} {s : World} (hi : s.Inv) (o : Option Obj) (path : Path)
    (type : TPathType) :
    Since s s.brk o (pentryNew env path type) := by
  refine ⟨.inl rfl, fun old ha => ?_⟩
  rw [hi.brk_free] at ha
  cases ha

section

variable {s t : World}

/-- What is listed was listed before. -/
theorem World.All.listed (hall : t.All (Since s)) {q : Path} (hq : t.Listed q) : s.Listed q := by
  obtain ⟨a, dir, ha, hmem⟩ := hq
  rcases (hall a dir ha).1 with hnil | ⟨old, hold, _, hsub⟩
  · rw [hnil] at hmem
    cases hmem
  · exact ⟨a, old, hold, hsub.subset hmem⟩

theorem World.Filed.keep (hl : s.Filed) (hall : t.All (Since s)) : t.Filed := by
  refine ⟨fun a dir ha => ?_, fun a dir q ha hq => ?_⟩
  · rcases (hall a dir ha).1 with hnil | ⟨old, hold, _, hsub⟩
    · rw [hnil]
      exact List.nodup_nil
    · exact (hl.nodup a old hold).sublist hsub
  · rcases (hall a dir ha).1 with hnil | ⟨old, hold, hp, hsub⟩
    · rw [hnil] at hq
      cases hq
    · rw [hp]
      exact hl.parent a old q hold (hsub.subset hq)

/-- Shorter lists of paths that still have their entries. -/
theorem World.Lists.keep (hl : s.Lists) (hall : t.All (Since s))
    (hstay : ∀ q pe, t.Listed q → s.entry q = some pe → pe.ondisk ≠ .unset →
      ∃ pe', t.entry q = some pe' ∧ pe'.ondisk ≠ .unset) : t.Lists := by
  refine ⟨hl.toFiled.keep hall, fun q hq => ?_⟩
  obtain ⟨pe, hpe, ho⟩ := hl.known q (hall.listed hq)
  exact hstay q pe hq hpe ho

/-- A step that frees nothing. -/
theorem World.Lists.stay (hl : s.Lists) (hi : s.Inv) (ht : t.Inv)
    (hk : ∀ a pe, s.heap a = some pe → ∃ pe', t.heap a = some pe' ∧ pe'.path = pe.path)
    (hall : t.All (Since s)) : t.Lists := by
  apply hl.keep hall
  intro q pe _ hq ho
  obtain ⟨a, hh, ha⟩ := Option.bind_eq_some_iff.mp hq
  obtain ⟨old, hold, hp⟩ := hi.entry q a hh
  obtain rfl : pe = old := Option.some.inj (ha.symm.trans hold)
  obtain ⟨pe', ha', hp'⟩ := hk a pe ha
  refine ⟨pe', ?_, (hall a pe' ha').2 pe ha ho⟩
  have hlink := ht.linked a pe' ha'
  rw [hp', hp] at hlink
  rw [World.entry, hlink, Option.bind_some, ha']

theorem World.Lists.keeps (hl : s.Lists) (hi : s.Inv) (ht : t.Inv) (hk : s.Keeps t)
    (hall : t.All (Since s)) : t.Lists := by
  apply hl.stay hi ht ?_ hall
  intro a pe ha
  obtain ⟨pe', ha', hp, _⟩ := hk a pe ha
  exact ⟨pe', ha', hp⟩

theorem World.Lists.of_eq (hl : s.Lists) (hh : t.heap = s.heap) (hhash : t.hash = s.hash) :
    t.Lists := by
  have hlisted : ∀ q, t.Listed q → s.Listed q := by
    rintro q ⟨a, dir, ha, hq⟩
    exact ⟨a, dir, hh ▸ ha, hq⟩
  refine ⟨⟨fun a dir ha => hl.nodup a dir (hh ▸ ha),
    fun a dir q ha => hl.parent a dir q (hh ▸ ha)⟩, fun q hq => ?_⟩
  have he : t.entry q = s.entry q := by rw [World.entry, World.entry, hh, hhash]
  rw [he]
  exact hl.known q (hlisted q hq)

/-- A step that frees the entry of one path, which is not listed. -/
theorem World.Lists.spares (hl : s.Lists) (hall : t.All (Since s)) {p : Path}
    (hno : ¬t.Listed p) (hsp : ∀ q, q ≠ p → s.Spares q t) : t.Lists := by
  apply hl.keep hall
  intro q pe hq he ho
  have hne : q ≠ p := by
    intro heq
    exact hno (heq ▸ hq)
  obtain ⟨ds, ht, _⟩ := (hsp q hne).present pe he
  exact ⟨_, ht, ho⟩

end

section Steps

variable {cx : Ctx} {env : Env} {d : Daemon} {s t w : World} {path : Path} {ret : Int}

/-- A path is added to the list of its directory. -/
theorem hashFillDirent_lists (hi : s.Inv) (hl : s.Lists) (hno : ¬s.Listed path)
    (hpe : ∃ pe, s.entry path = some pe ∧ pe.ondisk ≠ .unset) :
    (hashFillDirent s path).Lists := by
  unfold hashFillDirent
  cases hd : beforeLastSlash path with
  | none => exact hl
  | some d =>
    dsimp only
    unfold World.onEntry
    cases hh : s.hash (if d = [] then rootPath else d) with
    | none => exact hl
    | some b =>
      dsimp only
      cases hb : s.heap b with
      | none => exact hl
      | some dir =>
        have hparent : parentDir path = some dir.path := by
          obtain ⟨re, hre, hp⟩ := hi.entry _ b hh
          obtain rfl : dir = re := Option.some.inj (hb.symm.trans hre)
          rw [parentDir, hd, hp]
          rfl
        have hcase : ∀ a re, (s.setEntry b (pentryAddDirent dir path)).heap a = some re →
            a = b ∧ re = pentryAddDirent dir path ∨ s.heap a = some re := by
          intro a re ha
          by_cases he : a = b
          · rw [he, World.setEntry_heap_self, Option.some.injEq] at ha
            exact .inl ⟨he, ha.symm⟩
          · rw [World.setEntry_heap_of_ne he] at ha
            exact .inr ha
        have hknown : ∀ q pe, s.entry q = some pe → pe.ondisk ≠ .unset →
            ∃ pe', (s.setEntry b (pentryAddDirent dir path)).entry q = some pe' ∧
              pe'.ondisk ≠ .unset := by
          intro q pe hq ho
          obtain ⟨a, ha, hpe⟩ := Option.bind_eq_some_iff.mp hq
          rw [World.entry, World.setEntry_hash, ha, Option.bind_some]
          by_cases he : a = b
          · subst he
            obtain rfl : pe = dir := Option.some.inj (hpe.symm.trans hb)
            exact ⟨_, World.setEntry_heap_self s a _, ho⟩
          · exact ⟨pe, (World.setEntry_heap_of_ne he _).trans hpe, ho⟩
        refine ⟨⟨fun a re ha => ?_, fun a re q ha hq => ?_⟩, fun q hq => ?_⟩
        · rcases hcase a re ha with ⟨_, rfl⟩ | hold
          · exact List.nodup_cons.mpr ⟨fun hm => hno ⟨b, dir, hb, hm⟩, hl.nodup b dir hb⟩
          · exact hl.nodup a re hold
        · rcases hcase a re ha with ⟨_, rfl⟩ | hold
          · rcases List.mem_cons.mp hq with rfl | hq
            · exact hparent
            · exact hl.parent b dir q hb hq
          · exact hl.parent a re q hold hq
        · have hold : q = path ∨ s.Listed q := by
            obtain ⟨a, re, ha, hm⟩ := hq
            rcases hcase a re ha with ⟨_, rfl⟩ | hold
            · exact (List.mem_cons.mp hm).imp id fun hm => ⟨b, dir, hb, hm⟩
            · exact .inr ⟨a, re, hold, hm⟩
          rcases hold with rfl | hold
          · obtain ⟨pe, hq, ho⟩ := hpe
            exact hknown q pe hq ho
          · obtain ⟨pe, hq, ho⟩ := hl.known q hold
            exact hknown q pe hq ho

theorem dfsGetattr_lists {st : Stat} (hi : s.Inv) (hl : s.Lists)
    (h : dfsGetattr env s path = .ok (ret, st, t)) : t.Lists := by
  have hstat : ∀ a o dict, path ≠ rootPath → Stated env s.store path o →
      (s.entryOr env path (env.rawType path)).ondisk = .unset →
      s.hash path = none ∧ a = s.brk ∨
        Since s a (some o) (s.entryOr env path (env.rawType path)) →
      Since s a (some o) { s.entryOr env path (env.rawType path) with
        usermd := keptUsermd env dict, filetype := .reg, ondisk := .remote,
        mdLocked := false } := by
    intro a o dict _ _ hu hold
    have hpe : Since s a (some o) (s.entryOr env path (env.rawType path)) := by
      rcases hold with ⟨hn, rfl⟩ | hpe
      · rw [World.entryOr_new hn]
        exact Since.fresh hi _ path _
      · exact hpe
    exact hpe.congr rfl (List.Sublist.refl _) fun ho => (ho hu).elim
  obtain ⟨w, hiw, hk, hall, hcase⟩ := dfsGetattr_filled (Since.steady s) hi (Since.self s)
    (fun _ => Since.fresh hi _ path _) hstat h
  have hw := hl.keeps hi hiw hk hall
  rcases hcase with rfl | ⟨_, _, hu, hrem, rfl⟩
  · exact hw
  · obtain ⟨pe, hpe, ho⟩ := Option.map_eq_some_iff.mp hrem
    refine hashFillDirent_lists hiw hw (fun hq => ?_) ⟨pe, hpe, by rw [ho]; decide⟩
    -- a listed path has had its first stat
    obtain ⟨old, hold, hne⟩ := hl.known path (hall.listed hq)
    rw [World.entryOr, hold] at hu
    exact hne hu

/-- The path is gone from the one list it can be in. -/
theorem World.Filed.delists {a key : Path} (hi : s.Inv) (hl : s.Filed)
    (hpar : parentDir a = some key) (hdir : s.DirAt key) :
    ¬(s.onEntry key fun dir => pentryRemoveDirent dir a).Listed a := by
  have hall := (Since.self s).removeDirent (Since.steady s).removable key a
  intro hq
  obtain ⟨c₀, dir, hc₀, hmem₀⟩ := hall.listed hq
  have hlist : ∀ c dir, s.heap c = some dir → a ∈ dir.dirent → s.hash key = some c := by
    intro c dir hc hm
    have hp := hl.parent c dir a hc hm
    rw [hpar, Option.some.injEq] at hp
    rw [hp]
    exact hi.linked c dir hc
  have hh := hlist c₀ dir hc₀ hmem₀
  obtain ⟨c, re, hc, hmem⟩ := hq
  rw [World.onEntry, hh] at hc
  dsimp only at hc
  rw [hc₀] at hc
  by_cases hce : c = c₀
  · subst hce
    rw [World.setEntry_heap_self, Option.some.injEq] at hc
    have hp := hl.parent c dir a hc₀ hmem₀
    rw [hpar, Option.some.injEq] at hp
    rw [← hc, pentryRemoveDirent, if_pos (hdir c dir hc₀ hp.symm)] at hmem
    exact (hl.nodup c dir hc₀).not_mem_erase hmem
  · rw [World.setEntry_heap_of_ne hce] at hc
    exact hce (Option.some.inj ((hlist c re hc hmem).symm.trans hh))

theorem dfsUnlink_lists (hi : s.Inv) (hl : s.Lists)
    (hg : (dplUnlink env s.store path).1 = .success → s.Listed path → s.Forgets env path)
    (h : dfsUnlink cx env s (.ext path) = .ok (ret, t)) : t.Lists := by
  have hall := dfsUnlink_all (Since.steady s).removable hi (Since.self s) h
  rcases dfsUnlink_cases h with ⟨_, _, rfl⟩ | ⟨store, u, hst, _, hu, hcase⟩
  · exact hl.of_eq rfl rfl
  · have hok : (dplUnlink env s.store path).1 = .success := congrArg Prod.fst hst
    refine hl.spares hall (fun hq => ?_) fun q hq => dfsUnlink_spares hi hq h
    have hlisted := hall.listed hq
    obtain ⟨known, hknown, _⟩ := hl.known path hlisted
    have hui : u.Inv := by
      rw [hu]
      exact (hi.tryUnlink env _ _).congr rfl rfl rfl rfl
    have huh : u.heap = s.heap := by
      rw [hu]
      rfl
    rcases hcase with ⟨_, hn, _⟩ | ⟨_, he⟩
    · obtain ⟨a, hh, _⟩ := Option.bind_eq_some_iff.mp hknown
      have hn' : s.hash path = none := hn
      rw [hn'] at hh
      cases hh
    · obtain ⟨_, freed, v, hstale, hv, ht⟩ := unlinkEntry_cases he
      have hvi : v.Inv := by
        rw [hv]
        exact (hui.hashRemove _).congr rfl rfl rfl rfl
      have hvh : ∀ a pe, v.heap a = some pe → s.heap a = some pe := by
        intro a pe ha
        rw [hv] at ha
        change (u.hashRemove _).heap a = some pe at ha
        rw [World.hashRemove_heap] at ha
        split_ifs at ha
        rwa [huh] at ha
      rcases ht with ⟨hnone, _⟩ | ⟨parent, hsome, rfl⟩
      · obtain ⟨_, hk, _⟩ := hg hok hlisted freed _ hstale hnone
        cases hk
      · obtain ⟨key, hk, hpar, hdir⟩ := hg hok hlisted freed _ hstale hsome
        obtain rfl : parent = key := Option.some.inj hk
        have hfiled : v.Filed := ⟨fun a dir ha => hl.nodup a dir (hvh a dir ha),
          fun a dir q ha => hl.parent a dir q (hvh a dir ha)⟩
        exact hfiled.delists hvi hpar (fun a pe ha => hdir a pe (hvh a pe ha)) hq

/-- Lists grow shorter and directories stay directories. -/
theorem World.Forgets.of_heap {p : Path} (hf : s.Forgets env p)
    (hdir : ∀ key, s.DirAt key → t.DirAt key) : t.Forgets env p := by
  intro freed parent hstale hpar
  obtain ⟨key, hk, hp, hd⟩ := hf freed parent hstale hpar
  exact ⟨key, hk, hp, hdir key hd⟩

def AtDir (key : Path) : EntryProp := fun _ _ pe => pe.path = key → pe.filetype = .dir

theorem AtDir.steady (key : Path) : Steady (AtDir key) :=
  ⟨fun _ h => h, fun _ h => h, fun _ _ h => h⟩

theorem renameFile_lists {a b : Path} (hi : s.Inv) (hl : s.Lists)
    (hg : (dplFcopy env s.store a b).1 = .success →
      (dplUnlink env (dplFcopy env s.store a b).2 a).1 = .success → s.Listed a →
      s.Delists a b ∨ s.Forgets env a)
    (h : renameFile cx env s (.ext a) (.ext b) = .ok (ret, t)) :
    t.Lists ∧ ∀ q, t.Listed q → s.Listed q := by
  have hall := renameFile_all (Since.steady s).removable hi (Since.self s)
    (fun _ _ _ _ _ hpe => hpe) h
  refine ⟨?_, fun q hq => hall.listed hq⟩
  cases hc : dplFcopy env s.store a b with
  | mk rc store =>
    by_cases hrc : rc = .success
    swap
    · rcases renameFile_cases h with ⟨_, _, rfl⟩ | ⟨store', _, hst, _⟩
      · exact hl.of_eq rfl rfl
      · have hst' : dplFcopy env s.store a b = (.success, store') := hst
        rw [hc, Prod.mk.injEq] at hst'
        exact (hrc hst'.1).elim
    subst hrc
    rw [hc] at hg
    have hcopy : ({ s with store := store } : World).Inv := hi.congr rfl rfl rfl rfl
    have hlc : ({ s with store := store } : World).Lists := hl.of_eq rfl rfl
    unfold renameFile at h
    simp only [World.text, Str.read, hc] at h
    cases hkey : renameDirname b with
    | none =>
      rw [hkey] at h
      refine dfsUnlink_lists hcopy hlc (fun hok hq => ?_) h
      rcases hg rfl hok hq with ⟨key, hkey', _⟩ | hf
      · rw [hkey] at hkey'
        cases hkey'
      · exact hf
    | some key =>
      rw [hkey] at h
      have hui := onEntry_removeDirent_inv hcopy key a
      have hul : (({ s with store := store } : World).onEntry key
          fun dir => pentryRemoveDirent dir a).Lists :=
        hlc.keeps hcopy hui (onEntry_removeDirent_keeps _ _ _)
          ((Since.self _).removeDirent (Since.steady _).removable key a)
      refine dfsUnlink_lists hui hul (fun hok hq => ?_) h
      rw [(World.onEntry_rest _ _ _).1] at hok
      have hq' : ({ s with store := store } : World).Listed a :=
        ((Since.self _).removeDirent (Since.steady _).removable key a).listed hq
      rcases hg rfl hok hq' with ⟨key', hkey', hpar, hdir⟩ | hf
      · obtain rfl : key = key' := Option.some.inj (hkey.symm.trans hkey')
        exact (hlc.toFiled.delists hcopy hpar hdir hq).elim
      · have hf' : ({ s with store := store } : World).Forgets env a := hf
        apply hf'.of_heap
        intro dir hd
        exact World.All.removeDirent (P := AtDir dir) hd (AtDir.steady dir).removable key a

/-- The parts of a rename that free nothing. -/
theorem dfsMkdir_lists (hi : s.Inv) (hl : s.Lists) :
    (dfsMkdir env s path).2.Lists ∧ ∀ q, (dfsMkdir env s path).2.Listed q → s.Listed q := by
  have hmk : (dfsMkdir env s path).2.Inv ∧ s.Keeps (dfsMkdir env s path).2 := dfsMkdir_inv hi
  have hall : (dfsMkdir env s path).2.All (Since s) := by
    apply dfsMkdir_all hi (Since.self s)
    · exact fun _ _ _ _ hpe => hpe.congr rfl (List.Sublist.refl _) id
    · exact fun _ => Since.fresh hi _ path .dir
  exact ⟨hl.keeps hi hmk.1 hmk.2 hall, fun q hq => hall.listed hq⟩

theorem dfsRmdir_lists (hi : s.Inv) (hl : s.Lists)
    (h : dfsRmdir cx env s (.ext path) = .ok (ret, t)) :
    t.Lists ∧ ∀ q, t.Listed q → s.Listed q := by
  obtain ⟨hti, hk⟩ := dfsRmdir_inv hi h
  have hall := dfsRmdir_all (Since.steady s).removable (Since.self s)
    (fun _ _ _ _ _ _ _ _ hpe => hpe.congr rfl (List.Sublist.refl _) id) h
  exact ⟨hl.keeps hi hti hk hall, fun q hq => hall.listed hq⟩

/-- A listed path that a directory's rename comes across is no file, or stays, or is forgotten. -/
def World.Unmoved (s : World) (env : Env) (o n : Path) : Prop :=
  ∀ q, s.Listed q → Within o q →
    (∀ obj, s.store.lookup q = some obj → obj.ftype = .dir) ∨ env.Refuses q n ∨ s.Forgets env q

theorem World.Unmoved.step {o n : Path} (h : s.Unmoved env o n)
    (hlisted : ∀ q, t.Listed q → s.Listed q)
    (hst : ∀ q obj, Within o q → t.store.lookup q = some obj → s.store.lookup q = some obj)
    (hdir : ∀ key, s.DirAt key → t.DirAt key) : t.Unmoved env o n := by
  intro q hq hw
  refine (h q (hlisted q hq) hw).imp (fun hd obj hobj => hd obj (hst q obj hw hobj)) ?_
  exact Or.imp id fun hf => hf.of_heap hdir

theorem lookup_of_erase {st : Store} {p q : Path} {o : Obj}
    (h : (st.erase p).lookup q = some o) : st.lookup q = some o := by
  by_cases he : q = p
  · rw [he, AList.lookup_erase] at h
    cases h
  · rwa [AList.lookup_erase_ne he] at h

/-- What a rename keeps of the entries, whatever the objects are. -/
theorem World.All.renameSteps {P : EntryProp} (hP : Steady P)
    (hobj : ∀ a o o' pe, P a o pe → P a o' pe)
    (hmk : ∀ a o pe, P a o pe → P a o { pe with filetype := .dir })
    (hnew : ∀ a o q, P a o (pentryNew env q .dir)) :
    RenameSteps cx env fun t => t.Inv ∧ t.All P := by
  refine ⟨?_, ?_, ?_, ?_⟩
  · intro u ring cwd trace ⟨hi, hs⟩
    exact ⟨hi.congr rfl rfl rfl rfl, hs.of_eq rfl rfl⟩
  · intro u q ⟨hi, hs⟩
    refine ⟨(dfsMkdir_inv hi).1, dfsMkdir_all hi hs ?_ fun _ => hnew _ _ q⟩
    exact fun a pe _ _ h => hmk a _ pe (hobj a _ _ pe h)
  · intro u p q ret v ⟨hi, hs⟩ h
    exact ⟨renameFile_inv hi h, renameFile_all hP.removable hi hs
      (fun a pe o _ _ => hobj a _ _ pe) h⟩
  · intro u p ret v ⟨hi, hs⟩ h
    exact ⟨(dfsRmdir_inv hi h).1, dfsRmdir_all hP.removable hs
      (fun a pe o _ _ _ _ _ => hobj a _ _ pe) h⟩

theorem AtDir.steps (key : Path) : RenameSteps cx env fun t => t.Inv ∧ t.All (AtDir key) := by
  apply World.All.renameSteps (AtDir.steady key)
  · exact fun _ _ _ _ h => h
  · exact fun _ _ _ _ _ => rfl
  · exact fun _ _ _ _ => rfl

/-- Below the old directory a rename only removes. -/
theorem mirrorSteps {o n : Path} (hsep : Separate o n) :
    MoveSteps cx env o n fun t => t.Inv ∧ t.Lists ∧ t.Unmoved env o n := by
  have hout : ∀ {q r}, Within n q → Within o r → r ≠ q := by
    intro q r hn ho he
    exact hsep.not_both ho (he ▸ hn)
  refine ⟨?_, ?_, ?_, ?_⟩
  · intro u ring cwd trace ⟨hi, hl, hm⟩
    exact ⟨hi.congr rfl rfl rfl rfl, hl.of_eq rfl rfl, hm⟩
  · intro u q hq ⟨hi, hl, hm⟩
    have hmk : (dfsMkdir env u q).2.Lists ∧ ∀ r, (dfsMkdir env u q).2.Listed r → u.Listed r :=
      dfsMkdir_lists hi hl
    have hdirs : ∀ key, u.DirAt key → (dfsMkdir env u q).2.DirAt key := by
      intro key hd
      apply dfsMkdir_all (P := AtDir key) hi hd
      · exact fun _ _ _ _ _ _ => rfl
      · exact fun _ _ => rfl
    refine ⟨(dfsMkdir_inv hi).1, hmk.1, hm.step hmk.2 ?_ hdirs⟩
    intro r obj hr hobj
    rw [(dfsMkdir_effect env u q).1, (Store.changed_mkdir env u.store q).lookup (hout hq hr)]
      at hobj
    exact hobj
  · intro u a b ret v ha hb ⟨hi, hl, hm⟩ h
    have hg : (dplFcopy env u.store a b).1 = .success →
        (dplUnlink env (dplFcopy env u.store a b).2 a).1 = .success →
        u.Listed a → u.Delists a b ∨ u.Forgets env a := by
      intro hc hun hq
      -- a listed file is not moved, unless it is forgotten
      rcases hm a hq ha with hd | hr | hf
      · rcases dplFcopy_cases env u.store a b with ⟨hno, _⟩ | ⟨_, _, _, obj, hobj, hne, _⟩
        · exact (hno hc).elim
        · exact (hne (hd obj hobj)).elim
      · rcases hr with hr | hr
        · exact (hr (dplUnlink_success hun)).elim
        · exact (hr b hb (dplFcopy_success hc)).elim
      · exact .inr hf
    obtain ⟨hlv, hlisted⟩ := renameFile_lists hi hl hg h
    refine ⟨renameFile_inv hi h, hlv, hm.step hlisted ?_ fun key hd =>
      ((AtDir.steps key).file u (.ext a) (.ext b) ret v ⟨hi, hd⟩ h).2⟩
    intro r obj hr hobj
    have hcopy : (dplFcopy env u.store a b).2.lookup r = u.store.lookup r :=
      (Store.changed_fcopy env u.store a b).lookup (hout hb hr)
    rcases (renameFile_effect h).1 with hst | hst
    · rw [hst, hcopy] at hobj
      exact hobj
    · rw [← hcopy]
      rw [hst] at hobj
      rcases dplUnlink_cases env (dplFcopy env u.store a b).2 a with ⟨_, hsame⟩ | ⟨_, _, _, hok⟩
      · rwa [hsame] at hobj
      · rw [hok] at hobj
        exact lookup_of_erase hobj
  · intro u a ret v ha ⟨hi, hl, hm⟩ h
    obtain ⟨hlv, hlisted⟩ := dfsRmdir_lists hi hl h
    refine ⟨(dfsRmdir_inv hi h).1, hlv, hm.step hlisted ?_ fun key hd =>
      ((AtDir.steps key).rmdir u (.ext a) ret v ⟨hi, hd⟩ h).2⟩
    intro r obj hr hobj
    rw [(dfsRmdir_effect h).1] at hobj
    rcases dplRmdir_cases env u.store a with ⟨_, hsame⟩ | ⟨_, _, _, _, hok⟩
    · rwa [hsame] at hobj
    · rw [hok] at hobj
      exact lookup_of_erase hobj

/-- Lists that are all empty stay so. -/
theorem World.lists_of_empty (h : s.All fun _ _ pe => pe.dirent = []) : s.Lists := by
  refine ⟨⟨fun a dir ha => ?_, fun a dir q ha hq => ?_⟩, fun q hq => ?_⟩
  · have hd : dir.dirent = [] := h a dir ha
    rw [hd]
    exact List.nodup_nil
  · have hd : dir.dirent = [] := h a dir ha
    rw [hd] at hq
    cases hq
  · obtain ⟨a, dir, ha, hq⟩ := hq
    have hd : dir.dirent = [] := h a dir ha
    rw [hd] at hq
    cases hq

theorem emptySteps : RenameSteps cx env fun t => t.Inv ∧ t.All fun _ _ pe => pe.dirent = [] := by
  apply World.All.renameSteps ⟨fun name h => by rw [h]; rfl, fun _ h => h, fun _ _ h => h⟩
  · exact fun _ _ _ _ h => h
  · exact fun _ _ _ h => h
  · exact fun _ _ _ => rfl

theorem renameDirectory_lists {old new : Path} (hi : s.Inv) (hl : s.Lists)
    (hc : (∀ q, ¬s.Listed q) ∨ old ≠ new ∧ s.store.ftype? old ≠ some .dir ∨
      s.NamesLast old new ∧ ∀ q, s.Listed q → Within old q →
        (∀ o, s.store.lookup q = some o → o.ftype = .dir) ∨ env.Refuses q new ∨ s.Forgets env q)
    (h : renameDirectory cx env env.stack s (.ext old) (.ext new) = .ok (ret, t)) : t.Lists := by
  rcases hc with hnone | ⟨hne, hdir⟩ | ⟨⟨hroot, f, hch, hr⟩, hno⟩
  · apply World.lists_of_empty
    have hempty : s.All fun _ _ pe => pe.dirent = [] := by
      intro a pe ha
      by_contra hd
      obtain ⟨q, hq⟩ := List.exists_mem_of_ne_nil _ hd
      exact hnone q ⟨a, pe, ha, hq⟩
    exact (renameDirectory_keeps emptySteps _ _ _ _ _ _ ⟨hi, hempty⟩ h).2
  · have hend : t.Inv ∧ t.Lists := by
      apply renameDirectory_refused ?_ ?_ hne hdir ⟨hi, hl⟩ h
      · exact fun u _ _ _ ⟨hi, hl⟩ => ⟨hi.congr rfl rfl rfl rfl, hl.of_eq rfl rfl⟩
      · exact fun u ⟨hi, hl⟩ => ⟨(dfsMkdir_inv hi).1, (dfsMkdir_lists hi hl).1⟩
    exact hend.2
  · obtain ⟨he, hkeep⟩ := renameDirectory_agree cx env env.stack hr hroot hch
    rw [he] at h
    exact ((hkeep ret t h).2 _ (mirrorSteps hr.separate) ⟨hi, hl, hno⟩).2.1

theorem dfsRename_lists {old new : Path} (hi : s.Inv) (hl : s.Lists)
    (hc : RenameMirrors env s old (renameTarget old new))
    (h : dfsRename cx env s old new = .ok (ret, t)) : t.Lists := by
  rcases dfsRename_cases h with ⟨_, _, rfl⟩ | ⟨ht, r, _, hr⟩ | ⟨ht, r, _, hr⟩
  · exact hl
  · rw [RenameMirrors, ht] at hc
    exact (renameFile_lists hi hl hc hr).1
  · rw [RenameMirrors, ht] at hc
    exact renameDirectory_lists hi hl hc hr

theorem gcCallback_lists (hi : s.Inv) (hl : s.Lists)
    (hg : ∀ pe, s.entry path = some pe → pe.refcount = 0 → pe.locked = false →
      gcRemoves cx env s.fs pe = true → ¬s.Listed path) : (gcCallback cx env s path).Lists := by
  have hall : (gcCallback cx env s path).All (Since s) := gcCallback_all (Since.self s)
  rcases gcCallback_cases cx env s path with h | ⟨pe, he, hrc, hlk, hgc, h⟩
  · rwa [h]
  · have hno := hg pe he hrc hlk hgc
    rw [h] at hall ⊢
    refine hl.spares hall (fun hq => hno (hall.listed hq)) fun q hq => ?_
    have hfs := hi.tryUnlink env .unlinkGc (slashName cx path)
    have hspares : s.Spares q { s with fs := s.fs.tryUnlink env .unlinkGc (slashName cx path) } :=
      .of_eq rfl rfl fun _ => tryUnlink_content _ _ _ _ _
    exact hspares.trans (.hashRemove hfs hq)

theorem dfsOpen_lists {flags : OpenFlags} {fh : Option Addr} (hi : s.Inv) (hl : s.Lists)
    (h : dfsOpen cx env s path flags = .ok (ret, fh, t)) : t.Lists := by
  obtain ⟨hti, hk, _⟩ := dfsOpen_inv hi h
  have hnew : s.hash path = none → Since s s.brk (s.store.lookup path) (pentryNew env path .reg) :=
    fun _ => Since.fresh hi _ path .reg
  refine hl.keeps hi hti hk (dfsOpen_all hi (Since.self s) hnew ?_ h).1
  intro a qe fs hm hpe
  have hs := openMode_spec hi.wf hm
  have hd : qe.dirent = (s.entryOr env path .reg).dirent := by
    rw [hs.fields]
    rfl
  split_ifs
  · exact hpe.congr hs.update.path (by rw [hd]) (by rw [hs.ondisk]; exact id)
  · exact hpe.congr hs.update.path (by simp [hd]) (fun _ => by simp)

theorem dfsCreate_lists {mode : Nat} {flags : OpenFlags} {fh : Option Addr} (hi : s.Inv)
    (hl : s.Lists) (h : dfsCreate cx env s path mode flags = .ok (ret, fh, t)) : t.Lists := by
  obtain ⟨hti, hk, _⟩ := dfsCreate_inv hi h
  have hnew : s.hash path = none → Since s s.brk (s.store.lookup path) (pentryNew env path .reg) :=
    fun _ => Since.fresh hi _ path .reg
  apply hl.keeps hi hti hk
  apply dfsCreate_all hi (Since.self s) hnew ?_ ?_ h
  · intro a qe fs hm hpe
    have hs := openMode_spec hi.wf hm
    have hd : qe.dirent = (s.entryOr env path .reg).dirent := by
      rw [hs.fields]
      rfl
    exact hpe.congr hs.update.path (by rw [hd]) (by rw [hs.ondisk]; exact id)
  · intro a r qe fs pe' fs' st _ hm hc hpe
    have hs := openMode_spec hi.wf hm
    obtain ⟨md, l, rfl, _⟩ := createOpened_spec hs.update.wf hc
    have hd : qe.dirent = (s.entryOr env path .reg).dirent := by
      rw [hs.fields]
      rfl
    exact hpe.congr hs.update.path (by simp [hd]) (fun _ => by simp)

theorem setAttributes_lists {upd : Dict → Dict} {change : LocalFs → Nat → LocalFs}
    {call : SysCall} (hi : s.Inv) (hti : t.Inv ∧ s.Keeps t) (hl : s.Lists)
    (h : setAttributes env s path upd change call = .ok (ret, t)) : t.Lists := by
  apply hl.keeps hi hti.1 hti.2
  apply setAttributes_all hi (Since.self s) ?_ h
  exact fun _ _ _ _ _ _ _ hpe => hpe.congr rfl (List.Sublist.refl _) id

/-- A step that meets the condition keeps the lists in order. -/
theorem Calls.lists {d' : Daemon} {op : Op} (hi : d.world.Inv) (hl : d.world.Lists)
    (hg : KeepsMirror cx d ⟨op, env⟩) (h : Calls cx env d op ret d') : d'.world.Lists := by
  cases h with
  | getattr h => exact dfsGetattr_lists hi hl h
  | opened h => exact dfsOpen_lists hi hl h
  | openFailed _ h => exact dfsOpen_lists hi hl h
  | created h => exact dfsCreate_lists hi hl h
  | createFailed _ h => exact dfsCreate_lists hi hl h
  | read => exact hl
  | written _ _ h =>
    obtain ⟨_, _, ⟨rfl, _⟩ | ⟨_, _, _, _, _, _, rfl⟩⟩ := dfsWrite_cases h
    · exact hl
    · exact hl.of_eq rfl rfl
  | notWritten _ => exact hl
  | released _ h =>
    obtain ⟨hti, hk⟩ := dfsRelease_inv hi h
    apply hl.stay hi hti
    · intro a pe ha
      obtain ⟨pe', ha', hp, _⟩ := hk a pe ha
      exact ⟨pe', ha', hp⟩
    · apply dfsRelease_all hi (Since.self _) ?_ (fun _ _ _ _ _ hpe => hpe) h
      intro pe pe' fs st _ hr hpe
      have hs := releaseEntry_spec hi.wf hr
      exact hpe.congr hs.update.path (by rw [hs.fields]) (by rw [hs.fields]; exact id)
  | notReleased => exact hl
  | unlink h => exact dfsUnlink_lists hi hl hg h
  | rename h => exact dfsRename_lists hi hl hg h
  | rmdir h => exact (dfsRmdir_lists hi hl h).1
  | mkdir => exact (dfsMkdir_lists hi hl).1
  | mknod =>
    apply hl.of_eq (dfsMknod_puts env d.world _).2
    unfold dfsMknod
    split <;> rfl
  | symlink h =>
    obtain ⟨st, rfl⟩ := dfsSymlink_cases h
    exact hl.of_eq rfl rfl
  | chmod h => exact setAttributes_lists hi (dfsChmod_inv hi h) hl h
  | chown h => exact setAttributes_lists hi (dfsChown_inv hi h) hl h
  | gc => exact gcCallback_lists hi hl hg

end Steps

/-- The lists mirror the table in every state of a run of these callbacks whose steps keep to the
condition. -/
theorem dirents_mirror (cx : Ctx) {store : Store} {fs : LocalFs} {ring : Ring} {calls : List Call}
    (hw : fs.Wf)
    (hm : Transition.Meets (Daemon.step cx) (KeepsMirror cx) (.init store fs ring) calls) :
    Transition.Always (Daemon.step cx) (fun d => d.world.Mirrors) (.init store fs ring) calls := by
  apply Transition.always_of_meets (I := fun d => d.world.Inv ∧ d.world.Lists) ?_ ?_ ?_ hm
  · exact fun d ⟨hi, hl⟩ => hl.mirrors hi
  · intro d c d' ⟨hi, hl⟩ hg ht
    obtain ⟨ret, hc⟩ := Daemon.step_cases ht
    exact ⟨hc.inv hi, hc.lists hi hl hg⟩
  · refine ⟨Daemon.init_inv hw, World.lists_of_empty ?_⟩
    intro a pe ha
    cases ha

/-- A file of a new directory is looked at twice. -/
theorem dirents_mirror_sample :
    Transition.Always (Daemon.step Sample.plain) (fun d => d.world.Mirrors)
      (Sample.daemon [(['/', 'd', '/', 'f'], Sample.file [1])])
      [Sample.call (.mkdir ['/', 'd']), Sample.call (.getattr ['/', 'd', '/', 'f']),
        Sample.call (.getattr ['/', 'd', '/', 'f'])] := by
  apply dirents_mirror Sample.plain Sample.fs_wf
  exact ⟨trivial, trivial, trivial, trivial⟩

/-- A file stays listed once it is removed, and once the collector has taken its entry. -/
theorem removed_stays_listed :
    (∃ d dir, Transition.exec (Daemon.step Sample.plain)
        (Sample.daemon [(['/', 'd', '/', 'f'], Sample.file [1])])
        [Sample.call (.mkdir ['/', 'd']), Sample.call (.getattr ['/', 'd', '/', 'f']),
          ⟨.unlink ['/', 'd', '/', 'f'], { Env.quiet with stale := fun _ => some [] }⟩] = .ok d ∧
      d.world.entry ['/', 'd'] = some dir ∧ dir.filetype = .dir ∧
      ['/', 'd', '/', 'f'] ∈ dir.dirent ∧ d.world.entry ['/', 'd', '/', 'f'] = none) ∧
    ∃ d dir, Transition.exec (Daemon.step Sample.plain)
        (Sample.daemon [(['/', 'd', '/', 'f'], Sample.file [1])])
        [Sample.call (.mkdir ['/', 'd']), Sample.call (.getattr ['/', 'd', '/', 'f']),
          Sample.call (.open ['/', 'd', '/', 'f'] Sample.readOnly), Sample.call (.release 0),
          ⟨.gc ['/', 'd', '/', 'f'], { Env.quiet with now := 1000 }⟩] = .ok d ∧
      d.world.entry ['/', 'd'] = some dir ∧ dir.filetype = .dir ∧
      ['/', 'd', '/', 'f'] ∈ dir.dirent ∧ d.world.entry ['/', 'd', '/', 'f'] = none :=
  ⟨⟨_, _, rfl, rfl, rfl, by decide, rfl⟩, ⟨_, _, rfl, rfl, rfl, by decide, rfl⟩⟩

end DropletFs
