import DropletFs.Table.Entries

/-! What an entry is for stays: it keeps its path as long as it lives, so a handle never comes to
mean another path, and only the exclusion pattern excludes it. -/

namespace DropletFs

open CText LocalFs

/-- The handles on an entry are for its path, and it is excluded only by the pattern. -/
def Origin (cx : Ctx) (hs : List Handle) : EntryProp := fun a _ pe =>
  (∀ h ∈ hs, h.addr = a → pe.path = h.path) ∧ (pe.exclude = true → cx.conf.regex pe.path = true)

theorem Origin.congr {cx : Ctx} {hs : List Handle} {a : Addr} {o o' : Option Obj} {pe pe' : Entry}
    (h : Origin cx hs a o pe) (hp : pe'.path = pe.path) (hx : pe'.exclude = pe.exclude) :
    Origin cx hs a o' pe' := by
  refine ⟨fun g hg ha => hp.trans (h.1 g hg ha), fun he => ?_⟩
  rw [hp]
  exact h.2 (hx ▸ he)

theorem Origin.steady (cx : Ctx) (hs : List Handle) : Steady (Origin cx hs) :=
  ⟨fun _ h => h.congr rfl rfl, fun _ h => h.congr rfl rfl, fun _ _ h => h.congr rfl rfl⟩

/-- An address that no handle has. -/
theorem Origin.fresh {cx : Ctx} {env : Env} {hs : List Handle} {b : Addr}
    (hb : ∀ h ∈ hs, h.addr < b) (o : Option Obj) (path : Path) (type : TPathType) :
    Origin cx hs b o (pentryNew env path type) := by
  refine ⟨fun h hh ha => ?_, ?_⟩
  · exact absurd ha (Nat.ne_of_lt (hb h hh))
  · rintro ⟨⟩

structure Daemon.Original (cx : Ctx) (d : Daemon) : Prop where
  below : ∀ h ∈ d.handles, h.addr < d.world.brk
  origin : d.world.All (Origin cx d.handles)

section Addresses

variable {cx : Ctx} {env : Env} {s t : World} {path : Path} {ret : Int}

theorem World.onEntry_brk (s : World) (q : Path) (f : Entry → Entry) :
    (s.onEntry q f).brk = s.brk := by
  obtain ⟨heap, he⟩ := s.onEntry_eq q f
  rw [he]

theorem World.hashRemove_brk (s : World) (q : Path) : (s.hashRemove q).brk = s.brk := by
  unfold World.hashRemove World.pentryFree
  cases s.hash q with
  | none => rfl
  | some a =>
    dsimp only
    cases s.heap a <;> rfl

theorem Looked.brk_le {type : TPathType} {a : Addr} (h : Looked env type s path a t) : s.brk ≤ t.brk := by
  rcases h.cases with rfl | ⟨_, _, rfl⟩
  · exact le_rfl
  · exact Nat.le_succ s.brk

theorem dfsGetattr_brk {st : Stat} (hi : s.Inv) (h : dfsGetattr env s path = .ok (ret, st, t)) :
    s.brk ≤ t.brk := by
  cases dfsGetattr_cases h with
  | root => exact le_rfl
  | noEntry => exact le_rfl
  | remote _ hl => exact (lookupOrPopulate_spec hi hl).brk_le
  | loc _ hl => exact (lookupOrPopulate_spec hi hl).brk_le
  | unset _ hl =>
    have hle := (lookupOrPopulate_spec hi hl).brk_le
    split_ifs
    · unfold hashFillDirent
      split
      · exact hle
      · rw [World.onEntry_brk]
        exact hle
    · exact hle

theorem dfsOpen_brk {flags : OpenFlags} {fh : Option Addr} (hi : s.Inv)
    (h : dfsOpen cx env s path flags = .ok (ret, fh, t)) : s.brk ≤ t.brk := by
  rcases dfsOpen_cases hi h with ⟨_, _, rfl⟩ | ⟨a, u, pe, qe, fs, hl, _, _, _, rfl⟩
  · exact le_rfl
  · exact hl.brk_le

theorem dfsCreate_brk {mode : Nat} {flags : OpenFlags} {fh : Option Addr} (hi : s.Inv)
    (h : dfsCreate cx env s path mode flags = .ok (ret, fh, t)) : s.brk ≤ t.brk := by
  rcases dfsCreate_cases h with ⟨_, _, rfl⟩ | ⟨r, u, ho, hcase⟩
  · exact le_rfl
  · have hle := dfsOpen_brk hi ho
    rcases hcase with ⟨_, rfl, _⟩ | ⟨_, a, pe, pe', fs, st, _, _, _, rfl⟩
    · exact hle
    · exact hle

theorem dfsMkdir_brk (env : Env) (s : World) (path : Path) :
    s.brk ≤ (dfsMkdir env s path).2.brk := by
  unfold dfsMkdir
  split
  · rename_i st _
    dsimp only
    split
    · rw [World.onEntry_brk]
    · split
      · rename_i a u hp
        obtain ⟨_, rfl⟩ := populateHash_some hp
        exact Nat.le_succ s.brk
      · exact le_rfl
  · exact le_rfl

theorem dfsRmdir_brk {p : Str} (h : dfsRmdir cx env s p = .ok (ret, t)) : t.brk = s.brk := by
  unfold dfsRmdir at h
  dsimp only at h
  split at h
  · obtain ⟨⟨q, u⟩, hq, h⟩ := Except.bind_ok.mp h
    obtain ⟨_, _, rfl⟩ := World.tmpstrPrintf_ok hq
    simp only [Except.ok.injEq, Prod.mk.injEq] at h
    rw [← h.2, World.onEntry_brk]
    rfl
  · simp only [Except.ok.injEq, Prod.mk.injEq] at h
    rw [← h.2]
    rfl

theorem dfsUnlink_brk {p : Str} (h : dfsUnlink cx env s p = .ok (ret, t)) : t.brk = s.brk := by
  rcases dfsUnlink_cases h with ⟨_, _, rfl⟩ | ⟨store, u, _, _, hu, hcase⟩
  · rfl
  · have hub : u.brk = s.brk := by
      rw [hu]
      rfl
    rcases hcase with ⟨_, _, rfl⟩ | ⟨_, he⟩
    · exact hub
    · obtain ⟨_, freed, v, _, hv, ht⟩ := unlinkEntry_cases he
      have hvb : v.brk = s.brk := by
        rw [hv]
        exact (World.hashRemove_brk u _).trans hub
      rcases ht with ⟨_, rfl⟩ | ⟨parent, _, rfl⟩
      · exact hvb
      · rw [World.onEntry_brk, hvb]

theorem renameFile_brk {p q : Str} (h : renameFile cx env s p q = .ok (ret, t)) :
    t.brk = s.brk := by
  rcases renameFile_cases h with ⟨_, _, rfl⟩ | ⟨store, u, _, hu, ht⟩
  · rfl
  · rw [dfsUnlink_brk ht]
    rcases hu with rfl | ⟨dirname, _, rfl⟩
    · rfl
    · exact World.onEntry_brk _ _ _

end Addresses

section Steps

variable {cx : Ctx} {env : Env} {d : Daemon} {path : Path} {ret : Int} {w : World}

/-- The same handles over another world. -/
theorem Daemon.Original.keep (ho : d.Original cx) (hb : d.world.brk ≤ w.brk)
    (hw : w.All (Origin cx d.handles)) : Daemon.Original cx ⟨w, d.handles⟩ :=
  ⟨fun h hh => (ho.below h hh).trans_le hb, hw⟩

/-- One more handle, on an entry of its path. -/
theorem Daemon.Original.grant {a : Addr} {flags : OpenFlags}
    (ho : Daemon.Original cx ⟨w, d.handles⟩) (ha : a < w.brk)
    (hp : ∀ pe, w.heap a = some pe → pe.path = path) :
    Daemon.Original cx ⟨w, d.handles ++ [⟨a, path, flags⟩]⟩ := by
  refine ⟨fun h hh => ?_, fun b pe hb => ?_⟩
  · rcases List.mem_append.mp hh with hh | hh
    · exact ho.below h hh
    · rw [List.mem_singleton.mp hh]
      exact ha
  · obtain ⟨hpath, hx⟩ := ho.origin b pe hb
    refine ⟨fun h hh he => ?_, hx⟩
    rcases List.mem_append.mp hh with hh | hh
    · exact hpath h hh he
    · rw [List.mem_singleton.mp hh] at he ⊢
      obtain rfl : a = b := he
      exact hp pe hb

theorem dfsOpen_original {flags : OpenFlags} {fh : Option Addr} (hi : d.world.Inv)
    (ho : d.Original cx) (h : dfsOpen cx env d.world path flags = .ok (ret, fh, w)) :
    Daemon.Original cx ⟨w, d.handles⟩ := by
  have hall := dfsOpen_all hi ho.origin (fun _ => Origin.fresh ho.below _ path .reg) ?_ h
  · exact ho.keep (dfsOpen_brk hi h) hall.1
  · intro a qe fs hm hpe
    have hs := openMode_spec hi.wf hm
    split_ifs
    · exact hpe.congr hs.update.path hs.exclude
    · exact hpe.congr hs.update.path hs.exclude

theorem dfsCreate_original {mode : Nat} {flags : OpenFlags} {fh : Option Addr}
    (hi : d.world.Inv) (ho : d.Original cx)
    (h : dfsCreate cx env d.world path mode flags = .ok (ret, fh, w)) :
    Daemon.Original cx ⟨w, d.handles⟩ := by
  have hall := dfsCreate_all hi ho.origin (fun _ => Origin.fresh ho.below _ path .reg) ?_ ?_ h
  · exact ho.keep (dfsCreate_brk hi h) hall
  · intro a qe fs hm hpe
    have hs := openMode_spec hi.wf hm
    exact hpe.congr hs.update.path hs.exclude
  · intro a r qe fs pe' fs' st _ hm hc hpe
    have hs := openMode_spec hi.wf hm
    obtain ⟨md, l, rfl, _⟩ := createOpened_spec hs.update.wf hc
    have hpath : qe.path = path := hs.update.path.trans (hi.entryOr_path _ path _)
    refine ⟨fun g hg ha => hs.update.path.trans (hpe.1 g hg ha), fun hx => ?_⟩
    change cx.conf.regex qe.path = true
    rw [hpath]
    exact hx

theorem dfsRename_original {old new : Path} (hi : d.world.Inv) (ho : d.Original cx)
    (h : dfsRename cx env d.world old new = .ok (ret, w)) : Daemon.Original cx ⟨w, d.handles⟩ := by
  have hsteady := Origin.steady cx d.handles
  have hkeep : w.Inv ∧ d.world.brk ≤ w.brk ∧ w.All (Origin cx d.handles) := by
    refine dfsRename_keeps
      (I := fun t => t.Inv ∧ d.world.brk ≤ t.brk ∧ t.All (Origin cx d.handles)) ?_
      ⟨hi, le_rfl, ho.origin⟩ h
    refine ⟨?_, ?_, ?_, ?_⟩
    · intro s ring cwd trace ⟨hs, hb, hall⟩
      exact ⟨hs.congr rfl rfl rfl rfl, hb, hall.of_eq rfl rfl⟩
    · intro s path ⟨hs, hb, hall⟩
      refine ⟨(dfsMkdir_inv hs).1, hb.trans (dfsMkdir_brk env s path), ?_⟩
      apply dfsMkdir_all hs hall
      · exact fun a pe _ _ hpe => hpe.congr rfl rfl
      · exact fun _ => Origin.fresh (fun g hg => (ho.below g hg).trans_le hb) _ path .dir
    · intro s p q r t ⟨hs, hb, hall⟩ hf
      refine ⟨renameFile_inv hs hf, hb.trans (renameFile_brk hf).ge, ?_⟩
      exact renameFile_all hsteady.removable hs hall (fun a pe o _ _ hpe => hpe.congr rfl rfl) hf
    · intro s p r t ⟨hs, hb, hall⟩ hr
      refine ⟨(dfsRmdir_inv hs hr).1, hb.trans (dfsRmdir_brk hr).ge, ?_⟩
      exact dfsRmdir_all hsteady.removable hall (fun a pe o _ _ _ _ _ hpe => hpe.congr rfl rfl) hr
  exact ho.keep hkeep.2.1 hkeep.2.2

theorem Calls.original {d' : Daemon} {op : Op} (hi : d.world.Inv) (ho : d.Original cx)
    (h : Calls cx env d op ret d') : d'.Original cx := by
  have hsteady := Origin.steady cx d.handles
  have hwas : Daemon.Original cx ⟨d.world, d.handles⟩ := ho
  have hgrant : ∀ {path : Path} {flags : OpenFlags} {a : Addr} {w : World}, w.Inv →
      Granted d.world path (some a) w → Daemon.Original cx ⟨w, d.handles⟩ →
      Daemon.Original cx ⟨w, d.handles ++ [⟨a, path, flags⟩]⟩ := by
    intro path flags a w hw hg hd
    obtain ⟨b, pe, hb, hpe, hp, _⟩ := hg.entry
    obtain rfl : a = b := Option.some.inj hb
    refine hd.grant (hw.bound a pe hpe) fun qe hqe => ?_
    rw [hpe, Option.some.injEq] at hqe
    rw [← hqe, hp]
  cases h with
  | getattr h =>
    refine ho.keep (dfsGetattr_brk hi h) (dfsGetattr_all hsteady hi ho.origin ?_ ?_ ?_ h)
    · exact fun _ => Origin.fresh ho.below _ _ _
    · exact fun a o dict _ _ _ hpe => hpe.congr rfl rfl
    · exact fun a o pe _ hpe => hpe.congr rfl rfl
  | opened h =>
    obtain ⟨hw, _, ⟨_, hg⟩ | hr⟩ := dfsOpen_inv hi h
    · exact hgrant hw hg (dfsOpen_original hi ho h)
    · cases hr
  | openFailed _ h => exact dfsOpen_original hi ho h
  | created h =>
    obtain ⟨hw, _, hg | hr⟩ := dfsCreate_inv hi h
    · exact hgrant hw hg (dfsCreate_original hi ho h)
    · exact (hr rfl).elim
  | createFailed _ h => exact dfsCreate_original hi ho h
  | read => exact hwas
  | written _ _ h =>
    obtain ⟨_, _, ⟨rfl, _⟩ | ⟨_, _, _, _, _, _, rfl⟩⟩ := dfsWrite_cases h
    · exact ho
    · exact ho.keep le_rfl (ho.origin.of_eq rfl rfl)
  | notWritten _ => exact hwas
  | released hg h =>
    rename_i g w
    have hw : w.All (Origin cx d.handles) := by
      refine dfsRelease_all hi ho.origin ?_ ?_ h
      · intro pe pe' fs st _ hr hpe
        have hs := releaseEntry_spec hi.wf hr
        exact hpe.congr hs.update.path hs.exclude
      · exact fun a pe o _ _ hpe => hpe.congr rfl rfl
    have hb : w.brk = d.world.brk := by
      obtain ⟨pe, pe', fs, st, _, _, rfl⟩ := dfsRelease_cases h
      rfl
    refine ⟨fun k hk => ?_, fun a pe ha => ?_⟩
    · change k.addr < w.brk
      rw [hb]
      exact ho.below k (List.mem_of_mem_eraseIdx hk)
    · obtain ⟨hp, hx⟩ := hw a pe ha
      exact ⟨fun k hk => hp k (List.mem_of_mem_eraseIdx hk), hx⟩
  | notReleased => exact hwas
  | unlink h => exact ho.keep (dfsUnlink_brk h).ge (dfsUnlink_all hsteady.removable hi ho.origin h)
  | rename h => exact dfsRename_original hi ho h
  | rmdir h =>
    refine ho.keep (dfsRmdir_brk h).ge (dfsRmdir_all hsteady.removable ho.origin ?_ h)
    exact fun a pe o _ _ _ _ _ hpe => hpe.congr rfl rfl
  | mkdir =>
    refine ho.keep (dfsMkdir_brk env d.world _) (dfsMkdir_all hi ho.origin ?_ ?_)
    · exact fun a pe _ _ hpe => hpe.congr rfl rfl
    · exact fun _ => Origin.fresh ho.below _ _ .dir
  | mknod =>
    rename_i path
    obtain ⟨hp, hh⟩ := dfsMknod_puts env d.world path
    refine ho.keep ?_ (ho.origin.put hh hp fun a pe o _ _ hpe => hpe.congr rfl rfl)
    unfold dfsMknod
    split <;> exact le_rfl
  | symlink h =>
    obtain ⟨hp, hh⟩ := dfsSymlink_puts h
    refine ho.keep ?_ (ho.origin.put hh hp fun a pe o _ _ hpe => hpe.congr rfl rfl)
    obtain ⟨st, rfl⟩ := dfsSymlink_cases h
    exact le_rfl
  | chmod h =>
    refine ho.keep ?_ (setAttributes_all hi ho.origin
      (fun a pe md o' _ _ _ hpe => hpe.congr rfl rfl) h)
    rcases setAttributes_cases h with rfl | ⟨_, _, _, _, _, _, _, _, _, rfl⟩ <;> exact le_rfl
  | chown h =>
    refine ho.keep ?_ (setAttributes_all hi ho.origin
      (fun a pe md o' _ _ _ hpe => hpe.congr rfl rfl) h)
    rcases setAttributes_cases h with rfl | ⟨_, _, _, _, _, _, _, _, _, rfl⟩ <;> exact le_rfl
  | gc =>
    refine ho.keep ?_ (gcCallback_all ho.origin)
    rcases gcCallback_cases cx env d.world _ with h | ⟨_, _, _, _, _, h⟩
    · rw [h]
    · rw [h, World.hashRemove_brk]

theorem Daemon.Reachable.original (h : d.Reachable cx) : d.Original cx := by
  obtain ⟨store, fs, ring, hw, hr⟩ := h
  have hboth : d.world.Inv ∧ d.Original cx := by
    refine Transition.Reachable.invariant (I := fun d => d.world.Inv ∧ d.Original cx) hr
      ⟨Daemon.init_inv hw, ?_⟩ ?_
    · exact ⟨fun h hh => (by cases hh), fun a pe ha => (by cases ha)⟩
    · intro s e t ⟨hs, ho⟩ ht
      obtain ⟨ret, hc⟩ := Daemon.step_cases ht
      exact ⟨hc.inv hs, hc.original hs ho⟩
  exact hboth.2

end Steps

end DropletFs
