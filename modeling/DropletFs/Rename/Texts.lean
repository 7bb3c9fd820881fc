import DropletFs.Rename.Tree

/-! The texts `rename_directory` goes by. Its paths are temporary strings, which its own loop,
`dfs_unlink` and `pentry_get_parent` keep taking, so they last only in directories that take few
enough. -/

namespace DropletFs

open CText LocalFs

section Named

variable (cx : Ctx) (env : Env)

/-- Whenever the loop reads its two paths they are `o` and `n`, and each entry is passed on under
its place below them. `dirNamed` speaks for the nested renames. -/
def EntriesNamed (renameDir : Rename) (dirNamed : World → Str → Str → Path → Path → Prop)
    (oldpath newpath : Str) (o n : Path) : List CStr → World → FType → Prop
  | [], s, _ => s.text oldpath = o ∧ s.text newpath = n
  | name :: names, s, type =>
    (s.text oldpath = o ∧ s.text newpath = n) ∧
    let s := s.log (.iter (s.text oldpath) (s.text newpath))
    if name = ['.'] ∨ name = ['.', '.'] then
      EntriesNamed renameDir dirNamed oldpath newpath o n names s type
    else
      let a := child o (chopSlash name)
      let b := child n (chopSlash name)
      ∃ src dst u, s.entryPaths oldpath newpath name = .ok (src, dst, u) ∧
        (u.text src = a ∧ u.text dst = b) ∧
        let (rc, found) := dplNamei env u.store (u.text src)
        ¬(rc ≠ .success ∧ rc ≠ .enoent) →
          let type := found.getD type
          let u := u.log (.pass (u.text src) (u.text dst))
          (type = .dir → dirNamed u src dst a b) ∧
          ∀ r v, descend type (renameDir u src dst) (renameFile cx env u src dst) = .ok (r, v) →
            EntriesNamed renameDir dirNamed oldpath newpath o n names v type

/-- Every activation of `rename_directory` keeps the two paths it was called with, through its
loop and up to the removal at its end. -/
def DirectoryNamed : Nat → World → Str → Str → Path → Path → Prop
  | 0, _, _, _, _, _ => True
  | depth + 1, s, oldpath, newpath, o, n =>
    (s.text oldpath = o ∧ s.text newpath = n) ∧
    let s := s.log (.enter (s.text oldpath) (s.text newpath))
    ∀ type names u, renameSetup env s (s.text oldpath) (s.text newpath) = (.ok (type, names), u) →
      EntriesNamed cx env (renameDirectory cx env depth) (DirectoryNamed depth) oldpath newpath
        o n names u type ∧
      ∀ r v, renameEntries cx env (renameDirectory cx env depth) oldpath newpath names u type 0 =
        .ok (r, v) → r ≠ -1 →
          v.text oldpath = o ∧ dfsRmdir cx env v oldpath = dfsRmdir cx env v (.ext o)

/-- The rename of a directory goes by the right names throughout. -/
def RightNames (s : World) (old new : Path) : Prop :=
  DirectoryNamed cx env env.stack s (.ext old) (.ext new) old new

end Named

theorem chopSlash_proper {x : CStr} (hx : Proper x) : chopSlash x = x := by
  rw [chopSlash, if_neg]
  intro h
  exact hx.2.1 (List.mem_of_getLast? h)

theorem chopSlash_dir (x : CStr) : chopSlash (x ++ ['/']) = x := by
  simp [chopSlash]

section Forward

variable {cx : Ctx} {env : Env} {s u : World} {o n : Path} {op np : Str} {k m : Nat}

/-- One entry, once its handler is known to agree with the one on values. -/
theorem entry_named {renameDir : Rename} (moveDir : Move)
    {dirNamed : World → Str → Str → Path → Path → Prop} {name x : CStr} {names : List CStr}
    (type : FType) (hname : ¬(name = ['.'] ∨ name = ['.', '.']))
    (hsrc : entryPath o name = child o x) (hdst : entryPath n name = child n x)
    (hchop : chopSlash name = x) (hop : s.text op = o) (hnp : s.text np = n)
    (hlo : s.Lasts op (2 + k + m)) (hln : s.Lasts np (2 + k + m))
    (hdir : ∀ (u : World) (src dst : Str), u.store = s.store → u.hash = s.hash →
      u.text src = child o x → u.text dst = child n x → u.Lasts src 30 → u.Lasts dst 30 →
      dirNamed u src dst (child o x) (child n x))
    (hchild : ∀ (u : World) (type : FType) (src dst : Str), u.store = s.store → u.hash = s.hash →
      u.text src = child o x → u.text dst = child n x → u.Lasts src 30 → u.Lasts dst 30 →
      Agree cx env (child o x) (child n x) u k
        (descend type (renameDir u src dst) (renameFile cx env u src dst))
        (descend type (moveDir u (child o x) (child n x))
          (renameFile cx env u (.ext (child o x)) (.ext (child n x)))))
    (hrest : ∀ (u : World) (type : FType),
      (∀ I, MoveSteps cx env (child o x) (child n x) I → I s → I u) →
      u.text op = o → u.text np = n → u.Lasts op m → u.Lasts np m →
      EntriesNamed cx env renameDir dirNamed op np o n names u type) :
    EntriesNamed cx env renameDir dirNamed op np o n (name :: names) s type := by
  have hpaths := World.entryPaths_eq (k := k + m) name hop hnp (hlo.mono (by omega))
    (hln.mono (by omega))
  rw [hsrc, hdst] at hpaths
  obtain ⟨hs1, hs2, hl1, hl2⟩ := s.paired_slots o n (child o x) (child n x)
  have hu : s.Pushed (s.paired o n (child o x) (child n x)) 2 := ⟨[_, _], rfl, le_rfl⟩
  rw [EntriesNamed]
  refine ⟨⟨hop, hnp⟩, ?_⟩
  dsimp only
  rw [if_neg hname, hop, hnp, hchop]
  refine ⟨_, _, _, hpaths, ⟨hs1, hs2⟩, ?_⟩
  rw [hs1, hs2]
  have hstore : (s.paired o n (child o x) (child n x)).store = s.store := rfl
  have hhash : (s.paired o n (child o x) (child n x)).hash = s.hash := rfl
  have hI : ∀ I, MoveSteps cx env (child o x) (child n x) I → I s →
      I ((s.paired o n (child o x) (child n x)).log (.pass (child o x) (child n x))) :=
    fun I hI hi => hI.aside s _ s.cwd _ hi
  generalize s.paired o n (child o x) (child n x) = u at *
  cases dplNamei env u.store (child o x) with
  | mk rc found =>
    intro _
    refine ⟨fun _ => hdir _ _ _ hstore hhash hs1 hs2 hl1 hl2, ?_⟩
    intro r v hrun
    obtain ⟨he, hkeep⟩ := hchild (u.log (.pass (child o x) (child n x))) (found.getD type) _ _
      hstore hhash hs1 hs2 hl1 hl2
    rw [he] at hrun
    obtain ⟨hpush, hsteps⟩ := hkeep r v hrun
    have hbefore : s.Pushed (u.log (.pass (child o x) (child n x))) 2 := hu
    obtain ⟨hto, htlo⟩ := (hbefore.trans hpush).lasts hlo
    obtain ⟨htn, htln⟩ := (hbefore.trans hpush).lasts hln
    exact hrest v _ (fun I hm hi => hsteps I hm (hI I hm hi)) (hto.trans hop) (htn.trans hnp)
      htlo htln

/-- What is no directory has no loop. -/
theorem directoryNamed_notDir {depth : Nat} (hop : s.text op = o) (hnp : s.text np = n)
    (hne : o ≠ n) (hd : s.store.ftype? o ≠ some .dir) :
    DirectoryNamed cx env depth s op np o n := by
  cases depth with
  | zero => trivial
  | succ depth =>
    refine ⟨⟨hop, hnp⟩, ?_⟩
    have hop' : (s.log (.enter o n)).text op = o := hop
    have hnp' : (s.log (.enter o n)).text np = n := hnp
    rw [hop, hnp]
    dsimp only
    rw [hop', hnp']
    intro type names u hset
    obtain ⟨v, cwd, hv, _, hok⟩ := renameSetup_spec env (s.log (.enter o n)) o n
    have hdir := (hok type names (by rw [hset])).1
    rcases hv with rfl | rfl
    · exact (hd hdir).elim
    · rw [(dfsMkdir_effect env (s.log (.enter o n)) n).1, Store.ftype?,
        (Store.changed_mkdir env _ n).lookup hne] at hdir
      exact (hd hdir).elim

/-- A directory, once this is known of its loop. -/
theorem directoryNamed_ready {f : Forest} {depth : Nat} (hr : Ready s o n f)
    (hroot : o ≠ rootPath) (hc : s.store.children o = f.names) (hop : s.text op = o)
    (hnp : s.text np = n) (hlo : s.Lasts op (f.cost s.hash o + 1))
    (hln : s.Lasts np (f.cost s.hash o + 1))
    (hloop : ∀ (u : World) (type : FType), Ready u o n f → u.text op = o → u.text np = n →
      u.Lasts op (f.cost u.hash o) → u.Lasts np (f.cost u.hash o) →
      EntriesNamed cx env (renameDirectory cx env depth) (DirectoryNamed cx env depth) op np o n
        f.listed u type) :
    DirectoryNamed cx env (depth + 1) s op np o n := by
  refine ⟨⟨hop, hnp⟩, ?_⟩
  have hop' : (s.log (.enter o n)).text op = o := hop
  have hnp' : (s.log (.enter o n)).text np = n := hnp
  rw [hop, hnp]
  dsimp only
  rw [hop', hnp']
  intro type names u hset
  obtain ⟨_, hready, hcost, hring, rfl⟩ := renameSetup_ready cx hr hroot hc hset
  have huo : u.text op = o := by rw [World.text, hring, ← World.text, hop]
  have hun : u.text np = n := by rw [World.text, hring, ← World.text, hnp]
  have hlo' : u.Lasts op (f.cost u.hash o + 1) := hcost ▸ hlo.of_ring hring
  have hln' : u.Lasts np (f.cost u.hash o + 1) := hcost ▸ hln.of_ring hring
  let w := (u.log (.iter o n)).log (.iter o n)
  have hwo : w.text op = o := huo
  have hwn : w.text np = n := hun
  have hrw : Ready w o n f := hready.of_eq rfl rfl
  constructor
  · have hbody := hloop w type hrw hwo hwn ((hlo'.mono (Nat.le_succ _)).of_ring rfl)
      ((hln'.mono (Nat.le_succ _)).of_ring rfl)
    rw [EntriesNamed, if_pos (.inl rfl), EntriesNamed, if_pos (.inr rfl)]
    have hlog : ∀ e, (u.log e).text op = o ∧ (u.log e).text np = n := fun _ => ⟨huo, hun⟩
    rw [huo, hun, (hlog _).1, (hlog _).2]
    exact ⟨⟨rfl, rfl⟩, ⟨rfl, rfl⟩, hbody⟩
  · intro r v hrun hret
    have hagree := dots_agree cx env type 0 huo hun (renameEntries_agree f depth w o n op np type 0
      hrw hwo hwn ((hlo'.mono (Nat.le_succ _)).of_ring rfl)
      ((hln'.mono (Nat.le_succ _)).of_ring rfl))
    rw [hagree.1] at hrun
    obtain ⟨hpush, _⟩ := hagree.2 r v hrun
    obtain ⟨htext, hlast⟩ := hpush.lasts hlo'
    have hvo : v.text op = o := htext.trans huo
    refine ⟨hvo, ?_⟩
    rw [dfsRmdir_value (k := 0) hlast, hvo]

/-- The loop goes by the right names over any forest that is safe for the ring. -/
theorem entriesNamed_ready (f : Forest) (depth : Nat) (s : World) (o n : Path) (op np : Str)
    (type : FType) (hr : Ready s o n f) (hop : s.text op = o) (hnp : s.text np = n)
    (hlo : s.Lasts op (f.cost s.hash o)) (hln : s.Lasts np (f.cost s.hash o)) :
    EntriesNamed cx env (renameDirectory cx env depth) (DirectoryNamed cx env depth) op np o n
      f.listed s type := by
  induction f generalizing depth s o n op np type with
  | nil => exact ⟨hop, hnp⟩
  | file x rest ih =>
    obtain ⟨hx, hnew, ⟨ft, hft, hfd⟩, hin⟩ := hr.entries
    have hrest : Ready s o n rest :=
      ⟨hr.named, hr.separate, hin, hr.shortOld.2, hr.shortNew.2, hr.safe⟩
    have hcost : (Forest.file x rest).cost s.hash o =
        2 + (1 + if (s.hash (child o x)).isSome then 1 else 0) + rest.cost s.hash o := by
      rw [Forest.cost]
      omega
    rw [hcost] at hlo hln
    have hnotDir : ∀ u : World, u.store = s.store → u.store.ftype? (child o x) ≠ some .dir := by
      intro u hst
      rw [hst, hft]
      simpa using hfd
    apply entry_named (moveDirectory cx env depth) type hx.not_dot
      (entryPath_file hx hr.shortOld.1) (entryPath_file hx hr.shortNew.1) (chopSlash_proper hx) hop
      hnp hlo hln
    · intro u src dst hst _ hsrc hdst _ _
      exact directoryNamed_notDir hsrc hdst (hr.separate.child_ne x x) (hnotDir u hst)
    · intro u type' src dst hst hhash hsrc hdst hl _
      rw [← hhash]
      exact file_agree type' hsrc hdst hl (hr.separate.child_ne x x) (hnotDir u hst)
    · intro u type' hkeep htop htnp hto htn
      obtain ⟨hready, hc⟩ := hrest.after_entry hx hnew hkeep
      rw [← hc] at hto htn
      exact ih depth u o n op np type' hready htop htnp hto htn
  | dir x sub rest ihsub ih =>
    obtain ⟨hx, hnew, hft, hch, hinsub, hin⟩ := hr.entries
    have hrest : Ready s o n rest :=
      ⟨hr.named, hr.separate, hin, hr.shortOld.2.2, hr.shortNew.2.2, hr.safe.2.2⟩
    have hsub : Ready s (child o x) (child n x) sub :=
      ⟨child_ne_nil o x, hr.separate.mono (Within.child_self o x) (Within.child_self n x), hinsub,
        hr.shortOld.2.1, hr.shortNew.2.1, hr.safe.2.1⟩
    have hcost : (Forest.dir x sub rest).cost s.hash o =
        2 + (sub.cost s.hash (child o x) + 1) + rest.cost s.hash o := by
      rw [Forest.cost]
      omega
    rw [hcost] at hlo hln
    have hle : sub.cost s.hash (child o x) + 1 ≤ 30 := by
      have h29 := hr.safe.1
      omega
    have hroot := child_ne_root hr.named x
    apply entry_named (moveDirectory cx env depth) type (slash_not_dot x)
      (entryPath_dir hx hr.shortOld.1) (entryPath_dir hx hr.shortNew.1) (chopSlash_dir x) hop hnp
      hlo hln
    · intro u src dst hst hh hsrc hdst hl hl'
      rw [← hh] at hle
      cases depth with
      | zero => trivial
      | succ depth =>
        apply directoryNamed_ready (hsub.of_eq hst hh) hroot (hst ▸ hch) hsrc hdst (hl.mono hle)
          (hl'.mono hle)
        intro v type' hv hvo hvn hlo' hln'
        exact ihsub depth v _ _ src dst type' hv hvo hvn hlo' hln'
    · intro u type' src dst hst hh hsrc hdst hl hl'
      rw [← hh] at hle ⊢
      have hready := hsub.of_eq hst hh
      apply dir_agree type' hsrc hdst hl (hst ▸ hft)
      cases depth with
      | zero => exact ⟨rfl, fun ret t ht => by cases ht⟩
      | succ depth =>
        apply directory_agree hready hroot (hst ▸ hch) hsrc hdst (hl.mono hle) (hl'.mono hle)
        intro v type'' ret'' hv hvo hvn hlo' hln'
        exact renameEntries_agree sub depth v _ _ src dst type'' ret'' hv hvo hvn hlo' hln'
    · intro u type' hkeep htop htnp hto htn
      obtain ⟨hready, hc⟩ := hrest.after_entry hx hnew hkeep
      rw [← hc] at hto htn
      exact ih depth u o n op np type' hready htop htnp hto htn

end Forward

/-- Where no directory below `old` makes its parent's two strings come round the ring, the rename
of it goes by the right names throughout, whatever the calls answer. -/
theorem right_names (cx : Ctx) (env : Env) {s : World} {old new : Path} {f : Forest}
    (hr : Ready s old new f) (hroot : old ≠ rootPath) (hc : s.store.children old = f.names) :
    RightNames cx env s old new := by
  unfold RightNames
  cases env.stack with
  | zero => trivial
  | succ depth =>
    have hlo : s.Lasts (.ext old) (f.cost s.hash old + 1) := trivial
    have hln : s.Lasts (.ext new) (f.cost s.hash old + 1) := trivial
    apply directoryNamed_ready hr hroot hc rfl rfl hlo hln
    intro u type hu hop hnp hlo hln
    exact entriesNamed_ready f depth u old new _ _ type hu hop hnp hlo hln

theorem right_names_sample :
    RightNames Sample.plain Env.quiet (Sample.daemon nested).world ['/', 'a'] ['/', 'b'] := by
  apply right_names (f := .file ['f'] (.dir ['d'] (.file ['g'] .nil) .nil)) Sample.plain Env.quiet
  · exact nested_ready
  · decide
  · decide

end DropletFs
