import DropletFs.Rename.Tree

/-! Whatever fails while a directory is renamed, no file is lost: each stays, or is at its place in
the new directory. -/

namespace DropletFs

open CText LocalFs

/-- The calls of a directory rename, in which each file goes to its own place below `n`. -/
structure PlaceSteps (cx : Ctx) (env : Env) (o n : Path) (I : World → Prop) : Prop where
  aside : ∀ s ring cwd trace, I s → I { s with ring := ring, cwd := cwd, trace := trace }
  mkdir : ∀ s q, Within n q → I s → I (dfsMkdir env s q).2
  file : ∀ s w ret t, Within o (o ++ w) → Within n (n ++ w) → I s →
    renameFile cx env s (.ext (o ++ w)) (.ext (n ++ w)) = .ok (ret, t) → I t
  rmdir : ∀ s a ret t, Within o a → I s → dfsRmdir cx env s (.ext a) = .ok (ret, t) → I t

section Runs

variable {cx : Ctx} {env : Env} {s t u : World} {o n : Path} {I : World → Prop}

theorem PlaceSteps.below (h : PlaceSteps cx env o n I) (x : CStr) :
    PlaceSteps cx env (child o x) (child n x) I := by
  have hplace : ∀ p w, child p x ++ w = p ++ ('/' :: x ++ w) := by
    intro p w
    simp [child]
  refine ⟨h.aside, fun s q hq => h.mkdir s q ((Within.child_self n x).trans hq), ?_,
    fun s a ret t ha => h.rmdir s a ret t ((Within.child_self o x).trans ha)⟩
  intro s w ret t ho hn hs hrun
  rw [hplace, hplace] at hrun
  rw [hplace] at ho hn
  apply h.file s _ ret t _ _ hs hrun
  · rw [← hplace] at ho ⊢
    exact (Within.child_self o x).trans ho
  · rw [← hplace] at hn ⊢
    exact (Within.child_self n x).trans hn

/-- The file at the top goes to the top. -/
theorem PlaceSteps.top {ret : Int} (h : PlaceSteps cx env o n I) (hs : I s)
    (hrun : renameFile cx env s (.ext o) (.ext n) = .ok (ret, t)) : I t := by
  rw [← List.append_nil o, ← List.append_nil n] at hrun
  apply h.file s [] ret t _ _ hs hrun
  · rw [List.append_nil]
    exact Within.refl o
  · rw [List.append_nil]
    exact Within.refl n

theorem PlaceSteps.setup (h : PlaceSteps cx env o n I) (hs : I s) :
    I (renameSetup env s o n).2 := by
  obtain ⟨u, cwd, hu, he, _⟩ := renameSetup_spec env s o n
  rw [he]
  rcases hu with rfl | rfl
  · exact h.aside u u.ring cwd u.trace hs
  · exact h.aside _ _ cwd _ (h.mkdir s n (Within.refl n) hs)

/-- A rename of what is no directory ends before its loop. -/
theorem PlaceSteps.notDir {depth : Nat} {ret : Int} (h : PlaceSteps cx env o n I) (hne : o ≠ n)
    (hd : s.store.ftype? o ≠ some .dir) (hs : I s)
    (hrun : moveDirectory cx env depth s o n = .ok (ret, t)) : I t := by
  cases depth with
  | zero => cases hrun
  | succ depth =>
    have ho : s.text (.ext o) = o := rfl
    have hn : s.text (.ext n) = n := rfl
    obtain ⟨r, _, hvalue⟩ := directory_refused cx env depth ho hn hne hd
    rw [hvalue] at hrun
    rw [← (Prod.mk.inj (Except.ok.inj hrun)).2]
    exact h.setup (h.aside s s.ring s.cwd _ hs)

/-- A directory, once this is known of its loop. -/
theorem PlaceSteps.directory {f : Forest} {depth : Nat} {ret : Int} (h : PlaceSteps cx env o n I)
    (hr : Ready s o n f) (hroot : o ≠ rootPath) (hc : s.store.children o = f.names)
    (hloop : ∀ (d : Nat) (u v : World) (type : FType) (ret r : Int), depth = d + 1 →
      Ready u o n f → I u →
      moveEntries cx env (moveDirectory cx env d) o n f.listed u type ret = .ok (r, v) → I v)
    (hs : I s) (hrun : moveDirectory cx env depth s o n = .ok (ret, t)) : I t := by
  cases depth with
  | zero => cases hrun
  | succ depth =>
    have hset := h.setup (h.aside s s.ring s.cwd (s.trace ++ [.enter o n]) hs)
    rw [moveDirectory] at hrun
    cases he : renameSetup env (s.log (.enter o n)) o n with
    | mk res u =>
      have hu : I u := by
        have hi : I (renameSetup env (s.log (.enter o n)) o n).2 := hset
        rwa [he] at hi
      rw [he] at hrun
      cases res with
      | error r =>
        rw [← (Prod.mk.inj (Except.ok.inj hrun)).2]
        exact hu
      | ok p =>
        obtain ⟨type, names⟩ := p
        obtain ⟨_, hready, _, _, rfl⟩ := renameSetup_ready cx hr hroot hc he
        dsimp only at hrun
        rw [moveEntries, if_pos (.inl rfl), moveEntries, if_pos (.inr rfl)] at hrun
        obtain ⟨⟨r, v⟩, hentries, hend⟩ := Except.bind_ok.mp hrun
        have hready' : Ready ((u.log (.iter o n)).log (.iter o n)) o n f := hready.of_eq rfl rfl
        have hv : I v := hloop depth _ v type 0 r rfl hready' (h.aside u u.ring u.cwd _ hu) hentries
        dsimp only at hend
        split_ifs at hend with hret
        · rw [← (Prod.mk.inj (Except.ok.inj hend)).2]
          exact hv
        · obtain ⟨⟨r', w⟩, hrm, hend⟩ := Except.bind_ok.mp hend
          rw [← (Prod.mk.inj (Except.ok.inj hend)).2]
          exact h.rmdir v o r' w (Within.refl o) hv hrm

/-- One entry of the loop, and the rest of it. -/
theorem PlaceSteps.entry {moveDir : Move} {name x : CStr} {names : List CStr} {type : FType}
    {ret r : Int} (h : PlaceSteps cx env o n I) (hname : ¬(name = ['.'] ∨ name = ['.', '.']))
    (hsrc : entryPath o name = child o x) (hdst : entryPath n name = child n x)
    (hdir : ∀ (u v : World) (r : Int), u.store = s.store → u.hash = s.hash → I u →
      moveDir u (child o x) (child n x) = .ok (r, v) → I v)
    (hrest : ∀ (u v w : World) (type : FType) (r r' : Int), u.store = s.store → u.hash = s.hash →
      (∀ J, MoveSteps cx env (child o x) (child n x) J → J s → J u) →
      descend type (moveDir u (child o x) (child n x))
        (renameFile cx env u (.ext (child o x)) (.ext (child n x))) = .ok (r, v) → I v →
      moveEntries cx env moveDir o n names v type r = .ok (r', w) → I w)
    (hs : I s) (hrun : moveEntries cx env moveDir o n (name :: names) s type ret = .ok (r, t)) :
    I t := by
  rw [moveEntries_cons type ret hname hsrc hdst] at hrun
  have hu : I (s.paired o n (child o x) (child n x)) := h.aside s _ s.cwd _ hs
  have hstore : (s.paired o n (child o x) (child n x)).store = s.store := rfl
  have hhash : (s.paired o n (child o x) (child n x)).hash = s.hash := rfl
  have haside : ∀ J, MoveSteps cx env (child o x) (child n x) J → J s →
      J ((s.paired o n (child o x) (child n x)).log (.pass (child o x) (child n x))) :=
    fun J hJ hj => hJ.aside s _ s.cwd _ hj
  generalize s.paired o n (child o x) (child n x) = u at *
  dsimp only at hrun
  cases hnamei : dplNamei env u.store (child o x) with
  | mk rc found =>
    rw [hnamei] at hrun
    dsimp only at hrun
    split_ifs at hrun with hrc
    · rw [← (Prod.mk.inj (Except.ok.inj hrun)).2]
      exact hu
    · obtain ⟨⟨r1, v⟩, hbody, hloop⟩ := Except.bind_ok.mp hrun
      have hlog : I (u.log (.pass (child o x) (child n x))) := h.aside u u.ring u.cwd _ hu
      apply hrest (u.log (.pass (child o x) (child n x))) v t _ r1 r hstore hhash haside hbody
        _ hloop
      by_cases htype : found.getD type = .dir
      · rw [descend, if_pos htype] at hbody
        exact hdir (u.log (.pass (child o x) (child n x))) v r1 hstore hhash hlog hbody
      · rw [descend, if_neg htype] at hbody
        exact (h.below x).top hlog hbody

/-- The loop on values takes no other steps, whatever the calls answer. -/
theorem PlaceSteps.entries (f : Forest) (depth : Nat) (s t : World) (o n : Path) (type : FType)
    (ret r : Int) (h : PlaceSteps cx env o n I) (hr : Ready s o n f) (hs : I s)
    (hrun : moveEntries cx env (moveDirectory cx env depth) o n f.listed s type ret = .ok (r, t)) :
    I t := by
  induction f generalizing depth s t o n type ret r with
  | nil =>
    rw [Forest.listed, moveEntries] at hrun
    rw [← (Prod.mk.inj (Except.ok.inj hrun)).2]
    exact h.aside s s.ring s.cwd _ hs
  | file x rest ih =>
    obtain ⟨hx, hnew, ⟨ft, hft, hfd⟩, hin⟩ := hr.entries
    have hrest : Ready s o n rest :=
      ⟨hr.named, hr.separate, hin, hr.shortOld.2, hr.shortNew.2, hr.safe⟩
    have hnotDir : ∀ u : World, u.store = s.store → u.store.ftype? (child o x) ≠ some .dir := by
      intro u hst
      rw [hst, hft]
      simpa using hfd
    apply h.entry hx.not_dot (entryPath_file hx hr.shortOld.1) (entryPath_file hx hr.shortNew.1)
      _ _ hs hrun
    · intro u v r hst _ hu hmove
      exact (h.below x).notDir (hr.separate.child_ne x x) (hnotDir u hst) hu hmove
    · intro u v w type' r1 r' hst hhash haside hbody hv hloop
      have hsrc : u.text (.ext (child o x)) = child o x := rfl
      have hdst : u.text (.ext (child n x)) = child n x := rfl
      have hl : u.Lasts (.ext (child o x)) 30 := trivial
      obtain ⟨_, hkeep⟩ := (file_agree type' hsrc hdst hl (hr.separate.child_ne x x)
        (hnotDir u hst)).2 r1 v hbody
      obtain ⟨hready, _⟩ := hrest.after_entry hx hnew fun J hJ hj => hkeep J hJ (haside J hJ hj)
      exact ih depth v w o n type' r1 r' h hready hv hloop
  | dir x sub rest ihsub ih =>
    obtain ⟨hx, hnew, hft, hch, hinsub, hin⟩ := hr.entries
    have hrest : Ready s o n rest :=
      ⟨hr.named, hr.separate, hin, hr.shortOld.2.2, hr.shortNew.2.2, hr.safe.2.2⟩
    have hsub : Ready s (child o x) (child n x) sub :=
      ⟨child_ne_nil o x, hr.separate.mono (Within.child_self o x) (Within.child_self n x), hinsub,
        hr.shortOld.2.1, hr.shortNew.2.1, hr.safe.2.1⟩
    have hroot := child_ne_root hr.named x
    apply h.entry (slash_not_dot x) (entryPath_dir hx hr.shortOld.1)
      (entryPath_dir hx hr.shortNew.1)
      _ _ hs hrun
    · intro u v r hst hhash hu hmove
      apply (h.below x).directory (hsub.of_eq hst hhash) hroot (hst ▸ hch) _ hu hmove
      intro d u' v' type' ret' r' _ hready hu' hentries
      exact ihsub d u' v' _ _ type' ret' r' (h.below x) hready hu' hentries
    · intro u v w type' r1 r' hst hhash haside hbody hv hloop
      have hsrc : u.text (.ext (child o x)) = child o x := rfl
      have hdst : u.text (.ext (child n x)) = child n x := rfl
      have hl : u.Lasts (.ext (child o x)) 30 := trivial
      have hagree := renameDirectory_agree cx env depth (hsub.of_eq hst hhash) hroot (hst ▸ hch)
      obtain ⟨_, hkeep⟩ := (dir_agree type' hsrc hdst hl (hst ▸ hft) hagree).2 r1 v hbody
      obtain ⟨hready, _⟩ := hrest.after_entry hx hnew fun J hJ hj => hkeep J hJ (haside J hJ hj)
      exact ih depth v w o n type' r1 r' h hready hv hloop

end Runs

/-- Against the store `st` at the start: what was below `o` is unchanged or gone, each file is there
or at its place below `n`, and no other object has gone. -/
structure Lossless (st : Store) (o n : Path) (s : World) : Prop where
  source : ∀ q, Within o q → s.store.lookup q = st.lookup q ∨ s.store.lookup q = none
  file : ∀ w ob, Within o (o ++ w) → st.lookup (o ++ w) = some ob → ob.ftype ≠ .dir →
    s.store.lookup (o ++ w) = some ob ∨ s.store.lookup (n ++ w) = some ob
  other : ∀ q ob, ¬Within o q → st.lookup q = some ob →
    (∀ w ob', Within o (o ++ w) → q = n ++ w → st.lookup (o ++ w) = some ob' → ob'.ftype = .dir) →
      s.store.lookup q = some ob

section Lossless

variable {cx : Ctx} {env : Env} {st : Store} {s t : World} {o n : Path}

theorem Lossless.start (s : World) (o n : Path) : Lossless s.store o n s :=
  ⟨fun _ _ => .inl rfl, fun _ _ _ h _ => .inl h, fun _ _ _ h _ => h⟩

theorem Lossless.of_store (h : Lossless st o n s) (ht : t.store = s.store) : Lossless st o n t :=
  ⟨ht ▸ h.source, ht ▸ h.file, ht ▸ h.other⟩

theorem Lossless.mkdir (hsep : Separate o n) (h : Lossless st o n s) {q : Path} (hq : Within n q) :
    Lossless st o n (dfsMkdir env s q).2 := by
  have hst := (dfsMkdir_effect env s q).1
  rcases dplMkdir_cases env s.store q with ⟨_, he⟩ | ⟨_, _, hnone, he⟩
  · rw [he] at hst
    exact h.of_store hst
  · rw [he] at hst
    have hlookup : ∀ p, p ≠ q → (dfsMkdir env s q).2.store.lookup p = s.store.lookup p := by
      intro p hp
      rw [hst]
      exact AList.lookup_insert_ne hp
    have hsome : ∀ p ob, s.store.lookup p = some ob →
        (dfsMkdir env s q).2.store.lookup p = some ob := by
      intro p ob hp
      rw [hlookup p, hp]
      rintro rfl
      rw [hnone] at hp
      cases hp
    refine ⟨?_, ?_, ?_⟩
    · intro p hp
      rw [hlookup p (hsep.ne_of_within hp hq)]
      exact h.source p hp
    · intro w ob hw hob hd
      cases h.file w ob hw hob hd with
      | inl h => exact .inl (hsome _ ob h)
      | inr h => exact .inr (hsome _ ob h)
    · intro p ob hp hob hfree
      exact hsome p ob (h.other p ob hp hob hfree)

/-- The object of one path goes, which is no file that is elsewhere needed. -/
theorem Lossless.erase (hsep : Separate o n) (h : Lossless st o n s) {a : Path} (ha : Within o a)
    (ht : t.store = s.store.erase a)
    (hgone : ∀ w ob, a = o ++ w → s.store.lookup a = some ob → ob.ftype ≠ .dir →
      s.store.lookup (n ++ w) = some ob) : Lossless st o n t := by
  have hlookup : ∀ p, p ≠ a → t.store.lookup p = s.store.lookup p := by
    intro p hp
    rw [ht]
    exact AList.lookup_erase_ne hp
  refine ⟨?_, ?_, ?_⟩
  · intro q hq
    by_cases hqa : q = a
    · rw [hqa, ht]
      exact .inr (AList.lookup_erase a s.store)
    · rw [hlookup q hqa]
      exact h.source q hq
  · intro w ob hw hob hd
    have hnew : t.store.lookup (n ++ w) = s.store.lookup (n ++ w) :=
      hlookup _ (hsep.ne_of_within ha (hw.relocate n)).symm
    rw [hnew]
    by_cases hwa : o ++ w = a
    · cases h.file w ob hw hob hd with
      | inl h => exact .inr (hgone w ob hwa.symm (hwa ▸ h) hd)
      | inr h => exact .inr h
    · rw [hlookup _ hwa]
      exact h.file w ob hw hob hd
  · intro q ob hq hob hfree
    rw [hlookup q]
    · exact h.other q ob hq hob hfree
    · rintro rfl
      exact hq ha

theorem Lossless.copy (hsep : Separate o n) (h : Lossless st o n s) {w : Path} {ob : Obj}
    (hw : Within o (o ++ w)) (hob : s.store.lookup (o ++ w) = some ob) (hd : ob.ftype ≠ .dir)
    (ht : t.store = s.store.insert (n ++ w) ob) : Lossless st o n t := by
  have hstart : st.lookup (o ++ w) = some ob := by
    cases h.source _ hw with
    | inl he => rw [← he, hob]
    | inr he =>
      rw [he] at hob
      cases hob
  have hlookup : ∀ p, p ≠ n ++ w → t.store.lookup p = s.store.lookup p := by
    intro p hp
    rw [ht]
    exact AList.lookup_insert_ne hp
  refine ⟨?_, ?_, ?_⟩
  · intro q hq
    rw [hlookup q (hsep.ne_of_within hq (hw.relocate n))]
    exact h.source q hq
  · intro w' ob' hw' hob' hd'
    rw [hlookup _ (hsep.ne_of_within hw' (hw.relocate n))]
    by_cases he : n ++ w' = n ++ w
    · obtain rfl := List.append_cancel_left he
      refine .inr ?_
      rw [ht, AList.lookup_insert, ← hstart, hob']
    · rw [hlookup _ he]
      exact h.file w' ob' hw' hob' hd'
  · intro q ob' hq hob' hfree
    rw [hlookup q]
    · exact h.other q ob' hq hob' hfree
    · intro he
      exact hd (hfree w ob hw he hstart)

theorem Lossless.file_moved (hsep : Separate o n) (h : Lossless st o n s) {w : Path} {ret : Int}
    (hw : Within o (o ++ w))
    (hrun : renameFile cx env s (.ext (o ++ w)) (.ext (n ++ w)) = .ok (ret, t)) :
    Lossless st o n t := by
  have hc := dplFcopy_cases env s.store (o ++ w) (n ++ w)
  rcases renameFile_cases hrun with ⟨_, hno, ht⟩ | ⟨store, u, hst, hu, hun⟩
  · have hno' : (dplFcopy env s.store (o ++ w) (n ++ w)).1 ≠ .success := hno
    rcases hc with ⟨_, hst⟩ | ⟨_, _, _, ob, _, _, hyes⟩
    · have hts : t.store = s.store := by
        rw [ht]
        exact hst
      exact h.of_store hts
    · rw [hyes] at hno'
      exact (hno' rfl).elim
  · have hst' : dplFcopy env s.store (o ++ w) (n ++ w) = (.success, store) := hst
    rcases hc with ⟨hno, _⟩ | ⟨_, _, _, ob, hob, hd, hyes⟩
    · rw [hst'] at hno
      exact (hno rfl).elim
    have hus : u.store = s.store.insert (n ++ w) ob := by
      rw [hst'] at hyes
      rw [← (Prod.mk.inj hyes).2]
      rcases hu with rfl | ⟨dirname, _, rfl⟩
      · rfl
      · exact (World.onEntry_rest { s with store := store } dirname _).1
    have hcopied : Lossless st o n u := h.copy hsep hw hob hd hus
    have hts : t.store = (dplUnlink env u.store (o ++ w)).2 := dfsUnlink_store hun
    rcases dplUnlink_cases env u.store (o ++ w) with ⟨_, he⟩ | ⟨_, _, _, he⟩
    · rw [he] at hts
      exact hcopied.of_store hts
    · rw [he] at hts
      apply hcopied.erase hsep hw hts
      intro w' ob' he hob' _
      obtain rfl := List.append_cancel_left he
      have hne := hsep.ne_of_within hw (hw.relocate n)
      rw [hus, AList.lookup_insert_ne hne, hob] at hob'
      rw [hus, AList.lookup_insert, hob']

theorem Lossless.rmdir (hsep : Separate o n) (h : Lossless st o n s) {a : Path} {ret : Int}
    (ha : Within o a) (hrun : dfsRmdir cx env s (.ext a) = .ok (ret, t)) : Lossless st o n t := by
  have hst := (dfsRmdir_effect hrun).1
  rcases dplRmdir_cases env s.store a with ⟨_, he⟩ | ⟨_, hroot, hdir, _, he⟩
  · rw [he] at hst
    exact h.of_store hst
  · rw [he] at hst
    apply h.erase hsep ha hst
    intro w ob _ hob hd
    rw [Store.ftype?_of_ne hroot, hob] at hdir
    exact (hd (Option.some.inj hdir)).elim

/-- Every step of the rename keeps this. -/
theorem Lossless.steps (cx : Ctx) (env : Env) (st : Store) (hsep : Separate o n) :
    PlaceSteps cx env o n (Lossless st o n) where
  aside _ _ _ _ h := ⟨h.source, h.file, h.other⟩
  mkdir _ _ hq h := h.mkdir hsep hq
  file _ _ _ _ hw _ h hrun := h.file_moved hsep hw hrun
  rmdir _ _ _ _ ha h hrun := h.rmdir hsep ha hrun

end Lossless

/-- Whatever the calls answer, a rename of a directory that comes back loses no file: each is at its
old place or at its place in the new directory, with its content, and nothing else has gone. -/
theorem rename_loses_nothing (cx : Ctx) (env : Env) {s t : World} {old new : Path} {f : Forest}
    {ret : Int} (hr : Ready s old new f) (hroot : old ≠ rootPath)
    (hdir : s.store.ftype? old = some .dir)
    (hc : s.store.children old = f.names) (habs : new.head? = some '/')
    (hrun : dfsRename cx env s old new = .ok (ret, t)) :
    (∀ r ob, s.store.lookup (child old r) = some ob → ob.ftype ≠ .dir →
      t.store.lookup (child old r) = some ob ∨ t.store.lookup (child new r) = some ob) ∧
    ∀ q ob, ¬Within old q → s.store.lookup q = some ob →
      (∀ r ob', q = child new r → s.store.lookup (child old r) = some ob' → ob'.ftype = .dir) →
        t.store.lookup q = some ob := by
  have hsteps := Lossless.steps cx env s.store hr.separate
  have hstart := Lossless.start s old new
  have hkept : Lossless s.store old new t := by
    unfold dfsRename at hrun
    rw [renameTarget_absolute habs] at hrun
    cases hn : dplNamei env s.store old with
    | mk rc found =>
      rw [hn] at hrun
      dsimp only at hrun
      cases htype : found.getD (env.junk old) with
      | other =>
        rw [htype] at hrun
        rw [← (Prod.mk.inj (Except.ok.inj hrun)).2]
        exact hstart
      | reg =>
        rw [htype] at hrun
        obtain ⟨⟨r, u⟩, hfile, hend⟩ := Except.bind_ok.mp hrun
        rw [← (Prod.mk.inj (Except.ok.inj hend)).2]
        exact hsteps.top hstart hfile
      | dir =>
        rw [htype] at hrun
        obtain ⟨⟨r, u⟩, hmove, hend⟩ := Except.bind_ok.mp hrun
        rw [← (Prod.mk.inj (Except.ok.inj hend)).2]
        rw [(renameDirectory_agree cx env env.stack hr hroot hc).1] at hmove
        apply hsteps.directory hr hroot hc _ hstart hmove
        intro d u v type ret r _ hready hu hentries
        exact hsteps.entries f d u v old new type ret r hready hu hentries
  refine ⟨?_, ?_⟩
  · intro r ob hob hd
    exact hkept.file ('/' :: r) ob (Within.child_self old r) hob hd
  · intro q ob hq hob hfree
    apply hkept.other q ob hq hob
    intro w ob' hw he hob'
    rcases Within.iff_append.mp hw with hself | ⟨r, hr'⟩
    · rw [hself] at hob'
      rw [Store.ftype?_of_ne hroot, hob'] at hdir
      exact Option.some.inj hdir
    · obtain rfl : w = '/' :: r := List.append_cancel_left hr'
      exact hfree r ob' he hob'

/-- No removal goes through. -/
def stubborn : Env :=
  { Env.quiet with
    remote := fun c =>
      match c with
      | .unlink _ => .failure
      | _ => .success }

theorem rename_loses_nothing_sample : ∃ ret t,
    dfsRename Sample.plain stubborn (Sample.daemon nested).world ['/', 'a'] ['/', 'b'] =
      .ok (ret, t) ∧
    (∀ r ob, (Sample.daemon nested).world.store.lookup (child ['/', 'a'] r) = some ob →
      ob.ftype ≠ .dir → t.store.lookup (child ['/', 'a'] r) = some ob ∨
        t.store.lookup (child ['/', 'b'] r) = some ob) ∧
    ∀ q ob, ¬Within ['/', 'a'] q → (Sample.daemon nested).world.store.lookup q = some ob →
      (∀ r ob', q = child ['/', 'b'] r →
        (Sample.daemon nested).world.store.lookup (child ['/', 'a'] r) = some ob' →
          ob'.ftype = .dir) → t.store.lookup q = some ob := by
  cases hrun : dfsRename Sample.plain stubborn (Sample.daemon nested).world ['/', 'a']
      ['/', 'b'] with
  | error e =>
    have hok : (dfsRename Sample.plain stubborn (Sample.daemon nested).world ['/', 'a']
      ['/', 'b']).isOk = true := by decide
    rw [hrun] at hok
    cases hok
  | ok p =>
    exact ⟨p.1, p.2, rfl, rename_loses_nothing Sample.plain stubborn nested_ready (by decide)
      (by decide) (by decide) (by decide) hrun⟩

end DropletFs
