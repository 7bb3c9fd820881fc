import DropletFs.Rename.Forest

/-! As long as no directory takes more temporary strings than its paths last, `rename_directory`
does what it does on values. -/

namespace DropletFs

open CText LocalFs

/-- At most `k` temporary strings lie between the two states. -/
def World.Pushed (s t : World) (k : Nat) : Prop :=
  ∃ texts, t.ring = s.ring.pushAll texts ∧ texts.length ≤ k

namespace World.Pushed

variable {s t u : World} {p : Str} {k m : Nat}

theorem of_ring (h : t.ring = s.ring) : s.Pushed t k := ⟨[], h, Nat.zero_le k⟩

theorem mono (h : s.Pushed t k) (hk : k ≤ m) : s.Pushed t m := by
  obtain ⟨texts, hr, hl⟩ := h
  exact ⟨texts, hr, hl.trans hk⟩

theorem trans (h : s.Pushed t k) (h' : t.Pushed u m) : s.Pushed u (k + m) := by
  obtain ⟨texts, hr, hl⟩ := h
  obtain ⟨texts', hr', hl'⟩ := h'
  refine ⟨texts ++ texts', ?_, ?_⟩
  · rw [hr', hr, RingBuffer.pushAll_append]
  · rw [List.length_append]
    omega

theorem lasts (h : s.Pushed t k) (hp : s.Lasts p (k + m)) :
    t.text p = s.text p ∧ t.Lasts p m := by
  obtain ⟨texts, hr, hl⟩ := h
  obtain ⟨htext, hlast⟩ := hp.after hr (by omega)
  exact ⟨htext, hlast.mono (by omega)⟩

end World.Pushed

/-- A call on pointers does what the one on values does; that one takes at most `k` temporary
strings and touches nothing but what lies within `o` and `n`. -/
def Agree (cx : Ctx) (env : Env) (o n : Path) (s : World) (k : Nat)
    (real value : Except Fault (Int × World)) : Prop :=
  real = value ∧ ∀ ret t, value = .ok (ret, t) →
    s.Pushed t k ∧ ∀ I, MoveSteps cx env o n I → I s → I t

namespace Agree

variable {cx : Ctx} {env : Env} {o n o' n' : Path} {s t : World} {k m : Nat}
  {real value : Except Fault (Int × World)}

theorem returns {ret : Int} (hp : s.Pushed t k) (hI : ∀ I, MoveSteps cx env o n I → I s → I t) :
    Agree cx env o n s k (.ok (ret, t)) (.ok (ret, t)) := by
  refine ⟨rfl, ?_⟩
  intro ret' t' h
  simp only [Except.ok.injEq, Prod.mk.injEq] at h
  rw [← h.2]
  exact ⟨hp, hI⟩

theorem mono (h : Agree cx env o n s k real value) (hk : k ≤ m) :
    Agree cx env o n s m real value := by
  refine ⟨h.1, fun ret t ht => ?_⟩
  obtain ⟨hp, hI⟩ := h.2 ret t ht
  exact ⟨hp.mono hk, hI⟩

/-- Steps before the call. -/
theorem after (hp : s.Pushed t k) (hI : ∀ I, MoveSteps cx env o n I → I s → I t)
    (h : Agree cx env o n t m real value) : Agree cx env o n s (k + m) real value := by
  refine ⟨h.1, fun ret u hu => ?_⟩
  obtain ⟨hp', hI'⟩ := h.2 ret u hu
  exact ⟨hp.trans hp', fun I hs hi => hI' I hs (hI I hs hi)⟩

theorem bind {f g : Int × World → Except Fault (Int × World)} (ho : Within o o')
    (hn : Within n n') (h : Agree cx env o' n' s k real value)
    (hf : ∀ ret t, s.Pushed t k → (∀ I, MoveSteps cx env o' n' I → I s → I t) →
      Agree cx env o n t m (f (ret, t)) (g (ret, t))) :
    Agree cx env o n s (k + m) (real >>= f) (value >>= g) := by
  obtain ⟨rfl, hv⟩ := h
  cases hr : real with
  | error e => exact ⟨rfl, fun ret t ht => by cases ht⟩
  | ok p =>
    obtain ⟨ret, t⟩ := p
    obtain ⟨hp, hI⟩ := hv ret t hr
    exact after hp (fun I hs => hI I (hs.mono ho hn)) (hf ret t hp hI)

end Agree

/-- The two paths of an entry go to the next two slots. -/
theorem World.entryPaths_eq {s : World} {op np : Str} {o n : Path} {k : Nat} (name : CStr)
    (hop : s.text op = o) (hnp : s.text np = n) (ho : s.Lasts op (k + 2))
    (hn : s.Lasts np (k + 2)) :
    (s.log (.iter o n)).entryPaths op np name = .ok (.tmp s.ring.next, .tmp (s.ring.next + 1),
      s.paired o n (entryPath o name) (entryPath n name)) := by
  have ho' : (s.log (.iter o n)).Lasts op (k + 2) := ho.of_ring rfl
  have hn' : (s.log (.iter o n)).Lasts np (k + 2) := hn.of_ring rfl
  have hpush := fun text => hn.push (t := { s with ring := s.ring.push text }) rfl
  have hok : ∃ r, (s.log (.iter o n)).entryPaths op np name = .ok r := by
    unfold World.entryPaths
    have h1 : .tmp (s.log (.iter o n)).ring.next ∉ [op, .ext ['/'], .ext name] := by
      simpa using Ne.symm ho'.ne_next
    rw [World.tmpstrPrintf_of_notMem h1]
    simp only [bind, Except.bind]
    generalize tmpstr _ = text
    have h2 : .tmp ({ s.log (.iter o n) with ring := s.ring.push text } : World).ring.next ∉
        [np, .ext ['/'], .ext name] := by simpa using Ne.symm (hpush text).2.ne_next
    rw [show (s.log (.iter o n)).ring = s.ring from rfl, World.tmpstrPrintf_of_notMem h2]
    exact ⟨_, rfl⟩
  obtain ⟨⟨src, dst, t⟩, hr⟩ := hok
  obtain ⟨_, _, rfl, rfl, rfl⟩ := World.entryPaths_ok hr
  have hsrc : op.read s.ring = o := hop
  have hdst : ∀ text, np.read (s.ring.push text) = n := fun text => (hpush text).1.trans hnp
  rw [hr, entryPath_eq, entryPath_eq]
  change Except.ok (_, _, { s.log (.iter o n) with ring := entryRing s.ring op np name }) = _
  simp only [entryRing, hsrc, hdst]
  rfl

/-- The two newest slots, and how long they last. -/
theorem World.paired_slots (s : World) (o n a b : Path) :
    (s.paired o n a b).text (.tmp s.ring.next) = a ∧
    (s.paired o n a b).text (.tmp (s.ring.next + 1)) = b ∧
    (s.paired o n a b).Lasts (.tmp s.ring.next) 30 ∧
    (s.paired o n a b).Lasts (.tmp (s.ring.next + 1)) 30 := by
  have hlt : 1 < tmpstrNb := by decide
  have h1 : (s.ring.push a).room s.ring.next = 31 := RingBuffer.push_room_next _ _
  have h2 : ((s.ring.push a).push b).room (s.ring.push a).next = 31 :=
    RingBuffer.push_room_next _ _
  have h3 : ((s.ring.push a).push b).room s.ring.next = 30 := by
    rw [RingBuffer.push_room (by omega), h1]
  refine ⟨RingBuffer.push_push_slots_next hlt _ _ _, RingBuffer.push_slots_next _ _, ?_, ?_⟩
  · exact h3.ge
  · change 30 ≤ ((s.ring.push a).push b).room (s.ring.push a).next
    omega

section Setup

variable {cx : Ctx} {env : Env} {s : World} {o n : Path}

/-- `rename_directory` before its loop: the target may have been made, and the names to read are
those of the directory that was opened. -/
theorem renameSetup_spec (env : Env) (s : World) (o n : Path) :
    ∃ u cwd, (u = s ∨ u = (dfsMkdir env s n).2) ∧
      (renameSetup env s o n).2 = { u with cwd := cwd } ∧
      ∀ type names, (renameSetup env s o n).1 = .ok (type, names) →
        u.store.ftype? o = some .dir ∧
        names = ['.'] :: ['.', '.'] :: (u.store.children o).map (u.store.direntName o) := by
  have hchdir : ∀ (u : World) cwd, dplChdir env u.store o = (.success, cwd) →
      u.store.ftype? o = some .dir ∧ cwd = some o := by
    intro u cwd h
    unfold dplChdir at h
    split at h
    · split at h
      · simp at h
      · rename_i ht
        simp only [Prod.mk.injEq, true_and] at h
        exact ⟨ht, h.symm⟩
      · simp [enotdir] at h
    · rename_i hne
      simp only [Prod.mk.injEq] at h
      exact (hne h.1).elim
  have hopen : ∀ (u : World) names, dplOpendir env u.store o = (.success, names) →
      names = ['.'] :: ['.', '.'] :: (u.store.children o).map (u.store.direntName o) := by
    intro u names h
    unfold dplOpendir at h
    split at h
    · simp only [Prod.mk.injEq, true_and] at h
      exact h.symm
    · rename_i hne
      simp only [Prod.mk.injEq] at h
      exact (hne h.1).elim
  unfold renameSetup
  dsimp only
  by_cases hrc : (dplNamei env s.store n).1 ≠ .success ∧ (dplNamei env s.store n).1 ≠ .enoent
  · rw [if_pos hrc]
    exact ⟨s, s.cwd, .inl rfl, rfl, fun _ _ h => by cases h⟩
  rw [if_neg hrc]
  generalize hm : (if (dplNamei env s.store n).1 = .enoent then dfsMkdir env s n else (0, s)) = m
  have hu : m.2 = s ∨ m.2 = (dfsMkdir env s n).2 := by
    rw [← hm]
    split_ifs
    · exact .inr rfl
    · exact .inl rfl
  by_cases hmade : m.1 ≠ 0
  · rw [if_pos hmade]
    exact ⟨m.2, m.2.cwd, hu, rfl, fun _ _ h => by cases h⟩
  rw [if_neg hmade]
  split
  · rename_i cwd hcd
    obtain ⟨hdir, rfl⟩ := hchdir m.2 cwd hcd
    dsimp only [Option.getD_some]
    split
    · rename_i names hop
      refine ⟨m.2, o, hu, rfl, ?_⟩
      intro type names' h
      simp only [Except.ok.injEq, Prod.mk.injEq] at h
      exact ⟨hdir, h.2 ▸ hopen m.2 names hop⟩
    · exact ⟨m.2, o, hu, rfl, fun _ _ h => by cases h⟩
  · exact ⟨m.2, m.2.cwd, hu, rfl, fun _ _ h => by cases h⟩

/-- The setup pushes nothing and is made of steps of the rename. -/
theorem renameSetup_steps (cx : Ctx) (env : Env) (s : World) (o n : Path) :
    (renameSetup env s o n).2.ring = s.ring ∧
    ∀ I, MoveSteps cx env o n I → I s → I (renameSetup env s o n).2 := by
  obtain ⟨u, cwd, hu, he, _⟩ := renameSetup_spec env s o n
  rw [he]
  rcases hu with rfl | rfl
  · exact ⟨rfl, fun I hI hi => hI.aside u u.ring cwd u.trace hi⟩
  · refine ⟨(dfsMkdir_effect env s n).2.1, fun I hI hi => ?_⟩
    exact hI.aside _ _ cwd _ (hI.mkdir s n (Within.refl n) hi)

/-- A path that is not a directory is refused before the loop. -/
theorem directory_refused (cx : Ctx) (env : Env) {op np : Str} (depth : Nat) (ho : s.text op = o)
    (hn : s.text np = n)
    (hne : o ≠ n) (hd : s.store.ftype? o ≠ some .dir) :
    ∃ ret, renameDirectory cx env (depth + 1) s op np =
        .ok (ret, (renameSetup env (s.log (.enter o n)) o n).2) ∧
      moveDirectory cx env (depth + 1) s o n =
        .ok (ret, (renameSetup env (s.log (.enter o n)) o n).2) := by
  obtain ⟨u, cwd, hu, he, hok⟩ := renameSetup_spec env (s.log (.enter o n)) o n
  have hdir : u.store.ftype? o ≠ some .dir := by
    rcases hu with rfl | rfl
    · exact hd
    · rw [(dfsMkdir_effect env (s.log (.enter o n)) n).1, Store.ftype?,
        (Store.changed_mkdir env _ n).lookup hne]
      exact hd
  have ho' : (s.log (.enter o n)).text op = o := ho
  have hn' : (s.log (.enter o n)).text np = n := hn
  rw [renameDirectory, moveDirectory, ho, hn]
  dsimp only
  rw [ho', hn']
  generalize renameSetup env (s.log (.enter o n)) o n = r at hok
  obtain ⟨r, t⟩ := r
  cases r with
  | error ret => exact ⟨ret, rfl, rfl⟩
  | ok p =>
    obtain ⟨type, names⟩ := p
    exact (hdir (hok type names rfl).1).elim

/-- What such a rename leaves: it may have made the new directory, and moved into a directory. -/
theorem renameDirectory_refused {I : World → Prop} {depth : Nat} {ret : Int} {t : World}
    (aside : ∀ s ring cwd trace, I s → I { s with ring := ring, cwd := cwd, trace := trace })
    (mkdir : ∀ s, I s → I (dfsMkdir env s n).2) (hne : o ≠ n)
    (hd : s.store.ftype? o ≠ some .dir) (hs : I s)
    (h : renameDirectory cx env depth s (.ext o) (.ext n) = .ok (ret, t)) : I t := by
  cases depth with
  | zero => cases h
  | succ depth =>
    have hop : s.text (.ext o) = o := rfl
    have hnp : s.text (.ext n) = n := rfl
    obtain ⟨r, hreal, _⟩ := directory_refused cx env depth hop hnp hne hd
    obtain ⟨u, cwd, hu, hset, _⟩ := renameSetup_spec env (s.log (.enter o n)) o n
    rw [hreal, hset] at h
    obtain rfl : { u with cwd := cwd } = t := congrArg Prod.snd (Except.ok.inj h)
    have hlog : I (s.log (.enter o n)) := aside s s.ring s.cwd _ hs
    rcases hu with rfl | rfl
    · exact aside _ _ cwd _ hlog
    · exact aside _ _ cwd _ (mkdir _ hlog)

theorem moveDirectory_notDir {depth : Nat} {op np : Str} (ho : s.text op = o)
    (hn : s.text np = n) (hne : o ≠ n) (hd : s.store.ftype? o ≠ some .dir) :
    Agree cx env o n s 0 (renameDirectory cx env depth s op np)
      (moveDirectory cx env depth s o n) := by
  cases depth with
  | zero => exact ⟨rfl, fun ret t ht => by cases ht⟩
  | succ depth =>
    obtain ⟨ret, hreal, hvalue⟩ := directory_refused cx env depth ho hn hne hd
    obtain ⟨hring, hI⟩ := renameSetup_steps cx env (s.log (.enter o n)) o n
    rw [hreal, hvalue]
    exact Agree.returns (.of_ring hring) fun I hs hi => hI I hs (hs.aside s s.ring s.cwd _ hi)

/-- A directory is not copied. -/
theorem renameFile_dir {a b : Path} (hd : s.store.ftype? a = some .dir) :
    renameFile cx env s (.ext a) (.ext b) = .ok (-1, s) := by
  have hcopy : (dplFcopy env s.store a b).1 ≠ .success ∧
      (dplFcopy env s.store a b).2 = s.store := by
    unfold dplFcopy
    split
    · by_cases hr : a = rootPath ∨ s.store.ftype? b = some .dir
      · rw [if_pos hr]
        exact ⟨by simp, rfl⟩
      · rw [if_neg hr]
        rw [not_or] at hr
        rw [Store.ftype?, if_neg hr.1] at hd
        cases hl : s.store.lookup a with
        | none => exact ⟨by simp, rfl⟩
        | some obj =>
          rw [hl, Option.map_some, Option.some.injEq] at hd
          simp [hd]
    · rename_i hne
      exact ⟨fun e => hne e, rfl⟩
  have ha : s.text (.ext a) = a := rfl
  have hb : s.text (.ext b) = b := rfl
  rw [renameFile, ha, hb]
  split
  · rename_i store hst
    rw [hst] at hcopy
    exact (hcopy.1 rfl).elim
  · rename_i rc store hne hst
    rw [hst] at hcopy
    have hs : store = s.store := hcopy.2
    rw [hs]

end Setup

section Loop

variable {cx : Ctx} {env : Env} {s u : World} {o n a b : Path} {op np src dst : Str} {k m : Nat}

theorem renameFile_agree (hsrc : u.text src = a) (hdst : u.text dst = b) (hl : u.Lasts src 30) :
    Agree cx env a b u (1 + if (u.hash a).isSome then 1 else 0)
      (renameFile cx env u src dst) (renameFile cx env u (.ext a) (.ext b)) := by
  subst hsrc hdst
  refine ⟨renameFile_value (k := 28) hl, fun ret t ht => ⟨renameFile_pushes ht, ?_⟩⟩
  intro I hI hi
  exact hI.file u _ _ ret t (Within.refl _) (Within.refl _) hi ht

theorem file_agree {depth : Nat} (type : FType) (hsrc : u.text src = a) (hdst : u.text dst = b)
    (hl : u.Lasts src 30) (hne : a ≠ b) (hd : u.store.ftype? a ≠ some .dir) :
    Agree cx env a b u (1 + if (u.hash a).isSome then 1 else 0)
      (descend type (renameDirectory cx env depth u src dst) (renameFile cx env u src dst))
      (descend type (moveDirectory cx env depth u a b)
        (renameFile cx env u (.ext a) (.ext b))) := by
  by_cases hdir : type = .dir
  · rw [descend, descend, if_pos hdir, if_pos hdir]
    exact (moveDirectory_notDir hsrc hdst hne hd).mono (Nat.zero_le _)
  · rw [descend, descend, if_neg hdir, if_neg hdir]
    exact renameFile_agree hsrc hdst hl

theorem dir_agree {depth : Nat} (type : FType) (hsrc : u.text src = a) (hdst : u.text dst = b)
    (hl : u.Lasts src 30) (hd : u.store.ftype? a = some .dir)
    (hdir : Agree cx env a b u k (renameDirectory cx env depth u src dst)
      (moveDirectory cx env depth u a b)) :
    Agree cx env a b u k
      (descend type (renameDirectory cx env depth u src dst) (renameFile cx env u src dst))
      (descend type (moveDirectory cx env depth u a b)
        (renameFile cx env u (.ext a) (.ext b))) := by
  unfold descend
  split_ifs
  · exact hdir
  · subst hsrc hdst
    rw [renameFile_value (k := 28) hl, renameFile_dir hd]
    exact Agree.returns (.of_ring rfl) fun _ _ hi => hi

/-- One iteration of the loop, and the rest of it. -/
theorem entry_agree {renameDir : Rename} {moveDir : Move} {name x : CStr} {names : List CStr}
    (type : FType) (ret : Int) (hname : ¬(name = ['.'] ∨ name = ['.', '.']))
    (hsrc : entryPath o name = child o x) (hdst : entryPath n name = child n x)
    (hop : s.text op = o) (hnp : s.text np = n) (hlo : s.Lasts op (2 + k + m))
    (hln : s.Lasts np (2 + k + m))
    (hchild : ∀ (u : World) (type : FType) (src dst : Str), u.store = s.store → u.hash = s.hash →
      u.text src = child o x → u.text dst = child n x → u.Lasts src 30 → u.Lasts dst 30 →
      Agree cx env (child o x) (child n x) u k
        (descend type (renameDir u src dst) (renameFile cx env u src dst))
        (descend type (moveDir u (child o x) (child n x))
          (renameFile cx env u (.ext (child o x)) (.ext (child n x)))))
    (hrest : ∀ (u : World) (type : FType) (ret : Int),
      (∀ I, MoveSteps cx env (child o x) (child n x) I → I s → I u) →
      u.text op = o → u.text np = n → u.Lasts op m → u.Lasts np m →
      Agree cx env o n u m (renameEntries cx env renameDir op np names u type ret)
        (moveEntries cx env moveDir o n names u type ret)) :
    Agree cx env o n s (2 + k + m)
      (renameEntries cx env renameDir op np (name :: names) s type ret)
      (moveEntries cx env moveDir o n (name :: names) s type ret) := by
  have hpaths := World.entryPaths_eq (k := k + m) name hop hnp (hlo.mono (by omega))
    (hln.mono (by omega))
  rw [hsrc, hdst] at hpaths
  obtain ⟨hs1, hs2, hl1, hl2⟩ := s.paired_slots o n (child o x) (child n x)
  have hu : s.Pushed (s.paired o n (child o x) (child n x)) 2 := ⟨[_, _], rfl, le_rfl⟩
  have hI : ∀ {o' n' I}, MoveSteps cx env o' n' I → I s →
      I (s.paired o n (child o x) (child n x)) := fun hI hi => hI.aside s _ s.cwd _ hi
  rw [renameEntries_cons type ret hname (by rw [hop, hnp]; exact hpaths),
    moveEntries_cons type ret hname hsrc hdst, hs1, hs2]
  have hstore : (s.paired o n (child o x) (child n x)).store = s.store := rfl
  have hhash : (s.paired o n (child o x) (child n x)).hash = s.hash := rfl
  generalize s.paired o n (child o x) (child n x) = u at *
  dsimp only
  cases dplNamei env u.store (child o x) with
  | mk rc found =>
    dsimp only
    by_cases hrc : rc ≠ .success ∧ rc ≠ .enoent
    · rw [if_pos hrc, if_pos hrc]
      exact Agree.returns (hu.mono (by omega)) fun I hs => hI hs
    rw [if_neg hrc, if_neg hrc, Nat.add_assoc]
    have hlog : ∀ {o' n' I}, MoveSteps cx env o' n' I → I s →
        I (u.log (.pass (child o x) (child n x))) :=
      fun hs hi => hs.aside u u.ring u.cwd _ (hI hs hi)
    have hbefore : s.Pushed (u.log (.pass (child o x) (child n x))) 2 := hu
    have hbody := hchild (u.log (.pass (child o x) (child n x))) (found.getD type)
      (.tmp s.ring.next) (.tmp (s.ring.next + 1)) hstore hhash hs1 hs2 hl1 hl2
    apply Agree.after hbefore fun I hs => hlog hs
    apply Agree.bind (Within.child_self o x) (Within.child_self n x) hbody
    intro ret' t ht hkeep
    obtain ⟨hto, htlo⟩ := (hbefore.trans ht).lasts hlo
    obtain ⟨htn, htln⟩ := (hbefore.trans ht).lasts hln
    exact hrest t (found.getD type) ret' (fun I hs hi => hkeep I hs (hlog hs hi))
      (hto.trans hop) (htn.trans hnp) htlo htln

/-- The two entries that are skipped. -/
theorem dots_agree (cx : Ctx) (env : Env) {renameDir : Rename} {moveDir : Move} {names : List CStr}
    (type : FType)
    (ret : Int) (hop : s.text op = o) (hnp : s.text np = n)
    (h : Agree cx env o n ((s.log (.iter o n)).log (.iter o n)) k
      (renameEntries cx env renameDir op np names ((s.log (.iter o n)).log (.iter o n)) type ret)
      (moveEntries cx env moveDir o n names ((s.log (.iter o n)).log (.iter o n)) type ret)) :
    Agree cx env o n s k
      (renameEntries cx env renameDir op np (['.'] :: ['.', '.'] :: names) s type ret)
      (moveEntries cx env moveDir o n (['.'] :: ['.', '.'] :: names) s type ret) := by
  have hop' : ∀ e, (s.log e).text op = o := fun _ => hop
  have hnp' : ∀ e, (s.log e).text np = n := fun _ => hnp
  rw [renameEntries, moveEntries, if_pos (.inl rfl), if_pos (.inl rfl), renameEntries, moveEntries,
    if_pos (.inr rfl), if_pos (.inr rfl), hop, hnp, hop', hnp', ← Nat.zero_add k]
  have hp : s.Pushed ((s.log (.iter o n)).log (.iter o n)) 0 := .of_ring rfl
  have hI : ∀ I, MoveSteps cx env o n I → I s → I ((s.log (.iter o n)).log (.iter o n)) :=
    fun I hI hi => hI.aside s s.ring s.cwd _ hi
  exact Agree.after hp hI h

/-- What the loop over the entries of `o` relies on. -/
structure Ready (s : World) (o n : Path) (f : Forest) : Prop where
  named : o ≠ []
  separate : Separate o n
  entries : f.In s.store o
  shortOld : f.Short o
  shortNew : f.Short n
  safe : f.RingSafe s.hash o

theorem Ready.same {f : Forest} (h : Ready s o n f)
    (hs : ∀ x ∈ f.names, World.Same (child o x) s u) :
    Ready u o n f ∧ f.cost u.hash o = f.cost s.hash o := by
  have hh : ∀ x ∈ f.names, ∀ q, Within (child o x) q → u.hash q = s.hash q :=
    fun x hx => (hs x hx).hash
  exact ⟨⟨h.named, h.separate, h.entries.congr h.named hs, h.shortOld, h.shortNew,
    h.safe.congr hh⟩, Forest.cost_congr hh⟩

/-- A directory, once its loop is known to agree. -/
theorem directory_agree {f : Forest} {depth : Nat} (hr : Ready s o n f) (hroot : o ≠ rootPath)
    (hc : s.store.children o = f.names) (hop : s.text op = o) (hnp : s.text np = n)
    (hlo : s.Lasts op (f.cost s.hash o + 1)) (hln : s.Lasts np (f.cost s.hash o + 1))
    (hloop : ∀ (u : World) (type : FType) (ret : Int), Ready u o n f → u.text op = o →
      u.text np = n → u.Lasts op (f.cost u.hash o) → u.Lasts np (f.cost u.hash o) →
      Agree cx env o n u (f.cost u.hash o)
        (renameEntries cx env (renameDirectory cx env depth) op np f.listed u type ret)
        (moveEntries cx env (moveDirectory cx env depth) o n f.listed u type ret)) :
    Agree cx env o n s (f.cost s.hash o + 1) (renameDirectory cx env (depth + 1) s op np)
      (moveDirectory cx env (depth + 1) s o n) := by
  obtain ⟨v, cwd, hv, he, hok⟩ := renameSetup_spec env (s.log (.enter o n)) o n
  obtain ⟨hring, hI⟩ := renameSetup_steps cx env (s.log (.enter o n)) o n
  have hop' : (s.log (.enter o n)).text op = o := hop
  have hnp' : (s.log (.enter o n)).text np = n := hnp
  have hsame : World.Same o s (renameSetup env (s.log (.enter o n)) o n).2 := by
    rw [he]
    rcases hv with rfl | rfl
    · exact ⟨fun _ _ => rfl, fun _ _ _ => rfl, fun _ _ => rfl⟩
    · have hmk := dfsMkdir_same env (s.log (.enter o n)) hr.separate.1
      exact ⟨hmk.lookup, hmk.children, hmk.hash⟩
  have hstore : v.store = (renameSetup env (s.log (.enter o n)) o n).2.store := by rw [he]
  rw [renameDirectory, moveDirectory, hop, hnp]
  dsimp only
  rw [hop', hnp']
  rw [hstore] at hok
  have hbefore : ∀ I, MoveSteps cx env o n I → I s →
      I (renameSetup env (s.log (.enter o n)) o n).2 :=
    fun I hs hi => hI I hs (hs.aside s s.ring s.cwd _ hi)
  have hring' : (renameSetup env (s.log (.enter o n)) o n).2.ring = s.ring := hring
  clear hI hring he hstore
  generalize renameSetup env (s.log (.enter o n)) o n = r at *
  obtain ⟨r, t⟩ := r
  cases r with
  | error ret => exact Agree.returns (.of_ring hring') hbefore
  | ok p =>
    obtain ⟨type, names⟩ := p
    obtain ⟨hready, hcost⟩ := hr.same fun x _ => hsame.mono (Within.child_self o x)
    obtain ⟨_, hnames⟩ := hok type names rfl
    have hlist : names = ['.'] :: ['.', '.'] :: f.listed := by
      have hct := (hsame.children o hroot (Within.refl o)).trans hc
      rw [hnames, hct, Forest.listed_eq hroot hready.entries]
    subst hlist
    have htop : t.text op = o := by rw [World.text, hring', ← World.text, hop]
    have htnp : t.text np = n := by rw [World.text, hring', ← World.text, hnp]
    have hto : t.Lasts op (f.cost t.hash o + 1) := hcost ▸ hlo.of_ring hring'
    have htn : t.Lasts np (f.cost t.hash o + 1) := hcost ▸ hln.of_ring hring'
    have hdots := dots_agree cx env type 0 htop htnp
      (hloop ((t.log (.iter o n)).log (.iter o n)) type 0 ⟨hready.named, hready.separate,
        hready.entries, hready.shortOld, hready.shortNew, hready.safe⟩ htop htnp
        ((hto.mono (Nat.le_succ _)).of_ring rfl) ((htn.mono (Nat.le_succ _)).of_ring rfl))
    rw [← hcost, ← Nat.zero_add (f.cost t.hash o + 1)]
    apply Agree.after (.of_ring hring') hbefore
    apply Agree.bind (Within.refl o) (Within.refl n) hdots
    intro ret u hu _
    dsimp only
    by_cases hret : ret = -1
    · rw [if_pos hret, if_pos hret]
      exact Agree.returns (.of_ring rfl) fun _ _ hi => hi
    rw [if_neg hret, if_neg hret]
    obtain ⟨huo, hlu⟩ := hu.lasts hto
    have huo' : u.text op = o := huo.trans htop
    rw [dfsRmdir_value (k := 0) hlu, huo', ← Nat.add_zero 1]
    have hrm : Agree cx env o n u 1 (dfsRmdir cx env u (.ext o)) (dfsRmdir cx env u (.ext o)) := by
      refine ⟨rfl, fun ret w hw => ⟨?_, fun I hI hi => hI.rmdir u o ret w (Within.refl o) hi hw⟩⟩
      refine ⟨_, (dfsRmdir_effect hw).2.2.1, ?_⟩
      split_ifs <;> simp
    apply Agree.bind (Within.refl o) (Within.refl n) hrm
    intro ret' w _ _
    exact Agree.returns (.of_ring rfl) fun _ _ hi => hi

/-- What a rename of one entry leaves for the others. -/
theorem Ready.after_entry {f : Forest} {x : CStr} (hr : Ready s o n f) (hx : Proper x)
    (hn : x ∉ f.names)
    (hkeep : ∀ I, MoveSteps cx env (child o x) (child n x) I → I s → I u) :
    Ready u o n f ∧ f.cost u.hash o = f.cost s.hash o := by
  refine hr.same fun y hy => hkeep _ (MoveSteps.same s ?_ ?_) (.refl _ _)
  · have hne : y ≠ x := by
      rintro rfl
      exact hn hy
    exact Separate.siblings (hr.entries.proper hy).2.1 hx.2.1 hne o
  · exact hr.separate.mono (Within.child_self o y) (Within.child_self n x)

/-- The loop on pointers is the loop on values, over any forest that is safe for the ring. -/
theorem renameEntries_agree (f : Forest) (depth : Nat) (s : World) (o n : Path) (op np : Str)
    (type : FType) (ret : Int) (hr : Ready s o n f) (hop : s.text op = o) (hnp : s.text np = n)
    (hlo : s.Lasts op (f.cost s.hash o)) (hln : s.Lasts np (f.cost s.hash o)) :
    Agree cx env o n s (f.cost s.hash o)
      (renameEntries cx env (renameDirectory cx env depth) op np f.listed s type ret)
      (moveEntries cx env (moveDirectory cx env depth) o n f.listed s type ret) := by
  induction f generalizing depth s o n op np type ret with
  | nil =>
    rw [Forest.listed, renameEntries, moveEntries, hop, hnp]
    exact Agree.returns (.of_ring rfl) fun I hI hi => hI.aside s s.ring s.cwd _ hi
  | file x rest ih =>
    obtain ⟨hx, hnew, ⟨ft, hft, hfd⟩, hin⟩ := hr.entries
    have hrest : Ready s o n rest :=
      ⟨hr.named, hr.separate, hin, hr.shortOld.2, hr.shortNew.2, hr.safe⟩
    have hcost : (Forest.file x rest).cost s.hash o =
        2 + (1 + if (s.hash (child o x)).isSome then 1 else 0) + rest.cost s.hash o := by
      rw [Forest.cost]
      omega
    rw [hcost] at hlo hln ⊢
    apply entry_agree type ret hx.not_dot (entryPath_file hx hr.shortOld.1)
      (entryPath_file hx hr.shortNew.1) hop hnp hlo hln
    · intro u type' src dst hstore hhash hsrc hdst hl _
      rw [← hhash]
      apply file_agree type' hsrc hdst hl (hr.separate.child_ne x x)
      rw [hstore, hft]
      simpa using hfd
    · intro u type' ret' hkeep htop htnp hto htn
      obtain ⟨hready, hc⟩ := hrest.after_entry hx hnew hkeep
      rw [← hc] at hto htn ⊢
      exact ih depth u o n op np type' ret' hready htop htnp hto htn
  | dir x sub rest ihsub ih =>
    obtain ⟨hx, hnew, hft, hch, hinsub, hin⟩ := hr.entries
    have hrest : Ready s o n rest :=
      ⟨hr.named, hr.separate, hin, hr.shortOld.2.2, hr.shortNew.2.2, hr.safe.2.2⟩
    have hsub : Ready s (child o x) (child n x) sub :=
      ⟨child_ne_nil o x, hr.separate.mono (Within.child_self o x) (Within.child_self n x), hinsub,
        hr.shortOld.2.1, hr.shortNew.2.1, hr.safe.2.1⟩
    have hcost : (Forest.dir x sub rest).cost s.hash o =
        2 + (sub.cost s.hash (child o x) + 1) + rest.cost s.hash o := by
      rw [Forest.cost]
      omega
    rw [hcost] at hlo hln ⊢
    apply entry_agree type ret (slash_not_dot x) (entryPath_dir hx hr.shortOld.1)
      (entryPath_dir hx hr.shortNew.1) hop hnp hlo hln
    · intro u type' src dst hstore hhash hsrc hdst hl hl'
      have hsub' : Ready u (child o x) (child n x) sub :=
        ⟨hsub.named, hsub.separate, hstore ▸ hsub.entries, hsub.shortOld, hsub.shortNew,
          hhash ▸ hsub.safe⟩
      have hle : sub.cost s.hash (child o x) + 1 ≤ 30 := by
        have h29 := hr.safe.1
        omega
      rw [← hhash] at hle ⊢
      apply dir_agree type' hsrc hdst hl (by rw [hstore, hft])
      cases depth with
      | zero => exact ⟨rfl, fun ret t ht => by cases ht⟩
      | succ depth =>
        apply directory_agree hsub' (child_ne_root hr.named x) (by rw [hstore, hch]) hsrc hdst
          (hl.mono hle) (hl'.mono hle)
        intro v type'' ret'' hv hvo hvn hlo' hln'
        exact ihsub depth v _ _ src dst type'' ret'' hv hvo hvn hlo' hln'
    · intro u type' ret' hkeep htop htnp hto htn
      obtain ⟨hready, hc⟩ := hrest.after_entry hx hnew hkeep
      rw [← hc] at hto htn ⊢
      exact ih depth u o n op np type' ret' hready htop htnp hto htn

/-- A renamed directory whose forest is safe for the ring: the texts the caller owns last. -/
theorem renameDirectory_agree (cx : Ctx) (env : Env) {f : Forest} (depth : Nat) (hr : Ready s o n f)
    (hroot : o ≠ rootPath)
    (hc : s.store.children o = f.names) :
    Agree cx env o n s (f.cost s.hash o + 1) (renameDirectory cx env depth s (.ext o) (.ext n))
      (moveDirectory cx env depth s o n) := by
  cases depth with
  | zero => exact ⟨rfl, fun ret t ht => by cases ht⟩
  | succ depth =>
    have hop : s.text (.ext o) = o := rfl
    have hnp : s.text (.ext n) = n := rfl
    apply directory_agree hr hroot hc hop hnp trivial trivial
    intro u type ret hu hop hnp hlo hln
    exact renameEntries_agree f depth u o n _ _ type ret hu hop hnp hlo hln

end Loop

end DropletFs
