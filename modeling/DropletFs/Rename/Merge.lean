import DropletFs.Remote.Calls
import DropletFs.Rename.Handles

/-! A directory renamed onto one that has entries. `rename_directory` makes its target only when
it is missing and otherwise carries on into it, so the two are merged: a rename is refused as a
whole only when the store refuses every single move. -/

namespace DropletFs

open CText LocalFs

namespace Forest

/-- The number of objects. -/
def count : Forest → Nat
  | nil => 0
  | file _ rest => 1 + rest.count
  | dir _ sub rest => 1 + sub.count + rest.count

/-- How many directories lie within each other. -/
def height : Forest → Nat
  | nil => 0
  | file _ rest => rest.height
  | dir _ sub rest => max (sub.height + 1) rest.height

/-- The paths of every directory inside last while nothing but paths of entries is printed. -/
def Roomy : Forest → Prop
  | nil => True
  | file _ rest => rest.Roomy
  | dir _ sub rest => sub.count ≤ 15 ∧ sub.Roomy ∧ rest.Roomy

/-- Nothing of these entries of `o` can be moved into `n`: the store refuses the copy of each
file, and each directory has entries, has its counterpart already, and is stuck in turn. -/
def Stuck (env : Env) (st : Store) (o n : Path) : Forest → Prop
  | nil => True
  | file x rest => (dplFcopy env st (child o x) (child n x)).1 ≠ .success ∧ rest.Stuck env st o n
  | dir x sub rest => (dplMkdir env st (child n x)).1 ≠ .success ∧ sub ≠ nil ∧
      sub.Stuck env st (child o x) (child n x) ∧ rest.Stuck env st o n

theorem count_le_cost (hash : Path → Option Addr) (p : Path) (f : Forest) :
    3 * f.count ≤ f.cost hash p := by
  induction f generalizing p with
  | nil => exact Nat.zero_le _
  | file x rest ih =>
    have hrest := ih p
    rw [count, cost]
    omega
  | dir x sub rest ihsub ih =>
    have hrest := ih p
    have hsub := ihsub (child p x)
    rw [count, cost]
    omega

theorem RingSafe.roomy {hash : Path → Option Addr} {p : Path} {f : Forest}
    (h : f.RingSafe hash p) : f.Roomy := by
  induction f generalizing p with
  | nil => trivial
  | file x rest ih => exact ih h
  | dir x sub rest ihsub ih =>
    obtain ⟨hc, hsub, hrest⟩ := h
    have hle := count_le_cost hash (child p x) sub
    exact ⟨by omega, ihsub hsub, ih hrest⟩

end Forest

/-- The calls that read what lies at or below `p` are answered. -/
def Env.Reads (env : Env) (p : Path) : Prop :=
  ∀ q, Within p q → env.remote (.namei q) = .success ∧ env.remote (.chdir q) = .success ∧
    env.remote (.opendir q) = .success

theorem Env.Reads.mono {env : Env} {p q : Path} (h : env.Reads p) (hq : Within p q) :
    env.Reads q := fun r hr => h r (hq.trans hr)

/-- The store is the same, and at most `k` temporary strings lie between the two states. -/
def World.Idle (s t : World) (k : Nat) : Prop := t.store = s.store ∧ s.Pushed t k

theorem World.Idle.trans {s t u : World} {k m : Nat} (h : s.Idle t k) (h' : t.Idle u m) :
    s.Idle u (k + m) := ⟨h'.1.trans h.1, h.2.trans h'.2⟩

/-- What keeps the entries of `o` where they are. -/
structure Blocked (env : Env) (st : Store) (o n : Path) (f : Forest) : Prop where
  named : o ≠ []
  entries : f.In st o
  shortOld : f.Short o
  shortNew : f.Short n
  roomy : f.Roomy
  reads : env.Reads o
  stuck : f.Stuck env st o n

section Refused

variable {cx : Ctx} {env : Env} {s : World} {o n : Path} {op np : Str}

theorem dplNamei_found {st : Store} {p : Path} {type : FType}
    (hr : env.remote (.namei p) = .success) (ht : st.ftype? p = some type) :
    dplNamei env st p = (.success, some type) := by
  simp [dplNamei, hr, ht]

theorem dfsMkdir_refused (h : (dplMkdir env s.store n).1 ≠ .success) :
    (dfsMkdir env s n).1 = -1 ∧ (dfsMkdir env s n).2.store = s.store := by
  rcases dplMkdir_cases env s.store n with ⟨_, hst⟩ | ⟨_, _, _, hok⟩
  · refine ⟨?_, (dfsMkdir_effect env s n).1.trans hst⟩
    unfold dfsMkdir
    split
    · rename_i store hm
      rw [hm] at h
      exact (h rfl).elim
    · rfl
  · rw [hok] at h
    exact (h rfl).elim

/-- The target is there or cannot be made: the store stays as it is, and the loop is reached with
the entries of `o` or the rename fails. -/
theorem renameSetup_refused (hdir : s.store.ftype? o = some .dir) (hr : env.Reads o)
    (hmk : (dplMkdir env s.store n).1 ≠ .success) :
    (renameSetup env s o n).2.store = s.store ∧ ((renameSetup env s o n).1 = .error (-1) ∨
      ∃ type, (renameSetup env s o n).1 = .ok (type,
        ['.'] :: ['.', '.'] :: (s.store.children o).map (s.store.direntName o))) := by
  obtain ⟨hmade, hst⟩ := dfsMkdir_refused hmk
  obtain ⟨_, hch, hop⟩ := hr o (Within.refl o)
  have hcd : dplChdir env s.store o = (.success, some o) := by simp [dplChdir, hch, hdir]
  have hod : dplOpendir env s.store o = (.success,
      ['.'] :: ['.', '.'] :: (s.store.children o).map (s.store.direntName o)) := by
    simp [dplOpendir, hop]
  unfold renameSetup
  dsimp only
  by_cases hrc : (dplNamei env s.store n).1 ≠ .success ∧ (dplNamei env s.store n).1 ≠ .enoent
  · rw [if_pos hrc]
    exact ⟨rfl, .inl rfl⟩
  rw [if_neg hrc]
  by_cases he : (dplNamei env s.store n).1 = .enoent
  · rw [if_pos he, hmade, if_pos (by decide)]
    exact ⟨hst, .inl rfl⟩
  · rw [if_neg he, if_neg (by simp), hcd]
    simp only [Option.getD_some, hod]
    exact ⟨trivial, .inr ⟨_, rfl⟩⟩

/-- A file whose copy is refused stays. -/
theorem renameFile_uncopied {src dst : Str}
    (h : (dplFcopy env s.store (s.text src) (s.text dst)).1 ≠ .success) :
    renameFile cx env s src dst = .ok (-1, s) := by
  have hst : (dplFcopy env s.store (s.text src) (s.text dst)).2 = s.store := by
    rcases dplFcopy_cases env s.store (s.text src) (s.text dst) with
      ⟨_, hst⟩ | ⟨_, _, _, _, _, _, hok⟩
    · exact hst
    · rw [hok] at h
      exact (h rfl).elim
  unfold renameFile
  split
  · rename_i store hc
    rw [hc] at h
    exact (h rfl).elim
  · rename_i rc store hne hc
    rw [hc] at hst
    have hs : store = s.store := hst
    rw [hs]

/-- One iteration of the loop whose move is refused, once the rest of the loop is known. -/
theorem entry_stuck {renameDir : Rename} {name x : CStr} {names : List CStr}
    {ft : FType} {k m : Nat}
    {ret' : Int} (type : FType) (ret : Int) (hname : ¬(name = ['.'] ∨ name = ['.', '.']))
    (hsrc : entryPath o name = child o x) (hdst : entryPath n name = child n x)
    (hop : s.text op = o) (hnp : s.text np = n) (hlo : s.Lasts op (2 + k + m))
    (hln : s.Lasts np (2 + k + m)) (hr : env.Reads o)
    (hft : s.store.ftype? (child o x) = some ft)
    (hmove : ∀ (u : World) (src dst : Str), u.store = s.store → u.text src = child o x →
      u.text dst = child n x → u.Lasts src 30 → u.Lasts dst 30 →
      ∃ t, descend ft (renameDir u src dst) (renameFile cx env u src dst) = .ok (-1, t) ∧
        u.Idle t k)
    (hrest : ∀ u : World, u.store = s.store → u.text op = o → u.text np = n → u.Lasts op m →
      u.Lasts np m → ∃ t, renameEntries cx env renameDir op np names u ft (-1) = .ok (ret', t) ∧
        u.Idle t m) :
    ∃ t, renameEntries cx env renameDir op np (name :: names) s type ret = .ok (ret', t) ∧
      s.Idle t (2 + k + m) := by
  have hpaths := World.entryPaths_eq (k := k + m) name hop hnp (hlo.mono (by omega))
    (hln.mono (by omega))
  rw [hsrc, hdst] at hpaths
  obtain ⟨hs1, hs2, hl1, hl2⟩ := s.paired_slots o n (child o x) (child n x)
  have hpair : s.Idle (s.paired o n (child o x) (child n x)) 2 := ⟨rfl, [_, _], rfl, le_rfl⟩
  rw [renameEntries_cons type ret hname (by rw [hop, hnp]; exact hpaths), hs1, hs2]
  generalize s.paired o n (child o x) (child n x) = u at *
  have hfound : dplNamei env u.store (child o x) = (.success, some ft) := by
    rw [hpair.1]
    exact dplNamei_found (hr _ (Within.child_self o x)).1 hft
  rw [hfound]
  dsimp only
  rw [if_neg (by simp), Option.getD_some]
  obtain ⟨v, hv, hidle⟩ := hmove (u.log (.pass (child o x) (child n x))) _ _ hpair.1 hs1 hs2 hl1 hl2
  have hsv : s.Idle v (2 + k) := hpair.trans hidle
  obtain ⟨hto, hlo'⟩ := hsv.2.lasts hlo
  obtain ⟨htn, hln'⟩ := hsv.2.lasts hln
  obtain ⟨t, ht, hvt⟩ := hrest v hsv.1 (hto.trans hop) (htn.trans hnp) hlo' hln'
  rw [hv]
  exact ⟨t, ht, hsv.trans hvt⟩

/-- A directory with its target in place whose entries are stuck. -/
theorem directory_stuck {f : Forest} {depth k : Nat} (hb : Blocked env s.store o n f)
    (hroot : o ≠ rootPath) (hdir : s.store.ftype? o = some .dir)
    (hc : s.store.children o = f.names) (hmk : (dplMkdir env s.store n).1 ≠ .success)
    (hop : s.text op = o) (hnp : s.text np = n) (hlo : s.Lasts op k) (hln : s.Lasts np k)
    (hloop : ∀ (u : World) (type : FType) (ret : Int), u.store = s.store → u.text op = o →
      u.text np = n → u.Lasts op k → u.Lasts np k →
      ∃ t, renameEntries cx env (renameDirectory cx env depth) op np f.listed u type ret =
        .ok (-1, t) ∧ u.Idle t k) :
    ∃ t, renameDirectory cx env (depth + 1) s op np = .ok (-1, t) ∧ s.Idle t k := by
  have hop' : (s.log (.enter o n)).text op = o := hop
  have hnp' : (s.log (.enter o n)).text np = n := hnp
  have hring := (renameSetup_steps cx env (s.log (.enter o n)) o n).1
  have hset := renameSetup_refused (s := s.log (.enter o n)) hdir hb.reads hmk
  rw [renameDirectory, hop, hnp]
  dsimp only
  rw [hop', hnp']
  generalize renameSetup env (s.log (.enter o n)) o n = r at *
  obtain ⟨r, u⟩ := r
  have hu : u.store = s.store := hset.1
  have hur : u.ring = s.ring := hring
  rcases hset.2 with he | ⟨type, he⟩
  · have hr : r = .error (-1) := he
    subst hr
    exact ⟨u, rfl, hu, .of_ring hur⟩
  · have hr : r = .ok (type, ['.'] :: ['.', '.'] :: f.listed) := by
      have hnames := Forest.listed_eq hroot hb.entries
      have he' : r = .ok (type, ['.'] :: ['.', '.'] ::
          (s.store.children o).map (s.store.direntName o)) := he
      rw [he', hc, hnames]
    subst hr
    have huo : u.text op = o := by rw [World.text, hur, ← World.text, hop]
    have hun : u.text np = n := by rw [World.text, hur, ← World.text, hnp]
    obtain ⟨t, ht, hidle⟩ := hloop ((u.log (.iter o n)).log (.iter o n)) type 0 hu huo hun
      (hlo.of_ring hur) (hln.of_ring hur)
    have huo' : (u.log (.iter o n)).text op = o := huo
    have hun' : (u.log (.iter o n)).text np = n := hun
    dsimp only
    rw [renameEntries, if_pos (.inl rfl), renameEntries, if_pos (.inr rfl), huo, hun, huo', hun',
      ht]
    have hst : t.store = s.store := hidle.1.trans hu
    have hut : u.Pushed t k := hidle.2
    have hsu : s.Pushed u 0 := .of_ring hur
    exact ⟨t, rfl, hst, (hsu.trans hut).mono (by omega)⟩

/-- The loop over entries that are stuck, on pointers: nothing moves, and the last of them fails. -/
theorem renameEntries_stuck (cx : Ctx) (env : Env) (f : Forest) (depth : Nat) (s : World)
    (o n : Path) (op np : Str)
    (type : FType) (ret : Int) (hb : Blocked env s.store o n f) (hh : f.height ≤ depth)
    (hop : s.text op = o) (hnp : s.text np = n) (hlo : s.Lasts op (2 * f.count))
    (hln : s.Lasts np (2 * f.count)) :
    ∃ t, renameEntries cx env (renameDirectory cx env depth) op np f.listed s type ret =
      .ok (if f = .nil then ret else -1, t) ∧ s.Idle t (2 * f.count) := by
  induction f generalizing depth s o n op np type ret with
  | nil =>
    rw [Forest.listed, renameEntries, hop, hnp]
    exact ⟨_, rfl, rfl, .of_ring rfl⟩
  | file x rest ih =>
    obtain ⟨hx, _, ⟨ft, hft, hfd⟩, hin⟩ := hb.entries
    have hcount : 2 * (Forest.file x rest).count = 2 + 0 + 2 * rest.count := by
      rw [Forest.count]
      omega
    rw [hcount] at hlo hln ⊢
    rw [if_neg (by simp)]
    apply entry_stuck type ret hx.not_dot (entryPath_file hx hb.shortOld.1)
      (entryPath_file hx hb.shortNew.1) hop hnp hlo hln hb.reads hft
    · intro u src dst hu hsrc hdst _ _
      have hno := hb.stuck.1
      rw [← hu, ← hsrc, ← hdst] at hno
      rw [descend, if_neg hfd, renameFile_uncopied hno]
      exact ⟨u, rfl, rfl, .of_ring rfl⟩
    · intro u hu huo hun hlo' hln'
      have hrest : Blocked env u.store o n rest :=
        ⟨hb.named, hu ▸ hin, hb.shortOld.2, hb.shortNew.2, hb.roomy, hb.reads, hu ▸ hb.stuck.2⟩
      have hi := ih depth u o n op np ft (-1) hrest hh huo hun hlo' hln'
      rwa [ite_self] at hi
  | dir x sub rest ihsub ih =>
    obtain ⟨hx, _, hft, hch, hinsub, hin⟩ := hb.entries
    obtain ⟨hmk, hne, hstuck, hstuckr⟩ := hb.stuck
    have hcount : 2 * (Forest.dir x sub rest).count = 2 + 2 * sub.count + 2 * rest.count := by
      rw [Forest.count]
      omega
    rw [Forest.height] at hh
    rw [hcount] at hlo hln ⊢
    rw [if_neg (by simp)]
    apply entry_stuck type ret (slash_not_dot x) (entryPath_dir hx hb.shortOld.1)
      (entryPath_dir hx hb.shortNew.1) hop hnp hlo hln hb.reads hft
    · intro u src dst hu hsrc hdst hl hl'
      have hsub : Blocked env u.store (child o x) (child n x) sub :=
        ⟨child_ne_nil o x, hu ▸ hinsub, hb.shortOld.2.1, hb.shortNew.2.1, hb.roomy.2.1,
          hb.reads.mono (Within.child_self o x), hu ▸ hstuck⟩
      have hle : 2 * sub.count ≤ 30 := by
        have h15 := hb.roomy.1
        omega
      rw [descend, if_pos rfl]
      cases depth with
      | zero => omega
      | succ depth =>
        apply directory_stuck hsub (child_ne_root hb.named x) (hu ▸ hft) (hu ▸ hch) (hu ▸ hmk)
          hsrc hdst (hl.mono hle) (hl'.mono hle)
        intro v type' ret' hv hvo hvn hlo' hln'
        have hi := ihsub depth v _ _ src dst type' ret' (hv ▸ hsub) (by omega) hvo hvn hlo' hln'
        rwa [if_neg hne] at hi
    · intro u hu huo hun hlo' hln'
      have hrest : Blocked env u.store o n rest :=
        ⟨hb.named, hu ▸ hin, hb.shortOld.2.2, hb.shortNew.2.2, hb.roomy.2.2, hb.reads,
          hu ▸ hstuckr⟩
      have hi := ih depth u o n op np .dir (-1) hrest (by omega) huo hun hlo' hln'
      rwa [ite_self] at hi

end Refused

/-- Every object below `n` lies in a directory of the tree. -/
def Rooted (st : Store) (n : Path) : Prop :=
  ∀ p x, Within n p → Proper x → (st.ftype? (child p x)).isSome → (st.ftype? p).isSome

/-- What was at or below `p` is still there. -/
def World.Retains (p : Path) (s t : World) : Prop :=
  ∀ q, Within p q → (s.store.lookup q).isSome → (t.store.lookup q).isSome

section Merged

variable {cx : Ctx} {env : Env} {s t u : World} {o n : Path}

theorem Rooted.mono {st : Store} {m : Path} (h : Rooted st n) (hm : Within n m) : Rooted st m :=
  fun p x hp => h p x (hm.trans hp)

/-- Making the target leaves what is below it in directories. -/
theorem Rooted.insert {st : Store} (h : Rooted st n) : Rooted (st.insert n (emptyObj .dir)) n := by
  intro p x hp hx hs
  have hne : child p x ≠ n := by
    intro he
    have hl := hp.length_le
    rw [← he, child_length] at hl
    omega
  by_cases hpn : p = n
  · rw [hpn, Store.ftype?]
    split_ifs
    · rfl
    · rw [AList.lookup_insert]
      rfl
  · have hsame : ∀ q, q ≠ n →
        Store.ftype? (st.insert n (emptyObj .dir)) q = st.ftype? q := by
      intro q hq
      rw [Store.ftype?, Store.ftype?, AList.lookup_insert_ne hq]
    rw [hsame _ hne] at hs
    rw [hsame p hpn]
    exact h p x hp hx hs

/-- Where the entries are stuck, the first of them has its counterpart. -/
theorem Forest.Stuck.counterpart {f : Forest} {st : Store} (hok : env.RemoteOk) (hnamed : o ≠ [])
    (hne : f ≠ .nil) (hin : f.In st o) (h : f.Stuck env st o n) :
    ∃ x, Proper x ∧ (st.ftype? (child n x)).isSome := by
  cases f with
  | nil => exact (hne rfl).elim
  | file x rest =>
    obtain ⟨hx, _, ⟨ft, hft, hfd⟩, _⟩ := hin
    refine ⟨x, hx, ?_⟩
    by_contra hnone
    have hno : st.ftype? (child n x) ≠ some .dir := by
      intro he
      rw [he] at hnone
      exact hnone rfl
    obtain ⟨_, ob, hob, rfl⟩ := Store.ftype?_file hft hfd
    have hcopy : (dplFcopy env st (child o x) (child n x)).1 = .success := by
      simp [dplFcopy, hok.remote, child_ne_root hnamed x, hno, hob, hfd]
    exact h.1 hcopy
  | dir x sub rest =>
    refine ⟨x, hin.1, ?_⟩
    by_contra hnone
    have hmk : (dplMkdir env st (child n x)).1 = .success := by
      rw [dplMkdir, hok.remote, if_neg hnone]
    exact h.1 hmk

/-- What is gone from below `o` does not come back: everything made is made below `n`. -/
theorem goneSteps {q : Path} (hsep : Separate o n) (hq : Within o q) :
    MoveSteps cx env o n fun w => w.store.lookup q = none := by
  have hout : ∀ {b}, Within n b → q ≠ b := by
    intro b hb he
    exact hsep.not_both hq (he ▸ hb)
  have herase : ∀ {st : Store} {a : Path}, st.lookup q = none → (st.erase a).lookup q = none := by
    intro st a h
    by_cases ha : q = a
    · rw [ha, AList.lookup_erase]
    · rw [AList.lookup_erase_ne ha, h]
  have hunlink : ∀ {st : Store} (a : Path), st.lookup q = none →
      (dplUnlink env st a).2.lookup q = none := by
    intro st a h
    rcases dplUnlink_cases env st a with ⟨_, hst⟩ | ⟨_, _, _, hst⟩
    · rw [hst, h]
    · rw [hst]
      exact herase h
  refine ⟨fun _ _ _ _ h => h, ?_, ?_, ?_⟩
  · intro w b hb h
    rw [(dfsMkdir_effect env w b).1, (Store.changed_mkdir env w.store b).lookup (hout hb)]
    exact h
  · intro w a b ret v _ hb h hv
    have hcopy : (dplFcopy env w.store a b).2.lookup q = none := by
      rw [(Store.changed_fcopy env w.store a b).lookup (hout hb)]
      exact h
    rcases (renameFile_effect hv).1 with hst | hst
    · rw [hst]
      exact hcopy
    · rw [hst]
      exact hunlink a hcopy
  · intro w a ret v _ h hv
    rw [(dfsRmdir_effect hv).1]
    rcases dplRmdir_cases env w.store a with ⟨_, hst⟩ | ⟨_, _, _, _, hst⟩
    · rw [hst]
      exact h
    · rw [hst]
      exact herase h

/-- If all is there in the end, it was there in between. -/
theorem World.Retains.before (hsep : Separate o n) (h : s.Retains o t)
    (hkeep : ∀ I, MoveSteps cx env o n I → I u → I t) : s.Retains o u := by
  intro q hq hs
  by_contra hnone
  have hu : u.store.lookup q = none := Option.not_isSome_iff_eq_none.mp hnone
  have ht := hkeep _ (goneSteps hsep hq) hu
  have hs' := h q hq hs
  rw [ht] at hs'
  cases hs'

/-- A file that is still there after its rename was not copied. -/
theorem renameFile_retains {a b : Path} {ret : Int} {ob : Obj} (hok : env.RemoteOk)
    (hob : s.store.lookup a = some ob) (hfd : ob.ftype ≠ .dir) (hroot : a ≠ rootPath) (hne : a ≠ b)
    (h : renameFile cx env s (.ext a) (.ext b) = .ok (ret, t))
    (hkeep : (t.store.lookup a).isSome) :
    (dplFcopy env s.store a b).1 ≠ .success ∧ ret = -1 ∧ t.store = s.store := by
  have hc := dplFcopy_cases env s.store a b
  rcases renameFile_cases h with ⟨hret, hno, ht⟩ | ⟨store, v, hst, hv, hun⟩
  · rcases hc with ⟨_, hst⟩ | ⟨_, _, _, _, _, _, hyes⟩
    · exact ⟨hno, hret, by rw [ht]; exact hst⟩
    · exact (hno (by rw [show s.text (.ext a) = a from rfl, show s.text (.ext b) = b from rfl,
        hyes])).elim
  · exfalso
    have hst' : dplFcopy env s.store a b = (.success, store) := hst
    have hlk : store.lookup a = some ob := by
      have hch := (Store.changed_fcopy env s.store a b).lookup hne
      rw [hst', hob] at hch
      exact hch
    have hvs : v.store = store := by
      rcases hv with rfl | ⟨dirname, _, rfl⟩
      · rfl
      · exact (World.onEntry_rest { s with store := store } dirname _).1
    have hft : store.ftype? a = some ob.ftype := by
      rw [Store.ftype?, if_neg hroot, hlk]
      rfl
    have herase : (dplUnlink env store a).2 = store.erase a := by
      rcases dplUnlink_cases env store a with ⟨hno, _⟩ | ⟨_, _, _, hyes⟩
      · refine (hno ?_).elim
        rw [dplUnlink, hok.remote]
        dsimp only
        rw [hft]
        cases hk : ob.ftype with
        | dir => exact (hfd hk).elim
        | reg => rfl
        | other => rfl
      · rw [hyes]
    rw [dfsUnlink_store hun, hvs, herase, AList.lookup_erase] at hkeep
    cases hkeep

/-- With every call answered, the loop is reached, in a target that was there or has been made. -/
theorem renameSetup_answered (hok : env.AllOk) (hdir : s.store.ftype? o = some .dir)
    (hne : o ≠ n) : ∃ v type names, renameSetup env s o n = (.ok (type, names), v) ∧
      ((s.store.ftype? n).isSome ∧ v.store = s.store ∨
        (dplMkdir env s.store n).1 = .success ∧ s.store.ftype? n = none ∧
        v.store = s.store.insert n (emptyObj .dir)) := by
  have hod : ∀ st cwd, ∃ names, dplOpendir env st cwd = (.success, names) := by
    intro st cwd
    rw [dplOpendir, hok.remote]
    exact ⟨_, rfl⟩
  have hcd : ∀ st : Store, st.ftype? o = some .dir → dplChdir env st o = (.success, some o) := by
    intro st h
    simp [dplChdir, hok.remote, h]
  unfold renameSetup
  cases hn : s.store.ftype? n with
  | some type =>
    obtain ⟨names, hnames⟩ := hod s.store o
    rw [dplNamei_found (hok.remote _) hn]
    dsimp only
    rw [if_neg (by simp), if_neg (by simp), if_neg (by simp), hcd _ hdir]
    simp only [Option.getD_some, hnames]
    exact ⟨_, _, _, rfl, .inl ⟨rfl, rfl⟩⟩
  | none =>
    have hnamei : dplNamei env s.store n = (.enoent, none) := by simp [dplNamei, hok.remote, hn]
    have hmk : dplMkdir env s.store n = (.success, s.store.insert n (emptyObj .dir)) := by
      simp [dplMkdir, hok.remote, hn]
    have hmade : (dfsMkdir env s n).1 = 0 := by
      unfold dfsMkdir
      rw [hmk]
      dsimp only
      split
      · rfl
      · simp [populateHash, hok.lib]
    have hst : (dfsMkdir env s n).2.store = s.store.insert n (emptyObj .dir) := by
      rw [(dfsMkdir_effect env s n).1, hmk]
    have hdir' : (dfsMkdir env s n).2.store.ftype? o = some .dir := by
      rw [(dfsMkdir_effect env s n).1, Store.ftype?, (Store.changed_mkdir env s.store n).lookup hne]
      exact hdir
    obtain ⟨names, hnames⟩ := hod (dfsMkdir env s n).2.store o
    rw [hnamei]
    dsimp only
    rw [if_neg (by simp), if_pos rfl, if_neg (by simp [hmade]), hcd _ hdir']
    simp only [Option.getD_some, hnames]
    exact ⟨_, _, _, rfl, .inr ⟨by rw [hmk], trivial, hst⟩⟩

/-- A directory whose objects are all still there after its rename, once this is known of its
loop: the target was there, and nothing could be moved into it. -/
theorem moveDirectory_retains {f : Forest} {depth : Nat} {r : Int} (hok : env.AllOk)
    (hr : Ready s o n f) (hroot : o ≠ rootPath) (hdir : s.store.ftype? o = some .dir)
    (hc : s.store.children o = f.names) (htree : Rooted s.store n)
    (hloop : ∀ (d : Nat) (v w : World) (type : FType) (ret r : Int), d < depth → Ready v o n f →
      Rooted v.store n →
      moveEntries cx env (moveDirectory cx env d) o n f.listed v type ret = .ok (r, w) →
      v.Retains o w → f.Stuck env v.store o n ∧ f.height ≤ d ∧ w.store = v.store ∧
        r = if f = .nil then ret else -1)
    (h : moveDirectory cx env depth s o n = .ok (r, t)) (hkeep : s.Retains o t) :
    (dplMkdir env s.store n).1 ≠ .success ∧ f ≠ .nil ∧ f.Stuck env s.store o n ∧
      f.height < depth ∧ t.store = s.store ∧ r = -1 := by
  cases depth with
  | zero => cases h
  | succ depth =>
    obtain ⟨u, cwd, hu, he, hnames⟩ := renameSetup_spec env (s.log (.enter o n)) o n
    obtain ⟨v, type, names, hset, hv⟩ := renameSetup_answered (s := s.log (.enter o n)) hok hdir
      hr.separate.ne
    rw [hset] at he hnames
    have hvu : v.store = u.store := by rw [show v = { u with cwd := cwd } from he]
    obtain ⟨_, hnames⟩ := hnames type names rfl
    have hsame : World.Same o s v := by
      rw [show v = { u with cwd := cwd } from he]
      rcases hu with rfl | rfl
      · exact ⟨fun _ _ => rfl, fun _ _ _ => rfl, fun _ _ => rfl⟩
      · have hmk := dfsMkdir_same env (s.log (.enter o n)) hr.separate.1
        exact ⟨hmk.lookup, hmk.children, hmk.hash⟩
    obtain ⟨hready, _⟩ := hr.same fun x _ => hsame.mono (Within.child_self o x)
    have hch : v.store.children o = f.names := (hsame.children o hroot (Within.refl o)).trans hc
    have hlist : names = ['.'] :: ['.', '.'] :: f.listed := by
      rw [hnames, ← hvu, hch, Forest.listed_eq hroot hready.entries]
    have hrooted : Rooted v.store n := by
      rcases hv with ⟨_, hst⟩ | ⟨_, _, hst⟩
      · rw [hst]
        exact htree
      · rw [hst]
        exact htree.insert
    have hdirv : v.store.ftype? o = some .dir := hsame.ftype.trans hdir
    subst hlist
    rw [moveDirectory, hset] at h
    dsimp only at h
    rw [moveEntries, if_pos (.inl rfl), moveEntries, if_pos (.inr rfl)] at h
    obtain ⟨⟨r', w⟩, hentries, hend⟩ := Except.bind_ok.mp h
    dsimp only at hend
    have hlast : r' = -1 ∧ r = -1 ∧ t = w ∨ r' ≠ -1 ∧ t.store = (dplRmdir env w.store o).2 := by
      split_ifs at hend with hr'
      · simp only [Except.ok.injEq, Prod.mk.injEq] at hend
        exact .inl ⟨hr', hend.1.symm, hend.2.symm⟩
      · obtain ⟨⟨r1, t'⟩, hrm, hend⟩ := Except.bind_ok.mp hend
        simp only [Except.ok.injEq, Prod.mk.injEq] at hend
        rw [← hend.2]
        exact .inr ⟨hr', (dfsRmdir_effect hrm).1⟩
    -- what is there in the end was there after the loop, for `dfs_rmdir` puts nothing back
    have hwt : v.Retains o w := by
      intro q hq hvq
      rw [hsame.lookup q hq] at hvq
      have htq := hkeep q hq hvq
      rcases hlast with ⟨_, _, rfl⟩ | ⟨_, ht⟩
      · exact htq
      · rw [ht] at htq
        rcases dplRmdir_cases env w.store o with ⟨_, he⟩ | ⟨_, _, _, _, he⟩
        · rwa [he] at htq
        · rw [he] at htq
          by_cases hqo : q = o
          · rw [hqo, AList.lookup_erase] at htq
            cases htq
          · rwa [AList.lookup_erase_ne hqo] at htq
    have hready' : Ready ((v.log (.iter o n)).log (.iter o n)) o n f :=
      ⟨hready.named, hready.separate, hready.entries, hready.shortOld, hready.shortNew, hready.safe⟩
    obtain ⟨hstuck, hheight, hst, hret⟩ := hloop depth ((v.log (.iter o n)).log (.iter o n)) w type
      0 r' (Nat.lt_succ_self depth) hready' hrooted hentries hwt
    have hws : w.store = v.store := hst
    have hne : f ≠ .nil := by
      rintro rfl
      rcases hlast with ⟨hr', _, _⟩ | ⟨_, ht⟩
      · rw [if_pos rfl, hr'] at hret
        omega
      · have hrm : (dplRmdir env w.store o).2 = w.store.erase o := by
          rw [hws]
          simp [dplRmdir, hok.remote, hroot, hdirv, hch, Forest.names]
        have hso : (s.store.lookup o).isSome := by
          rw [Store.ftype?, if_neg hroot] at hdir
          cases hl : s.store.lookup o with
          | none =>
            rw [hl] at hdir
            cases hdir
          | some ob => rfl
        have hto := hkeep o (Within.refl o) hso
        rw [ht, hrm, AList.lookup_erase] at hto
        cases hto
    rw [if_neg hne] at hret
    rcases hlast with ⟨_, hr', rfl⟩ | ⟨hr', _⟩
    · rcases hv with ⟨hsome, hsv⟩ | ⟨_, hnone, hsv⟩
      · have hsv' : v.store = s.store := hsv
        have hsome' : (s.store.ftype? n).isSome := hsome
        have hmk : (dplMkdir env s.store n).1 ≠ .success := by
          rw [dplMkdir, hok.remote, if_pos hsome']
          simp [eexist]
        have hstuck' : f.Stuck env v.store o n := hstuck
        rw [hsv'] at hstuck'
        exact ⟨hmk, hne, hstuck', Nat.lt_succ_of_le hheight, hws.trans hsv', hr'⟩
      · -- the target was missing, so nothing was below it either
        obtain ⟨x, hx, hsome⟩ := hstuck.counterpart hok.toRemoteOk hready.named hne hready.entries
        have hsome' : (Store.ftype? v.store (child n x)).isSome := hsome
        have hxn : child n x ≠ n := by
          intro he'
          have hl := congrArg List.length he'
          rw [child_length] at hl
          omega
        have hsx : (s.store.ftype? (child n x)).isSome := by
          rw [show v.store = s.store.insert n (emptyObj .dir) from hsv, Store.ftype?,
            AList.lookup_insert_ne hxn] at hsome'
          exact hsome'
        have hn := htree n x (Within.refl n) hx hsx
        rw [show s.store.ftype? n = none from hnone] at hn
        cases hn
    · exact (hr' hret).elim

/-- The loop with its paths as values: if nothing of `o` has gone in the end, nothing could be
moved. -/
theorem moveEntries_retains (f : Forest) (depth : Nat) (s t : World) (o n : Path) (type : FType)
    (ret r : Int) (hok : env.AllOk) (hr : Ready s o n f) (htree : Rooted s.store n)
    (h : moveEntries cx env (moveDirectory cx env depth) o n f.listed s type ret = .ok (r, t))
    (hkeep : s.Retains o t) :
    f.Stuck env s.store o n ∧ f.height ≤ depth ∧ t.store = s.store ∧
      r = if f = .nil then ret else -1 := by
  induction f generalizing depth s t o n type ret r with
  | nil =>
    rw [Forest.listed, moveEntries] at h
    simp only [Except.ok.injEq, Prod.mk.injEq] at h
    rw [← h.2, if_pos rfl]
    exact ⟨trivial, Nat.zero_le depth, rfl, h.1.symm⟩
  | file x rest ih =>
    obtain ⟨hx, hnew, ⟨ft, hft, hfd⟩, hin⟩ := hr.entries
    obtain ⟨hroot, ob, hob, hobt⟩ := Store.ftype?_file hft hfd
    have hrest : Ready s o n rest :=
      ⟨hr.named, hr.separate, hin, hr.shortOld.2, hr.shortNew.2, hr.safe⟩
    rw [Forest.listed, moveEntries_cons type ret hx.not_dot (entryPath_file hx hr.shortOld.1)
      (entryPath_file hx hr.shortNew.1)] at h
    have hfound : dplNamei env s.store (child o x) = (.success, some ft) :=
      dplNamei_found (hok.remote _) hft
    have hfound' : dplNamei env (s.paired o n (child o x) (child n x)).store (child o x) =
        (.success, some ft) := hfound
    simp only [hfound', ne_eq, not_true_eq_false, false_and, if_false, Option.getD_some, descend,
      if_neg hfd] at h
    obtain ⟨⟨r1, v⟩, hmove, hloop⟩ := Except.bind_ok.mp h
    generalize hu : (s.paired o n (child o x) (child n x)).log (.pass (child o x) (child n x)) = u
      at hmove
    have hus : u.store = s.store := by
      rw [← hu]
      rfl
    have hsteps : ∀ I, MoveSteps cx env (child o x) (child n x) I → I s → I v := by
      intro I hI hi
      have hui : I u := by
        rw [← hu]
        exact hI.aside s _ s.cwd _ hi
      exact hI.file u _ _ r1 v (Within.refl _) (Within.refl _) hui hmove
    obtain ⟨hready, _⟩ := hrest.after_entry hx hnew hsteps
    obtain ⟨_, hkeeps⟩ := (renameEntries_agree rest depth v o n (.ext o) (.ext n) ft r1 hready rfl
      rfl trivial trivial).2 r t hloop
    have hv : s.Retains o v := hkeep.before hr.separate hkeeps
    have hsome : (v.store.lookup (child o x)).isSome := by
      apply hv _ (Within.child_self o x)
      rw [hob]
      rfl
    have hobu : u.store.lookup (child o x) = some ob := by rw [hus, hob]
    have hobd : ob.ftype ≠ .dir := by rwa [hobt]
    obtain ⟨hcopy, hr1, hst⟩ := renameFile_retains hok.toRemoteOk hobu hobd hroot
      (hr.separate.child_ne x x) hmove hsome
    rw [hus] at hcopy
    have hst' : v.store = s.store := hst.trans hus
    have hrooted : Rooted v.store n := by
      rw [hst']
      exact htree
    have hvt : v.Retains o t := by
      intro q hq hs
      rw [hst'] at hs
      exact hkeep q hq hs
    obtain ⟨hstuck, hheight, htv, hret⟩ := ih depth v t o n ft r1 r hready hrooted hloop hvt
    rw [hst'] at hstuck
    refine ⟨⟨hcopy, hstuck⟩, hheight, htv.trans hst', ?_⟩
    rw [hret, hr1, ite_self, if_neg (by simp)]
  | dir x sub rest ihsub ih =>
    obtain ⟨hx, hnew, hft, hch, hinsub, hin⟩ := hr.entries
    have hrest : Ready s o n rest :=
      ⟨hr.named, hr.separate, hin, hr.shortOld.2.2, hr.shortNew.2.2, hr.safe.2.2⟩
    have hsub : Ready s (child o x) (child n x) sub :=
      ⟨child_ne_nil o x, hr.separate.mono (Within.child_self o x) (Within.child_self n x), hinsub,
        hr.shortOld.2.1, hr.shortNew.2.1, hr.safe.2.1⟩
    rw [Forest.listed, moveEntries_cons type ret (slash_not_dot x) (entryPath_dir hx hr.shortOld.1)
      (entryPath_dir hx hr.shortNew.1)] at h
    have hfound' : dplNamei env (s.paired o n (child o x) (child n x)).store (child o x) =
        (.success, some .dir) := dplNamei_found (hok.remote _) hft
    simp only [hfound', ne_eq, not_true_eq_false, false_and, if_false, Option.getD_some, descend,
      if_true] at h
    obtain ⟨⟨r1, v⟩, hmove, hloop⟩ := Except.bind_ok.mp h
    generalize hu : (s.paired o n (child o x) (child n x)).log (.pass (child o x) (child n x)) = u
      at hmove
    have hus : u.store = s.store ∧ u.hash = s.hash := by
      rw [← hu]
      exact ⟨rfl, rfl⟩
    have hready' : Ready u (child o x) (child n x) sub :=
      ⟨hsub.named, hsub.separate, hus.1 ▸ hsub.entries, hsub.shortOld, hsub.shortNew,
        hus.2 ▸ hsub.safe⟩
    obtain ⟨_, hinner⟩ := (renameDirectory_agree cx env depth hready' (child_ne_root hr.named x)
      (by rw [hus.1, hch])).2 r1 v hmove
    have hsteps : ∀ I, MoveSteps cx env (child o x) (child n x) I → I s → I v := by
      intro I hI hi
      apply hinner I hI
      rw [← hu]
      exact hI.aside s _ s.cwd _ hi
    obtain ⟨hready, _⟩ := hrest.after_entry hx hnew hsteps
    obtain ⟨_, hkeeps⟩ := (renameEntries_agree rest depth v o n (.ext o) (.ext n) .dir r1 hready rfl
      rfl trivial trivial).2 r t hloop
    have hv : s.Retains o v := hkeep.before hr.separate hkeeps
    have huv : u.Retains (child o x) v := by
      intro q hq hs
      rw [hus.1] at hs
      exact hv q ((Within.child_self o x).trans hq) hs
    have hrootu : Rooted u.store (child n x) := by
      rw [hus.1]
      exact htree.mono (Within.child_self n x)
    obtain ⟨hmk, hne, hstuck, hheight, hvst, hr1⟩ := moveDirectory_retains hok hready'
      (child_ne_root hr.named x) (hus.1 ▸ hft) (hus.1 ▸ hch) hrootu
      (fun d v' w type' ret' r' _ hrv hrt hrun hk =>
        ihsub d v' w (child o x) (child n x) type' ret' r' hrv hrt hrun hk) hmove huv
    have hst' : v.store = s.store := hvst.trans hus.1
    rw [hus.1] at hmk hstuck
    have hrooted : Rooted v.store n := by
      rw [hst']
      exact htree
    have hvt : v.Retains o t := by
      intro q hq hs
      rw [hst'] at hs
      exact hkeep q hq hs
    obtain ⟨hstuckr, hheightr, htv, hret⟩ := ih depth v t o n .dir r1 r hready hrooted hloop hvt
    rw [hst'] at hstuckr
    refine ⟨⟨hmk, hne, hstuck, hstuckr⟩, ?_, htv.trans hst', ?_⟩
    · rw [Forest.height]
      omega
    · rw [hret, hr1, ite_self, if_neg (by simp)]

end Merged

/-- `old` and `new` are two directories, and `new` has an entry. -/
structure Occupied (st : Store) (old new : Path) : Prop where
  source : st.ftype? old = some .dir
  target : st.ftype? new = some .dir
  distinct : old ≠ new
  absolute : new.head? = some '/'
  entries : st.children new ≠ []

/-- `q` is `p` or an object below it. -/
def Below (p q : Path) : Prop := q = p ∨ dirPrefix p <+: q

/-- The rename fails, and everything under the two directories is where it was. -/
def RenameRefused (cx : Ctx) (env : Env) (s : World) (old new : Path) : Prop :=
  ∃ ret t, dfsRename cx env s old new = .ok (ret, t) ∧ ret ≠ 0 ∧
    ∀ q ob, Below old q ∨ Below new q → s.store.lookup q = some ob → t.store.lookup q = some ob

/-- `old` has entries, the rename goes by the right names, and none of its moves is possible. -/
def RenameStuck (env : Env) (s : World) (old new : Path) : Prop :=
  old ≠ rootPath ∧ ∃ f, s.store.children old = f.names ∧ f ≠ .nil ∧ f.height < env.stack ∧
    Blocked env s.store old new f

/-- Every object lies in a directory. -/
def Store.Tree (st : Store) : Prop := ∀ k ∈ st.keys, ∀ p ∈ renameDirname k, (st.ftype? p).isSome

instance (st : Store) : Decidable st.Tree :=
  inferInstanceAs (Decidable (∀ k ∈ st.keys, ∀ p ∈ renameDirname k, (st.ftype? p).isSome))

theorem Store.Tree.rooted {st : Store} (h : st.Tree) {n : Path} (hn : n ≠ []) : Rooted st n := by
  intro p x hp hx hs
  have hne : p ≠ [] := by
    rintro rfl
    exact hn (List.eq_nil_of_length_eq_zero (Nat.le_zero.mp hp.length_le))
  rw [Store.ftype?, if_neg (child_ne_root hne x), Option.isSome_map] at hs
  have hdir : renameDirname (child p x) = some p := by
    rw [renameDirname, child, beforeLastSlash_append hx.2.1]
    cases p with
    | nil => exact (hne rfl).elim
    | cons c cs => rfl
  exact h _ (AList.lookup_isSome.mp hs) p hdir

theorem Below.of_within {p q : Path} (hp : p ≠ rootPath) (h : Within p q) : Below p q := by
  rcases Within.iff_append.mp h with rfl | ⟨x, rfl⟩
  · exact .inl rfl
  · right
    rw [← childPath_of_ne hp x, childPath]
    exact List.prefix_append _ x

theorem renameTarget_absolute {old new : Path} (h : new.head? = some '/') :
    renameTarget old new = new := by
  rw [renameTarget, if_neg]
  rintro rfl
  simp at h

section Law

variable {cx : Ctx} {env : Env} {s : World} {old new : Path}

/-- Where nothing can be moved, the rename fails and nothing has moved. -/
theorem RenameStuck.refused (h : Occupied s.store old new) (hs : RenameStuck env s old new) :
    RenameRefused cx env s old new := by
  obtain ⟨hroot, f, hc, hne, hheight, hb⟩ := hs
  have hmk : (dplMkdir env s.store new).1 ≠ .success := by
    rcases dplMkdir_cases env s.store new with ⟨hno, _⟩ | ⟨_, hn, hl, _⟩
    · exact hno
    · have htarget := h.target
      rw [Store.ftype?, if_neg hn, hl] at htarget
      cases htarget
  have hrun : ∃ t, renameDirectory cx env env.stack s (.ext old) (.ext new) = .ok (-1, t) ∧
      s.Idle t (2 * f.count) := by
    obtain ⟨depth, hd⟩ := Nat.exists_eq_succ_of_ne_zero (Nat.ne_zero_of_lt hheight)
    rw [hd] at hheight ⊢
    have hop : s.text (.ext old) = old := rfl
    have hnp : s.text (.ext new) = new := rfl
    apply directory_stuck hb hroot h.source hc hmk hop hnp trivial trivial
    intro u type ret hu huo hun hlo hln
    have hi := renameEntries_stuck cx env f depth u old new _ _ type ret (hu ▸ hb)
      (Nat.le_of_lt_succ hheight) huo hun hlo hln
    rwa [if_neg hne] at hi
  obtain ⟨t, ht, hst, _⟩ := hrun
  have hnamei : dplNamei env s.store old = (.success, some .dir) :=
    dplNamei_found (hb.reads old (Within.refl old)).1 h.source
  refine ⟨-1, t, ?_, by decide, fun q ob _ hq => by rw [hst, hq]⟩
  unfold dfsRename
  simp only [renameTarget_absolute h.absolute, hnamei, Option.getD_some, if_true, ht]
  rfl

/-- Where all calls are answered and the rename goes by the right names, it is refused only if
nothing can be moved. -/
theorem RenameRefused.stuck (h : Occupied s.store old new) (hok : env.AllOk)
    (htree : s.store.Tree) (hlast : s.NamesLast old new) (hr : RenameRefused cx env s old new) :
    RenameStuck env s old new := by
  obtain ⟨hroot, f, hc, hready⟩ := hlast
  obtain ⟨ret, t, hrun, hret, hkeep⟩ := hr
  have hnew : new ≠ [] := by
    rintro rfl
    have habs := h.absolute
    simp at habs
  have hnamei : dplNamei env s.store old = (.success, some .dir) :=
    dplNamei_found (hok.remote _) h.source
  have hmove : moveDirectory cx env env.stack s old new = .ok (-1, t) := by
    rw [← (renameDirectory_agree cx env env.stack hready hroot hc).1]
    rcases dfsRename_cases hrun with ⟨htype, _⟩ | ⟨htype, _⟩ | ⟨_, r, hr, hdir⟩
    · rw [hnamei] at htype
      cases htype
    · rw [hnamei] at htype
      cases htype
    · rw [renameTarget_absolute h.absolute] at hdir
      split_ifs at hr with h1
      · rwa [h1] at hdir
      · exact (hret hr).elim
  have hretains : s.Retains old t := by
    intro q hq hs
    obtain ⟨ob, hob⟩ := Option.isSome_iff_exists.mp hs
    rw [hkeep q ob (.inl (.of_within hroot hq)) hob]
    rfl
  obtain ⟨_, hne, hstuck, hheight, _, _⟩ := moveDirectory_retains hok hready hroot h.source hc
    (htree.rooted hnew) (fun d v w type ret r _ hrv hrt hrun hk =>
      moveEntries_retains f d v w old new type ret r hok hrv hrt hrun hk) hmove hretains
  refine ⟨hroot, f, hc, hne, hheight, hready.named, hready.entries, hready.shortOld,
    hready.shortNew, hready.safe.roomy, ?_, hstuck⟩
  exact fun _ _ => ⟨hok.remote _, hok.remote _, hok.remote _⟩

end Law

/-- A directory renamed onto one that has entries is refused, with everything left in place, if
nothing of it can be moved; and only then, on a tree, when all calls are answered and the paths
last. -/
theorem merge_refused_iff (cx : Ctx) (env : Env) (s : World) (old new : Path)
    (h : Occupied s.store old new) :
    (RenameStuck env s old new → RenameRefused cx env s old new) ∧
    (env.AllOk → s.store.Tree → s.NamesLast old new → RenameRefused cx env s old new →
      RenameStuck env s old new) :=
  ⟨fun hs => hs.refused h, fun hok htree hlast hr => hr.stuck h hok htree hlast⟩

/-- A file of `/a` whose counterpart in `/b` is a directory. -/
def clashing : List (Path × Obj) :=
  [(['/', 'a'], Sample.dir), (['/', 'a', '/', 'f'], Sample.file [1]), (['/', 'b'], Sample.dir),
    (['/', 'b', '/', 'f'], Sample.dir)]

theorem merge_refused_sample :
    RenameRefused Sample.plain Env.quiet (Sample.daemon clashing).world ['/', 'a'] ['/', 'b'] := by
  have hocc : Occupied (Sample.daemon clashing).world.store ['/', 'a'] ['/', 'b'] :=
    ⟨by decide, by decide, by decide, rfl, by decide⟩
  apply (merge_refused_iff Sample.plain Env.quiet _ _ _ hocc).1
  refine ⟨by decide, .file ['f'] .nil, by decide, by decide, by decide, by decide, ?_, ?_, ?_,
    trivial, fun _ _ => ⟨rfl, rfl, rfl⟩, ?_⟩
  · exact ⟨by decide, by decide, ⟨.reg, rfl, by decide⟩, trivial⟩
  · exact ⟨by decide, trivial⟩
  · exact ⟨by decide, trivial⟩
  · exact ⟨by decide, trivial⟩

/-- Two directories with a file each. -/
def apart : List (Path × Obj) :=
  [(['/', 'a'], Sample.dir), (['/', 'a', '/', 'f'], Sample.file [1]), (['/', 'b'], Sample.dir),
    (['/', 'b', '/', 'g'], Sample.file [2])]

/-- They are merged: the file of `/a` is in `/b`, `/a` is gone, and the rename has succeeded. -/
theorem rename_merges :
    Occupied (Sample.daemon apart).world.store ['/', 'a'] ['/', 'b'] ∧
    ¬RenameRefused Sample.plain Env.quiet (Sample.daemon apart).world ['/', 'a'] ['/', 'b'] ∧
    ∃ t, dfsRename Sample.plain Env.quiet (Sample.daemon apart).world ['/', 'a'] ['/', 'b'] =
        .ok (0, t) ∧ t.store.ftype? ['/', 'a'] = none ∧
      t.store.children ['/', 'b'] = [['f'], ['g']] := by
  have hrun : ∃ t, dfsRename Sample.plain Env.quiet (Sample.daemon apart).world ['/', 'a']
      ['/', 'b'] = .ok (0, t) ∧ t.store.ftype? ['/', 'a'] = none ∧
      t.store.children ['/', 'b'] = [['f'], ['g']] := ⟨_, rfl, by decide, by decide⟩
  refine ⟨⟨by decide, by decide, by decide, rfl, by decide⟩, ?_, hrun⟩
  intro ⟨ret, t, hret, hne, _⟩
  obtain ⟨u, hu, _⟩ := hrun
  rw [hu] at hret
  simp only [Except.ok.injEq, Prod.mk.injEq] at hret
  exact hne hret.1.symm

end DropletFs
