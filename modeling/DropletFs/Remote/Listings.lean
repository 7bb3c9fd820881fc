import DropletFs.Model.Listing
import DropletFs.Model.Sample

/-! Listings made side by side: what keeps them from mixing. -/

namespace DropletFs

open CText

/-- Where a request is with its listing: it has changed to a directory and is about to list it,
or has listed it, or neither. -/
inductive Where
  | elsewhere
  | inside (dir : Path)
  | listed (dir : Path) (names : List CStr)

/-- A directory is listed only right after a change to it. -/
def listingProtocol : Protocol Where DplCall Reply where
  allowed t c :=
    match c with
    | .opendir made => t = .inside made
    | _ => True
  after t c r :=
    match c with
    | .chdir path => if r.status = .success then .inside path else .elsewhere
    | .opendir made => if r.status = .success then .listed made r.names else t
    | _ => .elsewhere

/-- No request changes the directory of the context to another one while a second request has
yet to list its own. -/
def Undisturbed {ι : Type} (s : Context ι) (e : ι × Env) : Prop :=
  ∀ path, (s.progs e.1).next? = some (.chdir path) →
    (dplChdir e.2 s.shared.store path).1 = .success →
    ∀ j, j ≠ e.1 → ∀ made, (s.progs j).next? = some (.opendir made) → made = path

/-- A request gets inside a directory by a change to it, and stays while it cannot list it. -/
theorem after_inside {t : Where} {c : DplCall} {r : Reply} {dir : Path}
    (ha : listingProtocol.allowed t c) (h : listingProtocol.after t c r = .inside dir) :
    c = .chdir dir ∧ r.status = .success ∨ c = .opendir dir ∧ r.status ≠ .success := by
  cases c with
  | chdir path =>
    by_cases hr : r.status = .success
    · have he : Where.inside path = .inside dir := (if_pos hr).symm.trans h
      exact .inl ⟨by rw [Where.inside.inj he], hr⟩
    · have he : Where.elsewhere = .inside dir := (if_neg hr).symm.trans h
      cases he
  | opendir made =>
    by_cases hr : r.status = .success
    · have he : Where.listed made r.names = .inside dir := (if_pos hr).symm.trans h
      cases he
    · have he : t = .inside dir := (if_neg hr).symm.trans h
      have ha' : t = .inside made := ha
      rw [ha'] at he
      exact .inr ⟨by rw [Where.inside.inj he], hr⟩
  | _ => cases h

/-- It has listed a directory by the call that listed it. -/
theorem after_listed {t : Where} {c : DplCall} {r : Reply} {dir : Path} {names : List CStr}
    (ha : listingProtocol.allowed t c) (h : listingProtocol.after t c r = .listed dir names) :
    c = .opendir dir ∧ r.status = .success ∧ r.names = names := by
  cases c with
  | chdir path =>
    by_cases hr : r.status = .success
    · have he : Where.inside path = .listed dir names := (if_pos hr).symm.trans h
      cases he
    · have he : Where.elsewhere = .listed dir names := (if_neg hr).symm.trans h
      cases he
  | opendir made =>
    by_cases hr : r.status = .success
    · have he : Where.listed made r.names = .listed dir names := (if_pos hr).symm.trans h
      obtain ⟨rfl, rfl⟩ := Where.listed.inj he
      exact ⟨rfl, hr, rfl⟩
    · have he : t = .listed dir names := (if_neg hr).symm.trans h
      have ha' : t = .inside made := ha
      rw [ha'] at he
      cases he
  | _ => cases h

section Protocol

variable (loc : Locals)

theorem chdirTimeout_obeys (path : Path) (t : Where) :
    (loc.chdirTimeout path).Obeys listingProtocol
      (fun t r => r.status = .success → t = .inside path) t := by
  apply Program.Obeys.retry (S := fun _ => True)
  · exact fun _ _ => trivial
  · intro t r _ hr
    exact if_pos hr
  · exact fun _ _ _ _ => trivial
  · trivial

theorem opendirTimeout_obeys (made : Path) :
    (loc.opendirTimeout made).Obeys listingProtocol
      (fun t r => r.status = .success → t = .listed made r.names) (.inside made) := by
  apply Program.Obeys.retry (S := fun t => t = .inside made)
  · exact fun _ h => h
  · intro t r _ hr
    exact if_pos hr
  · intro t r ht hs
    have hr : r.status ≠ .success := by
      intro hr
      simp [hr] at hs
    exact (if_neg hr).trans ht
  · rfl

/-- The other calls are always allowed. -/
theorem timeout_obeys (stop : Status) {c : DplCall} (hc : ∀ made, c ≠ .opendir made) (t : Where) :
    (loc.timeout stop c).Obeys listingProtocol (fun _ _ => True) t := by
  apply Program.Obeys.retry (S := fun _ => True)
  · intro t _
    cases c with
    | opendir made => exact (hc made rfl).elim
    | _ => trivial
  · exact fun _ _ _ => trivial
  · exact fun _ _ _ _ => trivial
  · trivial

/-- What a `dfs_readdir` that returns 0 has filled in are the names of its own listing. -/
theorem readdirRequest_obeys (fill : Nat → CStr → Int) (path : Path) (t : Where) :
    (readdirRequest loc fill path).Obeys listingProtocol
      (fun t res => res.1 = 0 → ∃ names, t = .listed path names ∧ res.2 = fillNames fill 0 names)
      t := by
  have hcode : ∀ rc : Status, rc ≠ .success → rc.code ≠ 0 := fun rc h h0 =>
    h (Status.code_eq_zero.mp h0)
  unfold readdirRequest
  apply Program.Obeys.bind ?_ (chdirTimeout_obeys loc path t)
  intro t r ht
  by_cases hr : r.status = .success
  · rw [if_neg (by simp [hr]), ht hr]
    apply Program.Obeys.bind ?_ (opendirTimeout_obeys loc path)
    intro t r ht
    by_cases hr : r.status = .success
    · rw [if_neg (by simp [hr])]
      exact fun _ => ⟨r.names, ht hr, rfl⟩
    · rw [if_pos hr]
      exact fun h0 => (hcode _ hr h0).elim
  · rw [if_pos hr]
    exact fun h0 => (hcode _ hr h0).elim

theorem preloadRequest_obeys (t : Where) :
    (preloadRequest loc).Obeys listingProtocol (fun _ _ => True) t := by
  unfold preloadRequest
  apply Program.Obeys.bind ?_ (chdirTimeout_obeys loc rootPath t)
  intro t r ht
  by_cases hr : r.status = .success
  · rw [if_neg (by simp [hr]), ht hr]
    apply Program.Obeys.bind ?_ (opendirTimeout_obeys loc rootPath)
    intro t r _
    by_cases hr : r.status = .success
    · rw [if_neg (by simp [hr])]
      trivial
    · rw [if_pos hr]
      trivial
  · rw [if_pos hr]
    trivial

theorem unlinkRequest_obeys (path : Path) (t : Where) :
    (unlinkRequest loc path).Obeys listingProtocol (fun _ _ => True) t := by
  unfold unlinkRequest
  apply Program.Obeys.bind ?_ (timeout_obeys loc .enoent (by simp) t)
  intro t r _
  by_cases hr : r.status = .success
  · rw [if_neg (by simp [hr])]
    cases loc.dropEntry path <;> trivial
  · rw [if_pos hr]
    trivial

theorem renameFileRequest_obeys (oldpath newpath : Path) (t : Where) :
    (renameFileRequest loc oldpath newpath).Obeys listingProtocol (fun _ _ => True) t := by
  unfold renameFileRequest
  apply Program.Obeys.bind ?_ (timeout_obeys loc .enoent (by simp) t)
  intro t r _
  by_cases hr : r.status = .success
  · rw [if_neg (by simp [hr])]
    exact unlinkRequest_obeys loc oldpath t
  · rw [if_pos hr]
    trivial

theorem mkdirRequest_obeys (path : Path) (t : Where) :
    (mkdirRequest loc path).Obeys listingProtocol (fun _ _ => True) t := by
  unfold mkdirRequest
  apply Program.Obeys.bind ?_ (timeout_obeys loc .enoent (by simp) t)
  intro t r _
  by_cases hr : r.status = .success
  · rw [if_neg (by simp [hr])]
    trivial
  · rw [if_pos hr]
    trivial

/-- The loop obeys the protocol when the recursive call does; the induction is on the names left. -/
theorem entriesRequest_obeys {renameDir : Path → Path → Request Int}
    (hdir : ∀ src dst t, (renameDir src dst).Obeys listingProtocol (fun _ _ => True) t)
    (oldpath newpath : Path) (names : List CStr) (type : FType) (ret : Int) (t : Where) :
    (entriesRequest loc renameDir oldpath newpath names type ret).Obeys listingProtocol
      (fun _ _ => True) t := by
  induction names generalizing type ret t with
  | nil => trivial
  | cons name names ih =>
    rw [entriesRequest]
    by_cases hdot : name = ['.'] ∨ name = ['.', '.']
    · rw [if_pos hdot]
      exact ih type ret t
    rw [if_neg hdot]
    apply Program.Obeys.bind ?_ (timeout_obeys loc .enoent (by simp) t)
    intro t r _
    by_cases hr : r.status ≠ .success ∧ r.status ≠ .enoent
    · rw [if_pos hr]
      trivial
    rw [if_neg hr]
    have hentry : (if r.type.getD type = .dir
        then renameDir (entryPath oldpath name) (entryPath newpath name)
        else renameFileRequest loc (entryPath oldpath name) (entryPath newpath name)).Obeys
          listingProtocol (fun _ _ => True) t := by
      by_cases hd : r.type.getD type = .dir
      · rw [if_pos hd]
        exact hdir _ _ t
      · rw [if_neg hd]
        exact renameFileRequest_obeys loc _ _ t
    exact Program.Obeys.bind (fun t ret _ => ih _ ret t) hentry

theorem renameDirectoryRequest_obeys (depth : Nat) (oldpath newpath : Path) (t : Where) :
    (renameDirectoryRequest loc depth oldpath newpath).Obeys listingProtocol (fun _ _ => True)
      t := by
  induction depth generalizing oldpath newpath t with
  | zero => trivial
  | succ depth ih =>
    rw [renameDirectoryRequest]
    apply Program.Obeys.bind ?_ (timeout_obeys loc .enoent (by simp) t)
    intro t r _
    by_cases hr : r.status ≠ .success ∧ r.status ≠ .enoent
    · rw [if_pos hr]
      trivial
    rw [if_neg hr]
    have hmade : (if r.status = .enoent then mkdirRequest loc newpath else pure 0).Obeys
        listingProtocol (fun _ _ => True) t := by
      by_cases he : r.status = .enoent
      · rw [if_pos he]
        exact mkdirRequest_obeys loc newpath t
      · rw [if_neg he]
        trivial
    apply Program.Obeys.bind ?_ hmade
    intro t made _
    by_cases hm : made ≠ 0
    · rw [if_pos hm]
      trivial
    rw [if_neg hm]
    apply Program.Obeys.bind ?_ (chdirTimeout_obeys loc oldpath t)
    intro t rc ht
    by_cases hrc : rc.status = .success
    · rw [if_neg (by simp [hrc]), ht hrc]
      apply Program.Obeys.bind ?_ (opendirTimeout_obeys loc oldpath)
      intro t rd _
      by_cases hrd : rd.status = .success
      · rw [if_neg (by simp [hrd])]
        apply Program.Obeys.bind ?_ (entriesRequest_obeys loc ih oldpath newpath rd.names _ 0 t)
        intro t ret _
        by_cases hret : ret = -1
        · rw [if_pos hret]
          trivial
        · rw [if_neg hret]
          apply Program.Obeys.bind ?_ (timeout_obeys loc .enoent (by simp) t)
          intro _ _ _
          trivial
      · rw [if_pos hrd]
        trivial
    · rw [if_pos hrc]
      trivial

theorem renameRequest_obeys (depth : Nat) (oldpath newpath : Path) (t : Where) :
    (renameRequest loc depth oldpath newpath).Obeys listingProtocol (fun _ _ => True) t := by
  unfold renameRequest
  apply Program.Obeys.bind ?_ (timeout_obeys loc .enoent (by simp) t)
  intro t r _
  dsimp only
  by_cases ho : r.type.getD (loc.junk oldpath) = .other
  · rw [if_pos ho]
    trivial
  rw [if_neg ho]
  have hrun : (if r.type.getD (loc.junk oldpath) = .dir
      then renameDirectoryRequest loc depth oldpath (renameTarget oldpath newpath)
      else renameFileRequest loc oldpath (renameTarget oldpath newpath)).Obeys
        listingProtocol (fun _ _ => True) t := by
    by_cases hd : r.type.getD (loc.junk oldpath) = .dir
    · rw [if_pos hd]
      exact renameDirectoryRequest_obeys loc depth _ _ t
    · rw [if_neg hd]
      exact renameFileRequest_obeys loc _ _ t
  apply Program.Obeys.bind ?_ hrun
  intro _ _ _
  trivial

end Protocol

/-- What the protocol states of the requests say about the context. -/
structure Apace {ι : Type} (s : Context ι) (t : ι → Where) : Prop where
  inside : ∀ i made, (s.progs i).next? = some (.opendir made) → t i = .inside made →
    s.shared.cwd = made
  listed : ∀ i made names, t i = .listed made names →
    ∃ l ∈ s.shared.log, l.party = i ∧ l.made = made ∧ l.names = names
  right : ∀ l ∈ s.shared.log, l.names = l.entries

theorem dplOpendir_success {env : Env} {st : Store} {cwd : Path} {names : List CStr}
    (h : dplOpendir env st cwd = (.success, names)) : names = dirEntries st cwd := by
  unfold dplOpendir at h
  cases hr : env.remote (.opendir cwd) with
  | success =>
    simp only [hr, Prod.mk.injEq, true_and] at h
    rw [← h]
    rfl
  | _ => simp [hr] at h

section Steps

variable {ι : Type} {s : Session ι} {i : ι} {env : Env} {c : DplCall}

theorem handle_chdir {path : Path} (h : (s.handle i env (.chdir path)).1.status = .success) :
    (s.handle i env (.chdir path)).2.cwd = path := by
  have hs : (dplChdir env s.store path).1 = .success := h
  have hp : (dplChdir env s.store path).2 = some path := by
    unfold dplChdir at hs ⊢
    cases hr : env.remote (.chdir path) with
    | success =>
      rw [hr] at hs
      cases ht : s.store.ftype? path with
      | none => simp [ht] at hs
      | some type => cases type <;> simp [ht, enotdir] at hs ⊢
    | _ => simp [hr] at hs
  simp [Session.handle, hp]

/-- Only a successful `dpl_chdir` moves the context. -/
theorem handle_cwd (s : Session ι) (i : ι) (env : Env) (c : DplCall) :
    (s.handle i env c).2.cwd = s.cwd ∨
    ∃ path, c = .chdir path ∧ (dplChdir env s.store path).1 = .success ∧
      (s.handle i env c).2.cwd = path := by
  cases c with
  | chdir path =>
    by_cases hs : (dplChdir env s.store path).1 = .success
    · exact .inr ⟨path, rfl, hs, handle_chdir hs⟩
    · have hn : (dplChdir env s.store path).2 = none := by
        unfold dplChdir at hs ⊢
        cases hr : env.remote (.chdir path) with
        | success =>
          rw [hr] at hs
          cases ht : s.store.ftype? path with
          | none => simp
          | some type => cases type <;> simp [ht] at hs ⊢
        | _ => simp
      exact .inl (by simp [Session.handle, hn])
  | opendir made =>
    refine .inl ?_
    unfold Session.handle
    dsimp only
    split <;> rfl
  | _ => exact .inl rfl

/-- Only a successful `dpl_opendir` is logged, and it has listed the current directory. -/
theorem handle_log (s : Session ι) (i : ι) (env : Env) (c : DplCall) :
    (s.handle i env c).2.log = s.log ∧
      (∀ made, c = .opendir made → (s.handle i env c).1.status ≠ .success) ∨
    ∃ made, c = .opendir made ∧ (s.handle i env c).1.status = .success ∧
      (s.handle i env c).1.names = dirEntries s.store s.cwd ∧
      (s.handle i env c).2.log =
        s.log ++ [⟨i, made, dirEntries s.store s.cwd, dirEntries s.store made⟩] := by
  cases c with
  | opendir made =>
    unfold Session.handle
    dsimp only
    split
    · rename_i names h
      have hn := dplOpendir_success h
      exact .inr ⟨made, rfl, rfl, hn, by rw [hn]⟩
    · rename_i rc names hne h
      exact .inl ⟨rfl, fun _ _ hs => hne hs⟩
  | _ => exact .inl ⟨rfl, by simp⟩

end Steps

section Runs

variable {ι : Type} [DecidableEq ι] {s : Context ι} {t : ι → Where} {i : ι} {env : Env}
  {c : DplCall} {k : Reply → Request (Int × List CStr)}

/-- A call of one request keeps the others on their way. -/
theorem Apace.call (h : Apace s t) (hp : s.progs i = .call c k) (hg : Undisturbed s (i, env))
    (ha : listingProtocol.allowed (t i) c) :
    Apace ⟨(s.shared.handle i env c).2,
        Function.update s.progs i (k (s.shared.handle i env c).1)⟩
      (Function.update t i (listingProtocol.after (t i) c (s.shared.handle i env c).1)) := by
  have hnext : (s.progs i).next? = some c := by rw [hp]; rfl
  have hlog : ∀ l ∈ s.shared.log, l ∈ (s.shared.handle i env c).2.log := by
    intro l hl
    rcases handle_log s.shared i env c with ⟨he, _⟩ | ⟨_, _, _, _, he⟩
    · rwa [he]
    · rw [he]
      exact List.mem_append_left _ hl
  refine ⟨?_, ?_, ?_⟩
  · intro j made hj ht
    by_cases hij : j = i
    · subst hij
      simp only [Function.update_self] at ht
      rcases after_inside ha ht with ⟨rfl, hs⟩ | ⟨rfl, _⟩
      · exact handle_chdir hs
      · rcases handle_cwd s.shared j env (.opendir made) with
          he | ⟨path, hc, _⟩
        · exact he.trans (h.inside j made hnext ha)
        · cases hc
    · simp only [Function.update_of_ne hij] at hj ht
      have hcwd := h.inside j made hj ht
      rcases handle_cwd s.shared i env c with he | ⟨path, hc, hs, he⟩
      · exact he.trans hcwd
      · exact he.trans (hg path (hc ▸ hnext) hs j hij made hj).symm
  · intro j made names ht
    by_cases hij : j = i
    · subst hij
      simp only [Function.update_self] at ht
      obtain ⟨rfl, hs, hn⟩ := after_listed ha ht
      rcases handle_log s.shared j env (.opendir made) with
        ⟨_, hno⟩ | ⟨m, hm, _, hnames, he⟩
      · exact (hno made rfl hs).elim
      · obtain rfl := DplCall.opendir.inj hm
        refine ⟨⟨j, made, dirEntries s.shared.store s.shared.cwd, dirEntries s.shared.store made⟩,
          ?_, rfl, rfl, hnames.symm.trans hn⟩
        change _ ∈ (s.shared.handle j env (.opendir made)).2.log
        rw [he]
        exact List.mem_append_right _ (List.mem_singleton_self _)
    · simp only [Function.update_of_ne hij] at ht
      obtain ⟨l, hl, hrest⟩ := h.listed j made names ht
      exact ⟨l, hlog l hl, hrest⟩
  · intro l hl
    rcases handle_log s.shared i env c with
      ⟨he, _⟩ | ⟨made, rfl, _, _, he⟩
    · exact h.right l (he ▸ hl)
    · have hl' : l ∈ (s.shared.handle i env (.opendir made)).2.log := hl
      rw [he, List.mem_append, List.mem_singleton] at hl'
      rcases hl' with hl' | rfl
      · exact h.right l hl'
      · dsimp only
        rw [h.inside i made hnext ha]

end Runs

/-- What `dfs_readdir` ends with, read off its protocol state. -/
def Job.Ends : Job → Where → Int × List CStr → Prop
  | .readdir fill path, t, res =>
    res.1 = 0 → ∃ names, t = .listed path names ∧ res.2 = fillNames fill 0 names
  | _, _, _ => True

theorem Job.obeys (loc : Locals) (job : Job) :
    (job.request loc).Obeys listingProtocol job.Ends .elsewhere := by
  cases job with
  | readdir fill path => exact readdirRequest_obeys loc fill path .elsewhere
  | rename depth oldpath newpath =>
    exact renameRequest_obeys loc depth oldpath newpath .elsewhere
  | preload => exact preloadRequest_obeys loc .elsewhere

theorem fillNames_all {fill : Nat → CStr → Int} (h : ∀ k name, fill k name = 0)
    (k : Nat) (names : List CStr) : fillNames fill k names = names := by
  induction names generalizing k with
  | nil => rfl
  | cons name names ih => rw [fillNames, if_neg (by simp [h]), ih]

/-- In every run without disturbance, of any number of requests, each listing is of
the directory it was made for, and a `dfs_readdir` that returns 0 has filled in the entries of
its path. -/
theorem listings_do_not_mix {ι : Type} [DecidableEq ι] (store : Store) (cwd : Path)
    (loc : ι → Locals) (jobs : ι → Job) (run : List (ι × Env)) (s : Context ι)
    (hm : Transition.Meets Context.step Undisturbed (Context.init store cwd loc jobs) run)
    (hs : Transition.exec Context.step (Context.init store cwd loc jobs) run = .ok s) :
    (∀ l ∈ s.shared.log, l.names = l.entries) ∧
    ∀ i fill path filled, jobs i = .readdir fill path → s.progs i = .ret (0, filled) →
      (∀ k name, fill k name = 0) →
      ∃ l ∈ s.shared.log, l.party = i ∧ l.made = path ∧ filled = l.entries := by
  have h0 : (Context.init store cwd loc jobs).Obeys listingProtocol (fun i => (jobs i).Ends)
      fun _ => .elsewhere := fun i => (jobs i).obeys (loc i)
  have hstart : Apace (Context.init store cwd loc jobs) fun _ => .elsewhere :=
    ⟨fun _ _ _ ht => (by cases ht), fun _ _ _ ht => (by cases ht), fun _ hl => (by cases hl)⟩
  obtain ⟨t, ho, ha⟩ := Parties.run_invariant (J := Apace) (G := Undisturbed)
    (fun s t i env c k _ hj hp hg hallowed => hj.call hp hg hallowed) h0 hstart hm hs
  refine ⟨ha.right, ?_⟩
  intro i fill path filled hjob hret hfill
  have hend : (jobs i).Ends (t i) (0, filled) := by
    have hob := ho i
    rw [hret] at hob
    exact hob
  rw [hjob] at hend
  obtain ⟨names, ht, hf⟩ := hend rfl
  obtain ⟨l, hl, hparty, hmade, hnames⟩ := ha.listed i path names ht
  refine ⟨l, hl, hparty, hmade, ?_⟩
  rw [← ha.right l hl, hnames]
  exact hf.trans (fillNames_all hfill 0 names)

/-- A request whose directory was changed under it lists the other one. -/
theorem disturbed_lists_other {ι : Type} [DecidableEq ι] (s u : Context ι) (i j : ι) (hij : i ≠ j)
    (envi envj : Env) (made path : Path) (hj : (s.progs j).next? = some (.opendir made))
    (hi : (s.progs i).next? = some (.chdir path))
    (hc : (dplChdir envi s.shared.store path).1 = .success)
    (ho : envj.remote (.opendir path) = .success)
    (hu : Transition.exec Context.step s [(i, envi), (j, envj)] = .ok u) :
    ⟨j, made, dirEntries s.shared.store path, dirEntries s.shared.store made⟩ ∈ u.shared.log := by
  obtain ⟨k, hpi⟩ := Program.next?_some.mp hi
  obtain ⟨k', hpj⟩ := Program.next?_some.mp hj
  obtain ⟨s₁, h1, htail⟩ := Transition.exec_cons_ok.mp hu
  obtain ⟨s₂, h2, hend⟩ := Transition.exec_cons_ok.mp htail
  obtain rfl := Except.ok.inj hend
  obtain rfl := Except.ok.inj ((Parties.step_call hpi envi).symm.trans h1)
  have hpj' : Function.update s.progs i (k (s.shared.handle i envi (.chdir path)).1) j =
      .call (.opendir made) k' := by rw [Function.update_of_ne (Ne.symm hij), hpj]
  obtain rfl := Except.ok.inj ((Parties.step_call hpj' envj).symm.trans h2)
  have hcwd : (s.shared.handle i envi (.chdir path)).2.cwd = path := handle_chdir hc
  have hopen : dplOpendir envj s.shared.store path =
      (.success, dirEntries s.shared.store path) := by
    simp [dplOpendir, ho, dirEntries, Env.quiet]
  have hstore : (s.shared.handle i envi (.chdir path)).2.store = s.shared.store := rfl
  generalize (s.shared.handle i envi (.chdir path)).2 = s' at hcwd hstore
  have hs : (s'.handle j envj (.opendir made)).1.status = .success := by
    simp [Session.handle, hcwd, hstore, hopen]
  rcases handle_log s' j envj (.opendir made) with
    ⟨_, hno⟩ | ⟨m, hm, _, _, he⟩
  · exact (hno made rfl hs).elim
  · obtain rfl := DplCall.opendir.inj hm
    dsimp only
    rw [he, hcwd, hstore]
    exact List.mem_append_right _ (List.mem_singleton_self _)

/-- Two directories with one file each. -/
def twoDirs : Store :=
  Sample.store [(['/', 'a'], Sample.dir), (['/', 'a', '/', 'x'], Sample.file []),
    (['/', 'b'], Sample.dir), (['/', 'b', '/', 'y'], Sample.file [])]

def quietLocals : Locals := ⟨3, fun _ => true, fun _ => .ok (), fun _ => .other⟩

/-- A listing of each. -/
def twoReaddirs : Context Bool :=
  .init twoDirs rootPath (fun _ => quietLocals)
    fun second => .readdir (fun _ _ => 0) (if second then ['/', 'b'] else ['/', 'a'])

theorem twoReaddirs_apart :
    ∃ s, Transition.exec Context.step twoReaddirs
        [(false, Env.quiet), (false, Env.quiet), (true, Env.quiet), (true, Env.quiet)] = .ok s ∧
      (∀ l ∈ s.shared.log, l.names = l.entries) ∧
      ∃ filled, s.progs true = .ret (0, filled) ∧
        ∃ l ∈ s.shared.log, l.party = true ∧ l.made = ['/', 'b'] ∧ filled = l.entries := by
  have hm : Transition.Meets Context.step Undisturbed twoReaddirs
      [(false, Env.quiet), (false, Env.quiet), (true, Env.quiet), (true, Env.quiet)] := by
    refine ⟨?_, ?_, ?_, ?_, trivial⟩
    all_goals
      intro path hp _ j hj made hm
      cases j <;> first | exact (hj rfl).elim | cases hm
  obtain ⟨hright, hfill⟩ := listings_do_not_mix twoDirs rootPath (fun _ => quietLocals) _ _ _ hm rfl
  exact ⟨_, rfl, hright, _, rfl, hfill true _ _ _ rfl rfl fun _ _ => rfl⟩

/-- A second listing that changes the directory in between makes the first one, which returns
0, list the wrong directory. -/
theorem twoReaddirs_mixed :
    ∃ s filled, Transition.exec Context.step twoReaddirs
        [(false, Env.quiet), (true, Env.quiet), (false, Env.quiet)] = .ok s ∧
      s.progs false = .ret (0, filled) ∧ filled = [['.'], ['.', '.'], ['y']] ∧
      dirEntries s.shared.store ['/', 'a'] = [['.'], ['.', '.'], ['x']] ∧
      ¬∀ l ∈ s.shared.log, l.names = l.entries := by
  refine ⟨_, _, rfl, rfl, rfl, rfl, fun h => ?_⟩
  have hl := h _ (List.mem_singleton_self _)
  revert hl
  decide

end DropletFs
