import DropletFs.Model.Sample
import DropletFs.Table.Calls

/-! The access mode of the descriptor all handles of an entry share. Opens and releases
never narrow it, but an open for writing may find it read-only. -/

namespace DropletFs

open CText LocalFs

/-- How the descriptor of an entry is open. -/
def World.accessOf (s : World) (a : Addr) : Option AccMode :=
  (s.heap a).bind fun pe => pe.fd.bind fun fd => (s.fs.fds.lookup fd).map (·.acc)

/-- The descriptor allows at least what `acc` asks for. -/
def AccMode.Allows (have_ acc : AccMode) : Prop :=
  (acc.canRead = true → have_.canRead = true) ∧ (acc.canWrite = true → have_.canWrite = true)

instance (a b : AccMode) : Decidable (a.Allows b) := inferInstanceAs (Decidable (_ ∧ _))

theorem AccMode.Allows.refl (a : AccMode) : a.Allows a := ⟨id, id⟩

theorem AccMode.Allows.trans {a b c : AccMode} (h : a.Allows b) (h' : b.Allows c) :
    a.Allows c := ⟨h.1 ∘ h'.1, h.2 ∘ h'.2⟩

theorem AccMode.rdwr_allows (a : AccMode) : AccMode.rdwr.Allows a := ⟨fun _ => rfl, fun _ => rfl⟩

/-- The descriptor behind a handle permits every access the handle was opened for. -/
def World.Permits (s : World) (h : Handle) : Prop :=
  match s.accessOf h.addr with
  | some acc => acc.Allows h.flags.acc
  | none => False

instance (s : World) (h : Handle) : Decidable (s.Permits h) := by
  unfold World.Permits
  cases s.accessOf h.addr <;> infer_instance

/-- Every outstanding handle has the access it was opened for. -/
def Daemon.Permits (d : Daemon) : Prop := ∀ h ∈ d.handles, d.world.Permits h

instance (d : Daemon) : Decidable d.Permits := inferInstanceAs (Decidable (∀ h ∈ d.handles, _))

/-- No descriptor loses an access. -/
def World.Widens (s t : World) : Prop :=
  ∀ a acc, s.accessOf a = some acc → ∃ acc', t.accessOf a = some acc' ∧ acc'.Allows acc

namespace World

theorem accessOf_some {s : World} {a : Addr} {acc : AccMode} :
    s.accessOf a = some acc ↔ ∃ pe fd f, s.heap a = some pe ∧ pe.fd = some fd ∧
      s.fs.fds.lookup fd = some f ∧ f.acc = acc := by
  simp only [accessOf, Option.bind_eq_some_iff, Option.map_eq_some_iff]
  constructor
  · rintro ⟨pe, hpe, fd, hfd, f, hf, hacc⟩
    exact ⟨pe, fd, f, hpe, hfd, hf, hacc⟩
  · rintro ⟨pe, fd, f, hpe, hfd, hf, hacc⟩
    exact ⟨pe, hpe, fd, hfd, f, hf, hacc⟩

theorem Widens.refl (s : World) : s.Widens s := fun _ acc h => ⟨acc, h, .refl acc⟩

theorem Widens.trans {s t u : World} (h : s.Widens t) (h' : t.Widens u) : s.Widens u := by
  intro a acc ha
  obtain ⟨b, hb, hba⟩ := h a acc ha
  obtain ⟨c, hc, hcb⟩ := h' a b hb
  exact ⟨c, hc, hcb.trans hba⟩

theorem Permits.widens {s t : World} (hw : s.Widens t) {h : Handle} (hp : s.Permits h) :
    t.Permits h := by
  unfold Permits at hp ⊢
  cases ha : s.accessOf h.addr with
  | none => simp [ha] at hp
  | some acc =>
    rw [ha] at hp
    obtain ⟨acc', ha', hal⟩ := hw h.addr acc ha
    rw [ha']
    exact hal.trans hp

/-- An update of one entry widens when the descriptor of that entry does. -/
theorem Widens.update {s : World} (hi : s.Inv) {a : Addr} {pe pe' : Entry} {fs : LocalFs}
    (ha : s.heap a = some pe) (hu : Update s.fs pe fs pe')
    (hacc : pe'.fd = pe.fd ∨ pe.fd = none ∨
      ∃ fd f, pe'.fd = some fd ∧ fs.fds.lookup fd = some f ∧ f.acc = .rdwr) :
    s.Widens { s.setEntry a pe' with fs := fs } := by
  intro b acc hb
  obtain ⟨qe, fd, f, hq, hfd, hf, rfl⟩ := accessOf_some.mp hb
  obtain ⟨g, hg, hcg⟩ := hi.opened b qe fd hq hfd
  rw [hf, Option.some.injEq] at hg
  subst hg
  have hkeep := hu.fds fd f hf hcg
  by_cases he : b = a
  · subst he
    rw [ha, Option.some.injEq] at hq
    subst hq
    rcases hacc with hacc | hacc | ⟨k, g, hk, hg, hacc⟩
    · exact ⟨f.acc, accessOf_some.mpr ⟨pe', fd, f, setEntry_heap_self s b pe', hacc.trans hfd,
        hkeep, rfl⟩, .refl _⟩
    · rw [hacc] at hfd
      cases hfd
    · exact ⟨g.acc, accessOf_some.mpr ⟨pe', k, g, setEntry_heap_self s b pe', hk, hg, rfl⟩,
        hacc ▸ AccMode.rdwr_allows _⟩
  · exact ⟨f.acc, accessOf_some.mpr ⟨qe, fd, f, (setEntry_heap_of_ne he pe').trans hq, hfd,
      hkeep, rfl⟩, .refl _⟩

theorem Widens.insertEntry {s : World} (hi : s.Inv) (p : Path) (pe : Entry) :
    s.Widens (s.insertEntry p pe) := by
  intro b acc hb
  obtain ⟨qe, fd, f, hq, hfd, hf, rfl⟩ := accessOf_some.mp hb
  have hne : b ≠ s.brk := by
    rintro rfl
    rw [hi.brk_free] at hq
    cases hq
  exact ⟨f.acc, accessOf_some.mpr ⟨qe, fd, f, by simpa [World.insertEntry, hne] using hq, hfd, hf,
    rfl⟩, .refl _⟩

end World

theorem Looked.widens {env : Env} {type : TPathType} {s t : World} {path : Path} {a : Addr}
    (hi : s.Inv) (h : Looked env type s path a t) : s.Widens t := by
  rcases h.cases with rfl | ⟨_, _, rfl⟩
  · exact .refl t
  · exact .insertEntry hi path _

/-- The entry of the path holds a read-only descriptor, and the open asks to write without
making a new one. -/
def ReusesReadOnly (s : World) (path : Path) (flags : OpenFlags) : Prop :=
  getModeFromFlags flags = .rdwr ∧ flags.acc.canWrite = true ∧
    ∃ a, s.hash path = some a ∧ s.accessOf a = some .rdonly

theorem getModeFromFlags_rdonly {flags : OpenFlags} (h : getModeFromFlags flags = .rdonly) :
    flags.acc = .rdonly := by
  unfold getModeFromFlags at h
  cases hacc : flags.acc <;> rw [hacc] at h <;> split_ifs at h

theorem getModeFromFlags_ne_wronly (flags : OpenFlags) : getModeFromFlags flags ≠ .wronly := by
  unfold getModeFromFlags
  split_ifs
  · decide
  · decide
  · cases flags.acc <;> decide

theorem dfsOpen_widens {cx : Ctx} {env : Env} {s t : World} {path : Path} {flags : OpenFlags}
    {ret : Int} {fh : Option Addr} (hi : s.Inv)
    (h : dfsOpen cx env s path flags = .ok (ret, fh, t)) : s.Widens t := by
  rcases dfsOpen_cases hi h with ⟨_, _, rfl⟩ | ⟨a, u, pe, qe, fs, hl, hpe, rfl, ho, rfl⟩
  · exact .refl t
  · have hs := openMode_spec hi.wf ho
    rw [← hl.fs] at hs
    refine (hl.widens hi).trans (.update hl.inv hpe ?_ ?_)
    · split_ifs <;>
        exact ⟨hs.update.path, hs.update.wf, hs.update.fds, hs.update.fd⟩
    · have hfd : (if ret = -1 then qe else { qe with ondisk := .loc }).fd = qe.fd := by
        split_ifs <;> rfl
      rw [hfd]
      rcases hs.acc with ⟨hold, _⟩ | ⟨hnone | hcreat, k, f, hk, hf, hacc⟩
      · exact .inl hold
      · exact .inr (.inl hnone)
      · exact .inr (.inr ⟨k, f, hk, hf, by rw [hacc, hcreat]; rfl⟩)

/-- A handle gets the access it asked for, unless its entry's descriptor is read-only and
reused. -/
theorem dfsOpen_permits {cx : Ctx} {env : Env} {s t : World} {path : Path} {flags : OpenFlags}
    {a : Addr} (hi : s.Inv) (hg : ¬ReusesReadOnly s path flags)
    (h : dfsOpen cx env s path flags = .ok (0, some a, t)) : t.Permits ⟨a, path, flags⟩ := by
  rcases dfsOpen_cases hi h with ⟨h0, _, _⟩ | ⟨b, u, pe, qe, fs, hl, hpe, hb, ho, rfl⟩
  · cases h0
  · obtain rfl : a = b := by simpa using hb
    have hs := openMode_spec hi.wf ho
    obtain ⟨fd, f, hfd, hf, hacc⟩ : ∃ fd f, qe.fd = some fd ∧ fs.fds.lookup fd = some f ∧
        f.acc.Allows flags.acc := by
      rcases hs.acc with ⟨hold, hcreat⟩ | ⟨_, k, f, hk, hf, hacc⟩
      · -- the descriptor is the one the entry held before
        have hsome : qe.fd.isSome := by
          rcases hs.result with ⟨_, hs⟩ | ⟨hs, _⟩
          · exact hs
          · cases hs
        obtain ⟨fd, hfd⟩ := Option.isSome_iff_exists.mp hsome
        have hpfd : pe.fd = some fd := hold ▸ hfd
        obtain ⟨f, hf, hcf⟩ := hl.inv.opened a pe fd hpe hpfd
        have hf' : s.fs.fds.lookup fd = some f := hl.fs ▸ hf
        refine ⟨fd, f, hfd, hs.update.fds fd f hf' hcf, fun _ => hcf.canRead, fun hw => ?_⟩
        rcases hcf.2 with hro | hrw
        · exfalso
          have hsame : u = s := by
            rcases hl.cases with hc | ⟨_, rfl, rfl⟩
            · exact hc
            · simp only [World.insertEntry, Function.update_self, Option.some.injEq] at hpe
              rw [← hpe] at hpfd
              cases hpfd
          have hmode : getModeFromFlags flags = .rdwr := by
            cases hm : getModeFromFlags flags with
            | rdwr => rfl
            | rdonly => simp [getModeFromFlags_rdonly hm, AccMode.canWrite] at hw
            | wronly => exact (getModeFromFlags_ne_wronly flags hm).elim
            | creat => cases hcreat hm
          refine hg ⟨hmode, hw, a, hsame ▸ hl.hash, World.accessOf_some.mpr ⟨pe, fd, f, ?_, hpfd,
            hf', hro⟩⟩
          rw [← hsame]
          exact hpe
        · rw [hrw]
          rfl
      · refine ⟨k, f, hk, hf, ?_⟩
        rw [hacc]
        cases hm : getModeFromFlags flags with
        | rdonly =>
          rw [getModeFromFlags_rdonly hm]
          exact .refl _
        | _ => exact AccMode.rdwr_allows _
    have hres : ({ u.setEntry a { qe with ondisk := .loc } with fs := fs } : World).accessOf a =
        some f.acc :=
      World.accessOf_some.mpr ⟨_, fd, f, World.setEntry_heap_self u a _, hfd, hf, rfl⟩
    have hne : (0 : Int) ≠ -1 := by decide
    simp only [World.Permits, hne, if_false]
    rw [hres]
    exact hacc

theorem dfsCreate_widens {cx : Ctx} {env : Env} {s t : World} {path : Path} {mode : Nat}
    {flags : OpenFlags} {ret : Int} {fh : Option Addr} (hi : s.Inv)
    (h : dfsCreate cx env s path mode flags = .ok (ret, fh, t)) :
    s.Widens t ∧ (¬ReusesReadOnly s path flags → ret = 0 → ∀ a, fh = some a →
      t.Permits ⟨a, path, flags⟩) := by
  rcases dfsCreate_cases h with ⟨rfl, _, rfl⟩ | ⟨r, u, ho, hcase⟩
  · exact ⟨.refl t, fun _ h0 => by cases h0⟩
  have hwu := dfsOpen_widens hi ho
  rcases hcase with ⟨rfl, rfl, _⟩ | ⟨hr, a, pe, pe', fs', st', rfl, ha, hc, rfl⟩
  · exact ⟨hwu, fun _ h0 => by cases h0⟩
  obtain ⟨hiu, _, hret⟩ := dfsOpen_inv hi ho
  obtain ⟨md, l, hq, hf1, _, hw⟩ := createOpened_spec hiu.wf hc
  have hup : Update u.fs pe fs' pe' :=
    ⟨by rw [hq], hw, fun fd f hf _ => hf1 ▸ hf, .inl (by rw [hq])⟩
  have hwt : u.Widens { u.setEntry a pe' with fs := fs', store := st' } :=
    World.Widens.update hiu ha hup (.inl (by rw [hq]))
  refine ⟨hwu.trans hwt, fun hg _ b hb => ?_⟩
  obtain rfl : a = b := by simpa using hb
  have h0 : r = 0 := by
    rcases hret with hret | hret
    · exact hret.1
    · exact (hr hret).elim
  subst h0
  exact (dfsOpen_permits hi hg ho).widens hwt

theorem dfsRelease_widens {cx : Ctx} {env : Env} {s t : World} {path : Path} {flags : OpenFlags}
    {fh : Addr} {ret : Int} (hi : s.Inv) (h : dfsRelease cx env s path flags fh = .ok (ret, t)) :
    s.Widens t := by
  obtain ⟨pe, pe', fs, st, ha, hr, rfl⟩ := dfsRelease_cases h
  have hs := releaseEntry_spec hi.wf hr
  exact World.Widens.update hi ha hs.update (.inl hs.fd)

/-- The calls of an access-mode run. -/
def Op.opensOrReleases : Op → Bool
  | .open .. | .create .. | .release .. => true
  | _ => false

/-- The step opens or releases, and no open for writing reuses a read-only descriptor. -/
def KeepsMode (d : Daemon) (c : Call) : Prop :=
  c.op.opensOrReleases = true ∧
  match c.op with
  | .open path flags => ¬ReusesReadOnly d.world path flags
  | .create path _ flags => ¬ReusesReadOnly d.world path flags
  | _ => True

theorem Calls.permits {cx : Ctx} {env : Env} {d d' : Daemon} {op : Op} {ret : Int}
    (hi : d.world.Inv) (hp : d.Permits) (hg : KeepsMode d ⟨op, env⟩)
    (h : Calls cx env d op ret d') : d'.Permits := by
  -- what a step does to the handles that were there, and to one it adds
  have hold : ∀ {w : World}, d.world.Widens w → ∀ g ∈ d.handles, w.Permits g :=
    fun hw g hm => (hp g hm).widens hw
  have hadd : ∀ {w : World} {g : Handle}, d.world.Widens w → w.Permits g →
      Daemon.Permits ⟨w, d.handles ++ [g]⟩ := by
    intro w g hw hg k hk
    rcases List.mem_append.mp hk with hk | hk
    · exact hold hw k hk
    · rw [List.mem_singleton.mp hk]
      exact hg
  obtain ⟨hop, hg⟩ := hg
  cases h with
  | opened h => exact hadd (dfsOpen_widens hi h) (dfsOpen_permits hi hg h)
  | openFailed _ h => exact hold (dfsOpen_widens hi h)
  | created h =>
    obtain ⟨hw, hn⟩ := dfsCreate_widens hi h
    exact hadd hw (hn hg rfl _ rfl)
  | createFailed _ h => exact hold (dfsCreate_widens hi h).1
  | released _ h =>
    exact fun g hm => hold (dfsRelease_widens hi h) g (List.mem_of_mem_eraseIdx hm)
  | notReleased => exact hp
  | _ => cases hop

/-- A write through a handle that was opened for writing does not fail on the mode of the
descriptor. -/
theorem Daemon.Permits.write_ok {d : Daemon} (hp : d.Permits) {h : Handle}
    (hh : h ∈ d.handles) (hc : h.flags.acc.canWrite = true) {env : Env}
    (hsys : env.sys .pwrite = none) (buf : Bytes) (offset : Nat) :
    ∃ w, dfsWrite env d.world h.addr buf offset = .ok ((env.written buf).length, w) := by
  have hperm := hp h hh
  unfold World.Permits at hperm
  cases ha : d.world.accessOf h.addr with
  | none => simp [ha] at hperm
  | some acc =>
    rw [ha] at hperm
    obtain ⟨pe, fd, f, hpe, hfd, hf, rfl⟩ := World.accessOf_some.mp ha
    have hcan := hperm.2 hc
    refine ⟨{ d.world with
      fs := d.world.fs.writeInode f.inode
        (pokeBytes (d.world.fs.inodes f.inode).data offset (env.written buf)) }, ?_⟩
    simp [dfsWrite, World.deref, hpe, hfd, hsys, hf, hcan, bind, Except.bind]

/-- In every run of opens, creates and releases in which no open for writing reuses a
read-only descriptor, each handle has the access it was opened for, and a write through
one opened for writing goes through. -/
theorem access_mode_kept (cx : Ctx) (store : Store) (fs : LocalFs) (ring : Ring)
    (calls : List Call) (d : Daemon) (hw : fs.Wf)
    (hm : Transition.Meets (Daemon.step cx) KeepsMode (.init store fs ring) calls)
    (hr : Transition.exec (Daemon.step cx) (.init store fs ring) calls = .ok d) :
    d.Permits ∧ ∀ h ∈ d.handles, h.flags.acc.canWrite = true → ∀ env buf offset,
      env.sys .pwrite = none →
      ∃ w, dfsWrite env d.world h.addr buf offset = .ok ((env.written buf).length, w) := by
  have hp : d.Permits := by
    refine (Transition.exec_invariant (I := fun d => d.world.Inv ∧ d.Permits) ?_
      ⟨Daemon.init_inv hw, ?_⟩ hm hr).2
    · rintro s ⟨op, env⟩ t ⟨hi, hp⟩ hg ht
      obtain ⟨ret, hc⟩ := Daemon.step_cases ht
      exact ⟨hc.inv hi, hc.permits hi hp hg⟩
    · intro h hh
      cases hh
  exact ⟨hp, fun h hh hc env buf offset hsys => hp.write_ok hh hc hsys buf offset⟩

theorem access_mode_kept_sample :
    ∃ d, Transition.exec (Daemon.step Sample.plain)
        (Sample.daemon [(['/', 'f'], Sample.file [1])])
        [Sample.call (.open ['/', 'f'] Sample.readOnly),
          Sample.call (.open ['/', 'f'] Sample.writeOnly)] = .ok d ∧
      d.handles.length = 2 ∧ d.Permits := by
  have hm : Transition.Meets (Daemon.step Sample.plain) KeepsMode
      (.init (Sample.store [(['/', 'f'], Sample.file [1])]) Sample.fs Sample.ring)
      [Sample.call (.open ['/', 'f'] Sample.readOnly),
        Sample.call (.open ['/', 'f'] Sample.writeOnly)] := by
    refine ⟨⟨rfl, ?_⟩, ⟨rfl, ?_⟩, trivial⟩
    · rintro ⟨hmode, _⟩
      cases hmode
    · rintro ⟨hmode, _⟩
      cases hmode
  exact ⟨_, rfl, rfl, (access_mode_kept Sample.plain _ _ _ _ _ Sample.fs_wf hm rfl).1⟩

/-- The object `/f` is opened read-only and then for appending. -/
def readThenAppend : List Call :=
  [Sample.call (.open ['/', 'f'] Sample.readOnly), Sample.call
  (.open ['/', 'f'] Sample.writeAppend)]

/-- Both opens succeed, and the second handle cannot be written through. -/
theorem access_mode_narrow :
    ∃ d, Transition.exec (Daemon.step Sample.plain)
        (Sample.daemon [(['/', 'f'], Sample.file [1])]) readThenAppend = .ok d ∧
      d.handles.length = 2 ∧ ¬d.Permits := by
  refine ⟨_, rfl, rfl, by decide⟩

end DropletFs
