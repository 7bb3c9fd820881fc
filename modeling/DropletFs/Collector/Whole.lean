import DropletFs.Model.Threads
import DropletFs.Table.Removal

/-! A callback whose steps no other thread comes between is the callback of the
single-threaded model. -/

namespace DropletFs.Threads

open CText

variable {cx : Ctx} {env : Env} {s : State} {i : Nat} {ph ph' : Phase} {w : World}

theorem step_client {c : ClientStep} (hph : s.clients[i]? = some ph)
    (hc : clientStep cx env s.world c ph = .ok (w, ph')) :
    step cx s ⟨.client i c, env⟩ = .ok { s with world := w, clients := s.clients.set i ph' } := by
  simp [step, hph, hc, Except.map]

theorem set_getElem? (hph : s.clients[i]? = some ph) (ph' : Phase) :
    (s.clients.set i ph')[i]? = some ph' := by
  obtain ⟨hlt, _⟩ := List.getElem?_eq_some_iff.mp hph
  simp [hlt]

/-- Three steps of one client in a row. -/
theorem exec_three {c₁ c₂ c₃ : ClientStep} {p₃ : Phase} {w₃ : World}
    (hph : s.clients[i]? = some ph) (w₁ w₂ : World) (p₁ p₂ : Phase)
    (h1 : clientStep cx env s.world c₁ ph = .ok (w₁, p₁))
    (h2 : clientStep cx env w₁ c₂ p₁ = .ok (w₂, p₂))
    (h3 : clientStep cx env w₂ c₃ p₂ = .ok (w₃, p₃)) :
    Transition.exec (step cx) s
        [⟨.client i c₁, env⟩, ⟨.client i c₂, env⟩, ⟨.client i c₃, env⟩] =
      .ok { s with world := w₃, clients := s.clients.set i p₃ } := by
  simp only [Transition.exec, step_client hph h1]
  have hp1 : ({ s with world := w₁, clients := s.clients.set i p₁ } : State).clients[i]? =
      some p₁ := set_getElem? hph p₁
  simp only [step_client hp1 h2, List.set_set]
  have hp2 : ({ s with world := w₂, clients := s.clients.set i p₂ } : State).clients[i]? =
      some p₂ := set_getElem? hph p₂
  simp only [step_client hp2 h3, List.set_set]

theorem setEntry_setEntry (w : World) (a : Addr) (pe qe : Entry) :
    (w.setEntry a pe).setEntry a qe = w.setEntry a qe := by
  simp [World.setEntry]

/-- `dfs_open` is its lookup, its `sem_post` and the rest. -/
theorem open_steps {path : Path} {flags : OpenFlags} {ret : Int} {fh : Option Addr} {t : World}
    (hph : s.clients[i]? = some .idle)
    (h : dfsOpen cx env s.world path flags = .ok (ret, fh, t)) :
    ∃ ph, Transition.exec (step cx) s [⟨.client i (.lookup path flags), env⟩,
        ⟨.client i .post, env⟩, ⟨.client i .enter, env⟩] =
        .ok { s with world := t, clients := s.clients.set i ph } ∧
      ∀ a, fh = some a → ret = 0 → ph = .opened ⟨a, path, flags⟩ := by
  unfold dfsOpen at h
  cases hl : lookupOrPopulate env s.world path .reg with
  | none =>
    simp only [hl, Except.ok.injEq, Prod.mk.injEq] at h
    obtain ⟨rfl, rfl, rfl⟩ := h
    have h1 : clientStep cx env s.world (.lookup path flags) .idle = .ok (s.world, .idle) := by
      simp [clientStep, lookup, hl]
    refine ⟨.idle, exec_three hph _ _ _ _ h1 rfl rfl, ?_⟩
    rintro a ⟨⟩
  | some au =>
    obtain ⟨a, u⟩ := au
    rw [hl] at h
    obtain ⟨pe, hpe, h⟩ := Except.bind_ok.mp h
    obtain ⟨⟨r, qe, fs⟩, ho, h⟩ := Except.bind_ok.mp h
    have h1 : clientStep cx env s.world (.lookup path flags) .idle =
        .ok (u, .looked ⟨a, path, flags⟩) := by
      simp [clientStep, lookup, hl]
    have h2 : clientStep cx env u .post (.looked ⟨a, path, flags⟩) =
        .ok (u.setEntry a (pentryIncRefcount pe), .posted ⟨a, path, flags⟩) := by
      simp [clientStep, post, hpe, bind, Except.bind]
    have hget : (u.setEntry a (pentryIncRefcount pe)).deref a = .ok (pentryIncRefcount pe) :=
      World.deref_ok.mpr (World.setEntry_heap_self u a _)
    by_cases hr : r = -1
    · simp only [hr, if_true, Except.ok.injEq, Prod.mk.injEq] at h
      obtain ⟨rfl, rfl, rfl⟩ := h
      have h3 : clientStep cx env (u.setEntry a (pentryIncRefcount pe)) .enter
          (.posted ⟨a, path, flags⟩) = .ok ({ u.setEntry a qe with fs := fs }, .idle) := by
        simp [clientStep, enter, hget, ho, hr, setEntry_setEntry, bind, Except.bind]
      refine ⟨.idle, exec_three hph _ _ _ _ h1 h2 h3, ?_⟩
      rintro b _ ⟨⟩
    · simp only [hr, if_false, Except.ok.injEq, Prod.mk.injEq] at h
      obtain ⟨rfl, rfl, rfl⟩ := h
      have h3 : clientStep cx env (u.setEntry a (pentryIncRefcount pe)) .enter
          (.posted ⟨a, path, flags⟩) =
          .ok ({ u.setEntry a { qe with ondisk := .loc } with fs := fs },
            .opened ⟨a, path, flags⟩) := by
        simp [clientStep, enter, hget, ho, hr, setEntry_setEntry, bind, Except.bind]
      refine ⟨_, exec_three hph _ _ _ _ h1 h2 h3, ?_⟩
      rintro b ⟨⟩ _
      rfl

/-- `dfs_release` is its `sem_wait`, its upload and its unlock. -/
theorem release_steps {h : Handle} {ret : Int} {t : World}
    (hph : s.clients[i]? = some (.opened h))
    (hr : dfsRelease cx env s.world h.path h.flags h.addr = .ok (ret, t)) :
    Transition.exec (step cx) s
        [⟨.client i .wait, env⟩, ⟨.client i .upload, env⟩, ⟨.client i .unlock, env⟩] =
      .ok { s with world := t, clients := s.clients.set i .idle } := by
  obtain ⟨pe, pe', fs, st, hpe, he, rfl⟩ := dfsRelease_cases hr
  have hget : s.world.deref h.addr = .ok pe := World.deref_ok.mpr hpe
  have hset : ∀ (w : World) qe, (w.setEntry h.addr qe).deref h.addr = .ok qe :=
    fun w qe => World.deref_ok.mpr (World.setEntry_heap_self w h.addr qe)
  unfold releaseEntry at he
  cases hfd : pe.fd with
  | none =>
    simp only [hfd, Except.ok.injEq, Prod.mk.injEq] at he
    obtain ⟨_, rfl, rfl, rfl⟩ := he
    refine exec_three hph s.world s.world (.uploaded h) (.uploaded h) ?_ rfl ?_
    · simp [clientStep, wait, hget, hfd, bind, Except.bind]
    · simp [clientStep, unlock, hget, bind, Except.bind, World.setEntry]
  | some fd =>
    rw [hfd] at he
    dsimp only at he
    split at he
    · rename_i stat hsys hstat
      obtain ⟨qe, hq, he⟩ := Except.bind_ok.mp he
      have hqfd : qe.fd = some fd := by
        obtain ⟨_, rfl⟩ := pentryDecRefcount_ok hq
        exact hfd
      split_ifs at he with h1 h2
      · simp only [Except.ok.injEq, Prod.mk.injEq] at he
        obtain ⟨_, rfl, rfl, rfl⟩ := he
        refine exec_three hph _ _ .idle .idle ?_ rfl rfl
        simp [clientStep, wait, hget, hfd, hsys, hstat, hq, h1, bind, Except.bind, World.setEntry]
      · simp only [Except.ok.injEq, Prod.mk.injEq] at he
        obtain ⟨_, rfl, rfl, rfl⟩ := he
        refine exec_three hph (s.world.setEntry h.addr qe) (s.world.setEntry h.addr qe)
          (.uploaded h) (.uploaded h) ?_ rfl ?_
        · simp [clientStep, wait, hget, hfd, hsys, hstat, hq, h1, h2, bind, Except.bind]
        · simp [clientStep, unlock, World.deref, World.setEntry, bind, Except.bind]
      · simp only [Except.ok.injEq, Prod.mk.injEq] at he
        obtain ⟨_, rfl, rfl, rfl⟩ := he
        refine exec_three hph (s.world.setEntry h.addr qe)
          { s.world.setEntry h.addr qe with
            fs := (releaseUpload cx env s.world.store s.world.fs h.path fd stat).2.1.setOffset fd 0
            store := (releaseUpload cx env s.world.store s.world.fs h.path fd stat).2.2 }
          (.waited h stat) (.uploaded h) ?_ ?_ ?_
        · simp [clientStep, wait, hget, hfd, hsys, hstat, hq, h1, h2, bind, Except.bind]
        · simp [clientStep, upload, hset, hqfd, bind, Except.bind]
        · simp [clientStep, unlock, World.deref, World.setEntry, bind, Except.bind]
    · rename_i hne
      simp only [Except.ok.injEq, Prod.mk.injEq] at he
      obtain ⟨_, rfl, rfl, rfl⟩ := he
      refine exec_three hph { s.world with fs := s.world.fs.setOffset fd 0 }
        { s.world with fs := s.world.fs.setOffset fd 0 } (.uploaded h) (.uploaded h) ?_ rfl ?_
      · simp only [clientStep, wait, hget, hfd, bind, Except.bind]
      · simp [clientStep, unlock, World.deref, hpe, bind, Except.bind, World.setEntry]

theorem step_collector {c : SweepStep} {sw : Sweep}
    (hc : sweepStep cx env s.world c s.collector = .ok (w, sw)) :
    step cx s ⟨.collector c, env⟩ = .ok { s with world := w, collector := sw } := by
  simp [step, hc, Except.map]

/-- `gc_callback` is its four steps. -/
theorem sweep_steps (hi : s.world.Inv) (hidle : s.collector = .idle) (path : Path) :
    Transition.exec (step cx) s [⟨.collector (.count path), env⟩, ⟨.collector .trylock, env⟩,
        ⟨.collector .decide, env⟩, ⟨.collector .remove, env⟩] =
      .ok { s with world := gcCallback cx env s.world path } := by
  obtain ⟨w, clients, sw⟩ := s
  obtain rfl : sw = .idle := hidle
  have hcalm : ∀ c, c = .trylock ∨ c = .decide ∨ c = .remove →
      step cx ⟨w, clients, .idle⟩ ⟨.collector c, env⟩ = .ok ⟨w, clients, .idle⟩ := by
    rintro c (rfl | rfl | rfl) <;> rfl
  -- the collector gives up at its first step
  have hskip : step cx ⟨w, clients, .idle⟩ ⟨.collector (.count path), env⟩ =
      .ok ⟨w, clients, .idle⟩ → gcCallback cx env w path = w →
      Transition.exec (step cx) ⟨w, clients, .idle⟩ [⟨.collector (.count path), env⟩,
        ⟨.collector .trylock, env⟩, ⟨.collector .decide, env⟩, ⟨.collector .remove, env⟩] =
      .ok ⟨gcCallback cx env w path, clients, .idle⟩ := by
    intro h1 h2
    simp [Transition.exec, h1, h2, hcalm]
  cases hh : w.hash path with
  | none =>
    exact hskip (by simp [step, sweepStep, count, hh, Except.map])
      (by simp [gcCallback, World.entry, hh])
  | some a =>
    obtain ⟨pe, hpe, _⟩ := hi.entry path a hh
    change w.heap a = some pe at hpe
    have hget : w.deref a = .ok pe := World.deref_ok.mpr hpe
    have hcount : pe.refcount = 0 → step cx ⟨w, clients, .idle⟩ ⟨.collector (.count path), env⟩ =
        .ok ⟨w, clients, .counted path a⟩ := fun h0 => by
      simp [step, sweepStep, count, hh, hget, h0, bind, Except.bind, Except.map]
    by_cases h0 : pe.refcount = 0
    swap
    · exact hskip (by simp [step, sweepStep, count, hh, hget, h0, bind, Except.bind, Except.map])
        (by simp [gcCallback, World.entry, hh, hpe, h0])
    by_cases hl : pe.locked = true
    · have htry : step cx ⟨w, clients, .counted path a⟩ ⟨.collector .trylock, env⟩ =
          .ok ⟨w, clients, .idle⟩ := by
        simp [step, sweepStep, trylock, hget, hl, bind, Except.bind, Except.map]
      simp [Transition.exec, hcount h0, htry, hcalm, gcCallback, World.entry, hh, hpe, h0, hl]
    have htry : step cx ⟨w, clients, .counted path a⟩ ⟨.collector .trylock, env⟩ =
        .ok ⟨w.setEntry a { pe with locked := true }, clients, .locked path a⟩ := by
      simp [step, sweepStep, trylock, hget, hl, bind, Except.bind, Except.map]
    have hget' : (w.setEntry a { pe with locked := true }).deref a =
        .ok { pe with locked := true } := World.deref_ok.mpr (World.setEntry_heap_self w a _)
    have hsame : gcRemoves cx env w.fs { pe with locked := true } = gcRemoves cx env w.fs pe := rfl
    by_cases hg : gcRemoves cx env w.fs pe = true
    · have hdec : step cx ⟨w.setEntry a { pe with locked := true }, clients, .locked path a⟩
          ⟨.collector .decide, env⟩ =
          .ok ⟨w.setEntry a { pe with locked := true }, clients, .condemned path a⟩ := by
        simp [step, sweepStep, ageDecision, hget', hsame, hg, bind, Except.bind, Except.map]
      have hrem : gcRemove cx env (w.setEntry a { pe with locked := true }) path =
          gcRemove cx env w path := by
        simp [gcRemove, World.hashRemove, World.pentryFree, World.setEntry, hh, hpe]
      have hgone : step cx ⟨w.setEntry a { pe with locked := true }, clients, .condemned path a⟩
          ⟨.collector .remove, env⟩ = .ok ⟨gcRemove cx env w path, clients, .idle⟩ := by
        simp [step, sweepStep, hrem, Except.map]
      have hcb : gcCallback cx env w path = gcRemove cx env w path := by
        simp [gcCallback, World.entry, hh, hpe, h0, hl, hg]
      simp only [Transition.exec, hcount h0, htry, hdec, hgone, hcb]
    · have hdec : step cx ⟨w.setEntry a { pe with locked := true }, clients, .locked path a⟩
          ⟨.collector .decide, env⟩ = .ok ⟨w, clients, .idle⟩ := by
        have hback : w.setEntry a (pentryUnlock { pe with locked := true }) = w := by
          have hpe' : pentryUnlock { pe with locked := true } = pe := by
            have hlf : pe.locked = false := by simpa using hl
            rw [pentryUnlock]
            cases pe
            cases hlf
            rfl
          rw [hpe', World.setEntry, ← hpe, Function.update_eq_self]
        simp [step, sweepStep, ageDecision, hget', hsame, hg, bind, Except.bind, Except.map,
          setEntry_setEntry, hback]
      have hcb : gcCallback cx env w path = w := by
        simp [gcCallback, World.entry, hh, hpe, h0, hl, hg]
      simp only [Transition.exec, hcount h0, htry, hdec, hcalm _ (.inr (.inr rfl)), hcb]

end DropletFs.Threads
