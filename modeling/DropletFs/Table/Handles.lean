import Mathlib.Data.List.Perm.Basic
import DropletFs.Table.Calls

/-! The handles given out and the entries behind them. -/

namespace DropletFs

open CText LocalFs

/-- The handles on one entry. -/
def Daemon.handlesOn (d : Daemon) (a : Addr) : Nat := d.handles.countP (·.addr = a)

/-- Every outstanding handle refers to an entry that has not been freed, has a descriptor, and
is counted by the semaphore. -/
structure Daemon.Live (d : Daemon) : Prop where
  entry : ∀ h ∈ d.handles, ∃ pe, d.world.heap h.addr = some pe ∧ pe.path = h.path ∧ pe.fd.isSome
  counted : ∀ a pe, d.world.heap a = some pe → d.handlesOn a ≤ pe.refcount

theorem Daemon.handlesOn_pos {d : Daemon} {h : Handle} (hh : h ∈ d.handles) :
    0 < d.handlesOn h.addr := List.countP_pos_iff.mpr ⟨h, hh, by simp⟩

theorem Daemon.handlesOn_eq_zero {d : Daemon} {a : Addr} :
    d.handlesOn a = 0 ↔ ∀ h ∈ d.handles, h.addr ≠ a := by
  simp [handlesOn, List.countP_eq_zero]

theorem Daemon.handlesOn_append (w : World) (hs : List Handle) (h : Handle) (a : Addr) :
    Daemon.handlesOn ⟨w, hs ++ [h]⟩ a =
      Daemon.handlesOn ⟨w, hs⟩ a + if h.addr = a then 1 else 0 := by
  simp [handlesOn, List.countP_append, List.countP_singleton]

theorem Daemon.handlesOn_eraseIdx {hs : List Handle} {i : Nat} {h : Handle} (w w' : World)
    (hi : hs[i]? = some h) (a : Addr) :
    Daemon.handlesOn ⟨w, hs⟩ a =
      Daemon.handlesOn ⟨w', hs.eraseIdx i⟩ a + if h.addr = a then 1 else 0 := by
  obtain ⟨hlt, hget⟩ := List.getElem?_eq_some_iff.mp hi
  have hp := (List.getElem_cons_eraseIdx_perm hlt).countP_eq (fun g : Handle => decide (g.addr = a))
  rw [hget, List.countP_cons] at hp
  simp only [decide_eq_true_eq] at hp
  exact hp.symm

namespace Daemon.Live

variable {d : Daemon} (hl : d.Live)
include hl

/-- A change that keeps the entries that have a handle keeps the handles live. -/
theorem keeps {w : World} (hk : ∀ a pe, d.world.heap a = some pe → 0 < d.handlesOn a →
      ∃ pe', w.heap a = some pe' ∧ pe'.path = pe.path ∧ (pe.fd.isSome → pe'.fd.isSome) ∧
        pe.refcount ≤ pe'.refcount) : Live ⟨w, d.handles⟩ := by
  refine ⟨fun h hh => ?_, fun a pe' ha => ?_⟩
  · obtain ⟨pe, hpe, hp, hf⟩ := hl.entry h hh
    obtain ⟨pe', hpe', hp', hf', _⟩ := hk h.addr pe hpe (handlesOn_pos hh)
    exact ⟨pe', hpe', hp'.trans hp, hf' hf⟩
  · change d.handlesOn a ≤ pe'.refcount
    rcases Nat.eq_zero_or_pos (d.handlesOn a) with h0 | h0
    · omega
    · obtain ⟨h, hh, hha⟩ := List.countP_pos_iff.mp h0
      simp only [decide_eq_true_eq] at hha
      subst hha
      obtain ⟨pe, hpe, _, _⟩ := hl.entry h hh
      obtain ⟨qe, hqe, _, _, hr⟩ := hk h.addr pe hpe h0
      rw [ha, Option.some.injEq] at hqe
      subst hqe
      exact (hl.counted h.addr pe hpe).trans hr

theorem of_keeps {w : World} (hk : d.world.Keeps w) : Live ⟨w, d.handles⟩ :=
  hl.keeps fun a pe ha _ => hk a pe ha

/-- A handle given out is live, as are the others. -/
theorem grant {w : World} {path : Path} {a : Addr} {flags : OpenFlags} (hk : d.world.Keeps w)
    (hg : Granted d.world path (some a) w) :
    Live ⟨w, d.handles ++ [⟨a, path, flags⟩]⟩ := by
  have hold := hl.of_keeps hk
  obtain ⟨b, pe, hb, hpe, hp, hf, h1, hr⟩ := hg.entry
  obtain rfl : a = b := by simpa using hb
  refine ⟨fun h hh => ?_, fun c qe hc => ?_⟩
  · rcases List.mem_append.mp hh with hh | hh
    · exact hold.entry h hh
    · rw [List.mem_singleton.mp hh]
      exact ⟨pe, hpe, hp, hf⟩
  · rw [handlesOn_append]
    split_ifs with he
    · change a = c at he
      subst he
      have hqe : qe = pe := by
        have hc' : w.heap a = some qe := hc
        rw [hpe, Option.some.injEq] at hc'
        exact hc'.symm
      subst hqe
      cases ho : d.world.heap a with
      | none =>
        have h0 : Daemon.handlesOn ⟨w, d.handles⟩ a = 0 := by
          rw [handlesOn_eq_zero]
          rintro h hh rfl
          obtain ⟨re, hre, _⟩ := hl.entry h hh
          rw [ho] at hre
          cases hre
        omega
      | some old =>
        have := hl.counted a old ho
        have := hr old ho
        change d.handlesOn a + 1 ≤ qe.refcount
        omega
    · exact hold.counted c qe hc

/-- A release takes its own handle back and leaves the others live. -/
theorem release {w : World} {i : Nat} {h : Handle} (hi : d.handles[i]? = some h)
    (hk : ∀ a pe, d.world.heap a = some pe → ∃ pe', w.heap a = some pe' ∧ pe'.path = pe.path ∧
      (pe.fd.isSome → pe'.fd.isSome) ∧ pe.refcount ≤ pe'.refcount + if a = h.addr then 1 else 0) :
    Live ⟨w, d.handles.eraseIdx i⟩ := by
  refine ⟨fun g hg => ?_, fun a pe' ha => ?_⟩
  · obtain ⟨pe, hpe, hp, hf⟩ := hl.entry g (List.mem_of_mem_eraseIdx hg)
    obtain ⟨pe', hpe', hp', hf', _⟩ := hk g.addr pe hpe
    exact ⟨pe', hpe', hp'.trans hp, hf' hf⟩
  · have hcount := handlesOn_eraseIdx d.world w hi a
    change d.handlesOn a = _ at hcount
    rcases Nat.eq_zero_or_pos (d.handlesOn a) with h0 | h0
    · omega
    · obtain ⟨g, hg, hga⟩ := List.countP_pos_iff.mp h0
      simp only [decide_eq_true_eq] at hga
      subst hga
      obtain ⟨pe, hpe, _, _⟩ := hl.entry g hg
      obtain ⟨qe, hqe, _, _, hr⟩ := hk g.addr pe hpe
      have ha' : w.heap g.addr = some pe' := ha
      rw [hqe, Option.some.injEq] at ha'
      subst ha'
      have := hl.counted g.addr pe hpe
      by_cases he : h.addr = g.addr
      · rw [if_pos he] at hcount
        rw [if_pos he.symm] at hr
        omega
      · rw [if_neg he] at hcount
        rw [if_neg (Ne.symm he)] at hr
        omega

/-- The entry of a path on which no handle is outstanding may go. -/
theorem hashRemove {path : Path}
    (hno : ∀ h ∈ d.handles, d.world.hash path ≠ some h.addr) :
    Live ⟨d.world.hashRemove path, d.handles⟩ := by
  refine hl.keeps fun a pe ha hpos => ⟨pe, ?_, rfl, id, le_rfl⟩
  obtain ⟨h, hh, hha⟩ := List.countP_pos_iff.mp hpos
  simp only [decide_eq_true_eq] at hha
  rw [World.hashRemove_heap, if_neg (hha ▸ hno h hh), ha]

end Daemon.Live

theorem dfsUnlink_live {cx : Ctx} {env : Env} {d : Daemon} {path : Path} {ret : Int} {w : World}
    (hl : d.Live) (h : dfsUnlink cx env d.world (.ext path) = .ok (ret, w))
    (hno : (dplUnlink env d.world.store path).1 = .success →
      ∀ h ∈ d.handles, d.world.hash path ≠ some h.addr) : Daemon.Live ⟨w, d.handles⟩ := by
  rcases dfsUnlink_cases h with ⟨_, _, rfl⟩ | ⟨store, u, hst, _, hu, hcase⟩
  · exact hl.of_keeps (.of_heap rfl)
  · have hst' : dplUnlink env d.world.store path = (.success, store) := hst
    have hku : d.world.Keeps u := by
      rw [hu]
      exact .of_heap rfl
    have hlu : Daemon.Live ⟨u, d.handles⟩ := hl.of_keeps hku
    rcases hcase with ⟨_, _, rfl⟩ | ⟨_, he⟩
    · exact hlu
    · obtain ⟨_, freed, v, _, hv, ht⟩ := unlinkEntry_cases he
      have hno' : ∀ h ∈ d.handles, u.hash path ≠ some h.addr := by
        rw [hu]
        exact hno (by rw [hst'])
      have hlr := Daemon.Live.hashRemove (d := ⟨u, d.handles⟩) hlu hno'
      have hlv : Daemon.Live ⟨v, d.handles⟩ := by
        rw [hv]
        exact hlr.of_keeps (.of_heap rfl)
      rcases ht with ⟨_, rfl⟩ | ⟨parent, _, rfl⟩
      · exact hlv
      · exact hlv.of_keeps (onEntry_removeDirent_keeps _ _ _)

theorem gcCallback_live (cx : Ctx) (env : Env) {d : Daemon} (path : Path) (hl : d.Live) :
    Daemon.Live ⟨gcCallback cx env d.world path, d.handles⟩ := by
  rcases gcCallback_cases cx env d.world path with h | ⟨pe, he, h0, _, _, h⟩
  · rw [h]
    exact hl
  · rw [h]
    obtain ⟨a, ha, hpe⟩ := Option.bind_eq_some_iff.mp he
    refine Daemon.Live.hashRemove
      (d := ⟨{ d.world with fs := d.world.fs.tryUnlink env .unlinkGc (slashName cx path) },
        d.handles⟩)
      (hl.of_keeps (.of_heap rfl)) ?_
    rintro g hg hga
    -- a handle on the entry would be counted
    have hga' : d.world.hash path = some g.addr := hga
    rw [ha, Option.some.injEq] at hga'
    have hle := hl.counted a pe hpe
    have hpos : 0 < d.handlesOn g.addr := Daemon.handlesOn_pos hg
    rw [← hga'] at hpos
    omega

/-- What every callback but a rename does to the handles: they stay live as long as a removal
finds none on its path. -/
theorem Calls.live {cx : Ctx} {env : Env} {d d' : Daemon} {op : Op} {ret : Int}
    (hi : d.world.Inv) (hl : d.Live)
    (hun : ∀ path, op = .unlink path → (dplUnlink env d.world.store path).1 = .success →
      ∀ h ∈ d.handles, d.world.hash path ≠ some h.addr)
    (hre : ∀ old new w, op = .rename old new → dfsRename cx env d.world old new = .ok (ret, w) →
      Daemon.Live ⟨w, d.handles⟩)
    (h : Calls cx env d op ret d') : d'.Live := by
  cases h with
  | getattr h => exact hl.of_keeps (dfsGetattr_inv hi h).2
  | opened h =>
    obtain ⟨_, hk, hg⟩ := dfsOpen_inv hi h
    rcases hg with hg | hg
    · exact hl.grant hk hg.2
    · cases hg
  | openFailed _ h => exact hl.of_keeps (dfsOpen_inv hi h).2.1
  | created h =>
    obtain ⟨_, hk, hg⟩ := dfsCreate_inv hi h
    rcases hg with hg | hg
    · exact hl.grant hk hg
    · exact (hg rfl).elim
  | createFailed _ h => exact hl.of_keeps (dfsCreate_inv hi h).2.1
  | read => exact hl
  | written _ _ h => exact hl.of_keeps (dfsWrite_inv hi h).2
  | notWritten _ => exact hl
  | released hidx h => exact hl.release hidx (dfsRelease_inv hi h).2
  | notReleased => exact hl
  | unlink h => exact dfsUnlink_live hl h (hun _ rfl)
  | rename h => exact hre _ _ _ rfl h
  | rmdir h => exact hl.of_keeps (dfsRmdir_inv hi h).2
  | mkdir => exact hl.of_keeps (dfsMkdir_inv hi).2
  | mknod => exact hl.of_keeps (dfsMknod_inv hi).2
  | symlink h => exact hl.of_keeps (dfsSymlink_inv hi h).2
  | chmod h => exact hl.of_keeps (dfsChmod_inv hi h).2
  | chown h => exact hl.of_keeps (dfsChown_inv hi h).2
  | gc => exact gcCallback_live cx env _ hl

theorem Daemon.init_live (store : Store) (fs : LocalFs) (ring : Ring) :
    (Daemon.init store fs ring).Live :=
  ⟨fun h hh => (by cases hh), fun a pe ha => (by cases ha)⟩

end DropletFs
