import DropletFs.Table.Callbacks

/-! The first stat of a path: when it gets to its end, and what it makes of the headers. -/

namespace DropletFs

open CText LocalFs

/-- The calls of `getattr_unset` go through, and the path has an object. -/
structure Stated (env : Env) (st : Store) (path : Path) (o : Obj) : Prop where
  namei : env.remote (.namei path) = .success
  getattrRaw : env.remote (.getattrRaw path) = .success
  object : st.lookup path = some o
  getattrDict : env.lib .getattrDict = true
  filterPrefix : env.lib .filterPrefix = true

/-- `getattr_unset` returns before it reads the headers. -/
def StatStops (env : Env) (st : Store) (path : Path) : Prop :=
  (dplNamei env st path).1 ≠ .success ∨
    (dplGetattrRaw env st path).1 ≠ .success ∧ (dplGetattrRaw env st path).1 ≠ .eisdir ∨
    env.lib .getattrDict = false ∨ env.lib .filterPrefix = false

section

variable {env : Env} {store : Store} {path : Path}

/-- The type `dpl_namei` finds. -/
theorem Stated.type {o : Obj} (h : Stated env store path o) (hr : path ≠ rootPath) :
    dplNamei env store path = (.success, some o.ftype) := by
  simp [dplNamei, h.namei, Store.ftype?, hr, h.object]

theorem Stated.headers {o : Obj} (h : Stated env store path o) :
    ∃ rc, dplGetattrRaw env store path = (rc, some o.headers) ∧
      ¬(rc ≠ .success ∧ rc ≠ .eisdir) := by
  refine ⟨if o.ftype = .dir then .eisdir else .success, ?_, ?_⟩
  · simp [dplGetattrRaw, h.getattrRaw, h.object]
  · split_ifs <;> simp

theorem Stated.not_stops {o : Obj} (h : Stated env store path o) (hr : path ≠ rootPath) :
    ¬StatStops env store path := by
  obtain ⟨rc, hraw, hrc⟩ := h.headers
  intro hstop
  rcases hstop with hn | hg | hd | hf
  · exact hn (by rw [h.type hr])
  · rw [hraw] at hg
    exact hrc hg
  · rw [h.getattrDict] at hd
    cases hd
  · rw [h.filterPrefix] at hf
    cases hf

/-- `getattr_unset` once it has the headers. -/
theorem getattrUnset_stated {o : Obj} (h : Stated env store path o) (hr : path ≠ rootPath)
    (pe : Entry) (st : Stat) :
    getattrUnset env store pe path st =
      statOfHeaders env { setDefaultStat env o.ftype with nlink := 0 } o.headers >>= fun r =>
        pentryMdLock pe >>= fun pe =>
          .ok (0, r.1, pentryMdUnlock { setFiletypeFromStat (pentrySetUsermd env pe r.2).2 r.1
            with ondisk := .remote }, true) := by
  obtain ⟨rc, hraw, hrc⟩ := h.headers
  unfold getattrUnset
  rw [h.type hr]
  dsimp only
  rw [hraw]
  dsimp only
  rw [if_neg hrc, if_neg (by simp [h.getattrDict, h.filterPrefix])]
  rfl

theorem getattrUnset_stops (h : StatStops env store path) (pe : Entry) (st : Stat) :
    ∃ ret st', ret ≠ 0 ∧ getattrUnset env store pe path st = .ok (ret, st', pe, false) := by
  unfold getattrUnset
  unfold StatStops at h
  cases hn : dplNamei env store path with
  | mk rc type =>
    cases hg : dplGetattrRaw env store path with
    | mk rc' headers =>
      rw [hn, hg] at h
      by_cases hrc : rc = .success
      · subst hrc
        dsimp only
        by_cases h1 : rc' ≠ .success ∧ rc' ≠ .eisdir
        · rw [if_pos h1]
          exact ⟨-1, _, by decide, rfl⟩
        · rw [if_neg h1, if_pos ((h.resolve_left fun hs => hs rfl).resolve_left h1)]
          exact ⟨-1, _, by decide, rfl⟩
      · have hcode : rc.code ≠ 0 := fun hc => hrc (Status.code_eq_zero.mp hc)
        cases rc with
        | success => exact (hrc rfl).elim
        | _ => exact ⟨_, _, hcode, rfl⟩

/-- Past the checks there are headers, or a null pointer in their place. -/
theorem getattrUnset_not_stops (hr : path ≠ rootPath) (h : ¬StatStops env store path) :
    (∃ o, Stated env store path o) ∨
      ∀ pe st, getattrUnset env store pe path st = .error .nullDeref := by
  simp only [StatStops, not_or, not_and, not_not, Bool.not_eq_false] at h
  obtain ⟨hn, hg, hd, hf⟩ := h
  have hnamei : env.remote (.namei path) = .success := by
    unfold dplNamei at hn
    split at hn
    · assumption
    · exact hn
  have hfound : ∃ o, store.lookup path = some o := by
    unfold dplNamei at hn
    rw [hnamei] at hn
    cases ho : store.lookup path with
    | some o => exact ⟨o, rfl⟩
    | none => simp [Store.ftype?, hr, ho] at hn
  obtain ⟨o, ho⟩ := hfound
  by_cases hraw : env.remote (.getattrRaw path) = .success
  · exact .inl ⟨o, hnamei, hraw, ho, hd, hf⟩
  · have htype : dplNamei env store path = (.success, some o.ftype) := by
      simp [dplNamei, hnamei, Store.ftype?, hr, ho]
    have heisdir : dplGetattrRaw env store path = (.eisdir, none) := by
      unfold dplGetattrRaw at hg ⊢
      split at hg
      · exact (hraw ‹_›).elim
      · rename_i hne
        exact Prod.ext (hg hne) rfl
    right
    intro pe st
    unfold getattrUnset
    rw [htype]
    dsimp only
    rw [heisdir]
    dsimp only
    rw [if_neg (by simp), if_neg (by simp [hd, hf])]

/-- A first stat that returns 0, or adds its path to a list, had the object's headers. -/
theorem getattrUnset_done {pe pe' : Entry} {st st' : Stat} {ret : Int} {fill : Bool}
    (hr : path ≠ rootPath) (hd : ret = 0 ∨ fill = true)
    (h : getattrUnset env store pe path st = .ok (ret, st', pe', fill)) :
    ∃ o, Stated env store path o := by
  by_cases hs : StatStops env store path
  · obtain ⟨ret', st₂, hret, hu⟩ := getattrUnset_stops hs pe st
    rw [hu] at h
    simp only [Except.ok.injEq, Prod.mk.injEq] at h
    obtain ⟨rfl, _, _, rfl⟩ := h
    rcases hd with hd | hd
    · exact (hret hd).elim
    · cases hd
  · apply (getattrUnset_not_stops hr hs).resolve_right
    intro hf
    rw [hf] at h
    cases h

/-- And what it keeps is made of them. -/
theorem getattrUnset_headers {pe pe' : Entry} {st st' : Stat} {fill : Bool} (hr : path ≠ rootPath)
    (h : getattrUnset env store pe path st = .ok (0, st', pe', fill)) :
    ∃ o dict, store.lookup path = some o ∧
      statOfHeaders env { setDefaultStat env o.ftype with nlink := 0 } o.headers =
        .ok (st', dict) ∧ pe'.usermd = keptUsermd env dict := by
  obtain ⟨o, hs⟩ := getattrUnset_done hr (.inl rfl) h
  rw [getattrUnset_stated hs hr] at h
  obtain ⟨⟨st₂, dict⟩, hh, h⟩ := Except.bind_ok.mp h
  obtain ⟨pl, _, h⟩ := Except.bind_ok.mp h
  rw [pentrySetUsermd_eq, setFiletypeFromStat_eq] at h
  simp only [Except.ok.injEq, Prod.mk.injEq, true_and] at h
  obtain ⟨rfl, rfl, _⟩ := h
  exact ⟨o, dict, hs.object, hh, rfl⟩

theorem getattrUnset_returns {o : Obj} {pe pe' : Entry} {st st' : Stat} {ret : Int} {fill : Bool}
    (hs : Stated env store path o) (hr : path ≠ rootPath)
    (h : getattrUnset env store pe path st = .ok (ret, st', pe', fill)) : ret = 0 := by
  rw [getattrUnset_stated hs hr] at h
  obtain ⟨r, _, h⟩ := Except.bind_ok.mp h
  obtain ⟨pl, _, h⟩ := Except.bind_ok.mp h
  simp only [Except.ok.injEq, Prod.mk.injEq] at h
  exact h.1.symm

theorem getattrUnset_fills {o : Obj} {pe pe' : Entry} {st st' : Stat} {ret : Int} {fill : Bool}
    (hs : Stated env store path o) (hr : path ≠ rootPath)
    (h : getattrUnset env store pe path st = .ok (ret, st', pe', fill)) : fill = true := by
  rw [getattrUnset_stated hs hr] at h
  obtain ⟨r, _, h⟩ := Except.bind_ok.mp h
  obtain ⟨pl, _, h⟩ := Except.bind_ok.mp h
  simp only [Except.ok.injEq, Prod.mk.injEq] at h
  exact h.2.2.2.symm

end

end DropletFs
