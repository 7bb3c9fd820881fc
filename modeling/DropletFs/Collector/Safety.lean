import DropletFs.Model.Sample
import DropletFs.Model.Threads
import DropletFs.Table.Calls

/-! The collector among the clients. The semaphore counts a client from its `sem_post` to its
`sem_wait` only, so the collector spares an entry in use as long as it reads no count while
a client is outside these two steps. -/

namespace DropletFs.Threads

open CText LocalFs

/-- The table still has every entry a client is at work on. -/
def State.Safe (s : State) : Prop :=
  ∀ ph ∈ s.clients, ∀ h ∈ ph.handle?,
    s.world.hash h.path = some h.addr ∧ (s.world.heap h.addr).isSome

instance (s : State) : Decidable s.Safe :=
  inferInstanceAs (Decidable (∀ ph ∈ s.clients, ∀ h ∈ ph.handle?, _))

/-- The collector reads no zero while a client is between the lookup and the `sem_post`, or
between the `sem_wait` and the unlock, on the same path; and no client looks up the path the
collector is at. -/
def Undisturbed (s : State) (m : Move) : Prop :=
  match m.act with
  | .collector (.count path) => (s.world.entry path).map (·.refcount) = some 0 →
      ∀ ph ∈ s.clients, ∀ h ∈ ph.window?, h.path ≠ path
  | .client _ (.lookup path _) => ∀ c ∈ s.collector.cell?, c.1 ≠ path
  | _ => True

/-- The semaphore of an entry counts at least the clients between `sem_post` and `sem_wait`,
and no client is at work on the entry the collector is at. -/
structure State.Inv (s : State) : Prop where
  table : s.world.Inv
  safe : s.Safe
  counted : ∀ a pe, s.world.heap a = some pe → s.clients.countP (Phase.counts a) ≤ pe.refcount
  alone : ∀ c ∈ s.collector.cell?, s.world.hash c.1 = some c.2 ∧
    ∀ ph ∈ s.clients, ∀ h ∈ ph.handle?, h.addr ≠ c.2

/-- What a client's step does to the table: no entry goes, and the count of an entry goes up
and down with the client's part in it. -/
structure Moved (w : World) (ph : Phase) (w' : World) (ph' : Phase) : Prop where
  inv : w'.Inv
  stays : ∀ p a, w.hash p = some a → w'.hash p = some a
  held : ∀ h ∈ ph'.handle?, w'.hash h.path = some h.addr
  same : ∀ h ∈ ph'.handle?, ph = .idle ∨ h ∈ ph.handle?
  count : ∀ a pe', w'.heap a = some pe' →
    w.heap a = none ∧ ph'.counts a = false ∨
    ∃ pe, w.heap a = some pe ∧
      pe.refcount + (ph'.counts a).toNat ≤ pe'.refcount + (ph.counts a).toNat

section ClientSteps

variable {cx : Ctx} {env : Env} {w w' : World} {ph' : Phase} {h : Handle}

/-- A step on the entry of a handle. -/
theorem Moved.of_entry {ph : Phase} {pe pe' : Entry} {fs : LocalFs} {st : Store} (hi : w.Inv)
    (hh : w.hash h.path = some h.addr) (ha : w.heap h.addr = some pe)
    (hu : Update w.fs pe fs pe') (hc : pe'.ondisk = .loc ↔ pe'.fd.isSome)
    (hph : ph.handle? = some h) (hp : ∀ g ∈ ph'.handle?, g = h)
    (hn : ∀ a, a ≠ h.addr → ph'.counts a = false)
    (hr : pe.refcount + (ph'.counts h.addr).toNat ≤
      pe'.refcount + (ph.counts h.addr).toNat) :
    Moved w ph { w.setEntry h.addr pe' with fs := fs, store := st } ph' := by
  refine ⟨(hi.update ha hu hc).congr rfl rfl rfl rfl, fun _ _ e => e, ?_, ?_, ?_⟩
  · intro g hg
    rw [hp g hg]
    exact hh
  · intro g hg
    rw [hp g hg, hph]
    exact .inr rfl
  · intro a qe hq
    by_cases he : a = h.addr
    · subst he
      have hq' : (w.setEntry h.addr pe').heap h.addr = some qe := hq
      rw [World.setEntry_heap_self, Option.some.injEq] at hq'
      exact .inr ⟨pe, ha, hq' ▸ hr⟩
    · have hq' : (w.setEntry h.addr pe').heap a = some qe := hq
      rw [World.setEntry_heap_of_ne he] at hq'
      refine .inr ⟨qe, hq', ?_⟩
      rw [hn a he]
      simp

variable (env) in
theorem lookup_moved (hi : w.Inv) (path : Path) (flags : OpenFlags) :
    Moved w .idle (lookup env w path flags).1 (lookup env w path flags).2 := by
  unfold lookup
  cases hl : lookupOrPopulate env w path .reg with
  | none =>
    exact ⟨hi, fun _ _ e => e, fun h hh => (by cases hh), fun h hh => (by cases hh),
      fun a pe ha => .inr ⟨pe, ha, by simp [Phase.counts]⟩⟩
  | some au =>
    obtain ⟨a, u⟩ := au
    have hs := lookupOrPopulate_spec hi hl
    refine ⟨hs.inv, ?_, ?_, fun _ _ => .inl rfl, ?_⟩
    · intro p b hb
      rcases hs.cases with hc | ⟨hn, _, hc⟩
      · rw [hc]
        exact hb
      · have hne : p ≠ path := by
          rintro rfl
          rw [hn] at hb
          cases hb
        simpa [hc, World.insertEntry, hne] using hb
    · rintro h ⟨⟩
      exact hs.hash
    · intro b pe hb
      rcases hs.cases with hc | ⟨_, _, hc⟩
      · exact .inr ⟨pe, hc ▸ hb, by simp [Phase.counts]⟩
      · by_cases he : b = w.brk
        · exact .inl ⟨he ▸ hi.brk_free, rfl⟩
        · refine .inr ⟨pe, ?_, by simp [Phase.counts]⟩
          simpa [hc, World.insertEntry, he] using hb

theorem post_moved (hi : w.Inv) (hh : w.hash h.path = some h.addr)
    (hs : post w h = .ok (w', ph')) : Moved w (.looked h) w' ph' := by
  obtain ⟨pe, hpe, hs⟩ := Except.bind_ok.mp hs
  have hpe := World.deref_ok.mp hpe
  simp only [Except.ok.injEq, Prod.mk.injEq] at hs
  obtain ⟨rfl, rfl⟩ := hs
  refine Moved.of_entry hi hh hpe ((Update.refl hi.wf pe).entry rfl rfl)
    (hi.cached h.addr pe hpe) rfl ?_ ?_ ?_
  · rintro g ⟨⟩
    rfl
  · intro a ha
    simp [Phase.counts, Ne.symm ha]
  · simp [Phase.counts, pentryIncRefcount]

theorem enter_moved (hi : w.Inv) (hh : w.hash h.path = some h.addr)
    (hs : enter cx env w h = .ok (w', ph')) : Moved w (.posted h) w' ph' := by
  obtain ⟨pe, hpe, hs⟩ := Except.bind_ok.mp hs
  have hpe := World.deref_ok.mp hpe
  obtain ⟨⟨ret, qe, fs⟩, ho, hs⟩ := Except.bind_ok.mp hs
  have hsp := openMode_spec hi.wf ho
  have hcount : ∀ a, a ≠ h.addr → (Phase.opened h).counts a = false := by
    intro a ha
    simp [Phase.counts, Ne.symm ha]
  dsimp only at hs
  split_ifs at hs with hr
  · simp only [Except.ok.injEq, Prod.mk.injEq] at hs
    obtain ⟨rfl, rfl⟩ := hs
    have hfd : qe.fd = pe.fd := by
      rcases hsp.result with ⟨h0, _⟩ | ⟨_, hfd⟩
      · rw [h0] at hr
        cases hr
      · exact hfd
    refine Moved.of_entry hi hh hpe hsp.update ?_ rfl ?_ (fun _ _ => rfl) ?_
    · rw [hsp.ondisk, hfd]
      exact hi.cached h.addr pe hpe
    · rintro g ⟨⟩
    · simp [Phase.counts, hsp.refcount]
  · simp only [Except.ok.injEq, Prod.mk.injEq] at hs
    obtain ⟨rfl, rfl⟩ := hs
    have hfd : qe.fd.isSome := by
      rcases hsp.result with ⟨_, hfd⟩ | ⟨hm, _⟩
      · exact hfd
      · exact (hr hm).elim
    refine Moved.of_entry hi hh hpe (hsp.update.entry rfl rfl) (by simp [hfd]) rfl ?_ hcount ?_
    · rintro g ⟨⟩
      rfl
    · simp [Phase.counts, hsp.refcount]

theorem wait_moved (hi : w.Inv) (hh : w.hash h.path = some h.addr)
    (hs : wait env w h = .ok (w', ph')) : Moved w (.opened h) w' ph' := by
  obtain ⟨pe, hpe, hs⟩ := Except.bind_ok.mp hs
  have hpe := World.deref_ok.mp hpe
  have hsame : w.setEntry h.addr pe = w := by
    unfold World.setEntry
    rw [← hpe, Function.update_eq_self]
  have hgiveUp : ∀ fs, Update w.fs pe fs pe → Moved w (.opened h) { w with fs := fs }
    (.uploaded h) := by
    intro fs hu
    have hm : Moved w (.opened h) { w.setEntry h.addr pe with fs := fs, store := w.store }
        (.uploaded h) := Moved.of_entry hi hh hpe hu
      (hi.cached h.addr pe hpe) rfl (by rintro g ⟨⟩; rfl) (fun _ _ => rfl) (by simp [Phase.counts])
    rw [hsame] at hm
    exact hm
  have hwaited : ∀ ph', ph'.handle? = none ∨ ph'.handle? = some h →
      (∀ a, ph'.counts a = false) → 0 < pe.refcount →
      Moved w (.opened h) (w.setEntry h.addr { pe with refcount := pe.refcount - 1 }) ph' := by
    intro ph' hph hct hpos
    refine Moved.of_entry hi hh hpe ((Update.refl hi.wf pe).entry rfl rfl)
      (hi.cached h.addr pe hpe) rfl ?_ (fun a _ => hct a) ?_
    · intro g hg
      rcases hph with e | e <;> rw [e] at hg <;> cases hg
      rfl
    · rw [hct]
      simp only [Phase.counts, decide_true, Bool.toNat_true, Bool.toNat_false]
      omega
  cases hfd : pe.fd with
  | none =>
    simp only [hfd, Except.ok.injEq, Prod.mk.injEq] at hs
    obtain ⟨rfl, rfl⟩ := hs
    exact hgiveUp w.fs (Update.refl hi.wf pe)
  | some fd =>
    rw [hfd] at hs
    dsimp only at hs
    split at hs
    · obtain ⟨qe, hq, hs⟩ := Except.bind_ok.mp hs
      obtain ⟨hpos, rfl⟩ := pentryDecRefcount_ok hq
      dsimp only at hs
      split_ifs at hs <;>
      · simp only [Except.ok.injEq, Prod.mk.injEq] at hs
        obtain ⟨rfl, rfl⟩ := hs
        exact hwaited _ (by simp [Phase.handle?]) (fun _ => rfl) hpos
    · simp only [Except.ok.injEq, Prod.mk.injEq] at hs
      obtain ⟨rfl, rfl⟩ := hs
      exact hgiveUp _ ⟨rfl, hi.wf.setOffset fd 0, fun k f hf hcf => setOffset_lookup hf hcf,
        .inl rfl⟩

theorem upload_moved {stat : Stat} (hi : w.Inv) (hh : w.hash h.path = some h.addr)
    (hs : upload cx env w h stat = .ok (w', ph')) : Moved w (.waited h stat) w' ph' := by
  obtain ⟨pe, hpe, hs⟩ := Except.bind_ok.mp hs
  have hpe := World.deref_ok.mp hpe
  have hsame : w.setEntry h.addr pe = w := by
    unfold World.setEntry
    rw [← hpe, Function.update_eq_self]
  have hkey : ∀ fs st, Update w.fs pe fs pe →
      Moved w (.waited h stat) { w with fs := fs, store := st } (.uploaded h) := by
    intro fs st hu
    have hm : Moved w (.waited h stat) { w.setEntry h.addr pe with fs := fs, store := st }
        (.uploaded h) := Moved.of_entry hi hh hpe hu
      (hi.cached h.addr pe hpe) rfl (by rintro g ⟨⟩; rfl) (fun _ _ => rfl) (by simp [Phase.counts])
    rw [hsame] at hm
    exact hm
  cases hfd : pe.fd with
  | none =>
    simp only [hfd, Except.ok.injEq, Prod.mk.injEq] at hs
    obtain ⟨rfl, rfl⟩ := hs
    exact hkey w.fs w.store (Update.refl hi.wf pe)
  | some fd =>
    simp only [hfd, Except.ok.injEq, Prod.mk.injEq] at hs
    obtain ⟨rfl, rfl⟩ := hs
    obtain ⟨_, hw, hfds⟩ := uploadFiles_frame cx env h.path hi.wf fd stat
    rw [releaseUpload_reset]
    refine hkey _ _ ⟨rfl, hw.setOffset fd 0, ?_, .inl rfl⟩
    intro k f hf hcf
    rw [← hfds] at hf
    exact setOffset_lookup hf hcf

theorem unlock_moved (hi : w.Inv) (hh : w.hash h.path = some h.addr)
    (hs : unlock w h = .ok (w', ph')) : Moved w (.uploaded h) w' ph' := by
  obtain ⟨pe, hpe, hs⟩ := Except.bind_ok.mp hs
  have hpe := World.deref_ok.mp hpe
  simp only [Except.ok.injEq, Prod.mk.injEq] at hs
  obtain ⟨rfl, rfl⟩ := hs
  refine Moved.of_entry hi hh hpe ((Update.refl hi.wf pe).entry rfl rfl)
    (hi.cached h.addr pe hpe) rfl ?_ (fun _ _ => rfl) ?_
  · rintro g ⟨⟩
  · simp [Phase.counts, releaseExc, pentryUnlock]

theorem clientStep_moved {c : ClientStep} {ph : Phase} (hi : w.Inv)
    (hh : ∀ h ∈ ph.handle?, w.hash h.path = some h.addr)
    (hs : clientStep cx env w c ph = .ok (w', ph')) : Moved w ph w' ph' := by
  have hstay : Moved w ph w ph :=
    ⟨hi, fun _ _ e => e, hh, fun _ e => .inr e, fun a pe ha => .inr ⟨pe, ha, le_rfl⟩⟩
  unfold clientStep at hs
  split at hs
  · rename_i path flags
    simp only [Except.ok.injEq] at hs
    have hm := lookup_moved env hi path flags
    rw [hs] at hm
    exact hm
  · exact post_moved hi (hh _ rfl) hs
  · exact enter_moved hi (hh _ rfl) hs
  · exact wait_moved hi (hh _ rfl) hs
  · exact upload_moved hi (hh _ rfl) hs
  · exact unlock_moved hi (hh _ rfl) hs
  · simp only [Except.ok.injEq, Prod.mk.injEq] at hs
    obtain ⟨rfl, rfl⟩ := hs
    exact hstay

/-- Only a lookup gives a client an entry, and that of its path. -/
theorem clientStep_handle {c : ClientStep} {ph : Phase} (hm : Moved w ph w' ph')
    (hs : clientStep cx env w c ph = .ok (w', ph')) (h : Handle) (hh : h ∈ ph'.handle?) :
    h ∈ ph.handle? ∨ ∃ flags, c = .lookup h.path flags := by
  rcases hm.same h hh with rfl | hold
  · cases c with
    | lookup path flags =>
      refine .inr ⟨flags, ?_⟩
      simp only [clientStep, lookup, Except.ok.injEq] at hs
      split at hs
      · cases hs
        cases hh
        rfl
      · cases hs
        cases hh
    | _ =>
      cases hs
      cases hh
  · exact .inl hold

end ClientSteps

section Steps

variable {cx : Ctx} {s t : State} {m : Move}

theorem State.Inv.client {i : Nat} {c : ClientStep} {ph ph' : Phase} {w : World} {env : Env}
    (hi : s.Inv) (hg : Undisturbed s ⟨.client i c, env⟩) (hph : s.clients[i]? = some ph)
    (hs : clientStep cx env s.world c ph = .ok (w, ph')) :
    State.Inv { s with world := w, clients := s.clients.set i ph' } := by
  obtain ⟨hlt, hget⟩ := List.getElem?_eq_some_iff.mp hph
  have hmem : ph ∈ s.clients := hget ▸ List.getElem_mem hlt
  have hm := clientStep_moved hi.table (fun h hh => (hi.safe ph hmem h hh).1) hs
  have hold : ∀ qh ∈ s.clients.set i ph', qh = ph' ∨ qh ∈ s.clients := by
    intro qh hq
    rcases List.mem_or_eq_of_mem_set hq with hq | hq
    · exact .inr hq
    · exact .inl hq
  have hheap : ∀ p a, w.hash p = some a → (w.heap a).isSome := by
    intro p a ha
    obtain ⟨pe, hpe, _⟩ := hm.inv.entry p a ha
    rw [hpe]
    rfl
  refine ⟨hm.inv, ?_, ?_, ?_⟩
  · intro qh hq h hh
    have hhash : w.hash h.path = some h.addr := by
      rcases hold qh hq with rfl | hq
      · exact hm.held h hh
      · exact hm.stays _ _ (hi.safe qh hq h hh).1
    exact ⟨hhash, hheap _ _ hhash⟩
  · intro a pe' ha
    change (s.clients.set i ph').countP (Phase.counts a) ≤ pe'.refcount
    rw [List.countP_set hlt, hget]
    rcases hm.count a pe' ha with ⟨hnone, hct⟩ | ⟨pe, hpe, hle⟩
    · -- a new entry, of which no client can have been at work
      have hzero : s.clients.countP (Phase.counts a) = 0 := by
        rw [List.countP_eq_zero]
        intro qh hq hc
        obtain ⟨h, hh, rfl⟩ : ∃ h ∈ qh.handle?, h.addr = a := by
          cases qh <;> simp_all [Phase.counts, Phase.handle?]
        have hsome := (hi.safe qh hq h hh).2
        rw [hnone] at hsome
        cases hsome
      simp [hzero, hct]
    · have hc := hi.counted a pe hpe
      have hpos : (if Phase.counts a ph = true then 1 else 0) ≤
          s.clients.countP (Phase.counts a) := by
        split_ifs with h1
        · exact List.countP_pos_iff.mpr ⟨ph, hmem, h1⟩
        · exact Nat.zero_le _
      cases h1 : Phase.counts a ph <;> cases h2 : Phase.counts a ph' <;>
        simp only [h1, h2, Bool.toNat_true, Bool.toNat_false, if_true, if_false,
          Bool.false_eq_true] at hle hpos ⊢ <;> omega
  · intro cell hcell
    obtain ⟨hhash, hno⟩ := hi.alone cell hcell
    refine ⟨hm.stays _ _ hhash, ?_⟩
    intro qh hq h hh
    rcases hold qh hq with rfl | hq
    · rcases clientStep_handle hm hs h hh with hp | ⟨flags, rfl⟩
      · exact hno ph hmem h hp
      · intro he
        have hpath := hm.inv.addr_inj (hm.held h hh) (he ▸ hm.stays _ _ hhash)
        exact hg cell hcell hpath.symm
    · exact hno qh hq h hh

/-- The entry the collector works on is that of the table. -/
theorem State.Inv.collectorEntry {path : Path} {a : Addr} {pe pe' : Entry} {sw : Sweep}
    (hi : s.Inv) (ha : s.world.heap a = some pe) (hp : pe'.path = pe.path) (hf : pe'.fd = pe.fd)
    (ho : pe'.ondisk = pe.ondisk) (hr : pe'.refcount = pe.refcount)
    (hc : s.collector.cell? = some (path, a)) (hsw : ∀ c ∈ sw.cell?, c = (path, a)) :
    State.Inv { s with world := s.world.setEntry a pe', collector := sw } := by
  refine ⟨hi.table.setEntry ha hp hf (.inl ho), ?_, ?_, ?_⟩
  · intro ph hph h hh
    obtain ⟨h1, h2⟩ := hi.safe ph hph h hh
    refine ⟨h1, ?_⟩
    change ((s.world.setEntry a pe').heap h.addr).isSome
    by_cases he : h.addr = a
    · rw [he, World.setEntry_heap_self]
      rfl
    · rw [World.setEntry_heap_of_ne he]
      exact h2
  · intro b qe hb
    change (s.world.setEntry a pe').heap b = some qe at hb
    by_cases he : b = a
    · subst he
      rw [World.setEntry_heap_self, Option.some.injEq] at hb
      rw [← hb, hr]
      exact hi.counted b pe ha
    · rw [World.setEntry_heap_of_ne he] at hb
      exact hi.counted b qe hb
  · intro c hcell
    rw [hsw c hcell]
    exact hi.alone (path, a) hc

theorem State.Inv.rest (hi : s.Inv) : State.Inv { s with collector := .idle } :=
  ⟨hi.table, hi.safe, hi.counted, fun c hc => by cases hc⟩

theorem State.Inv.collector {c : SweepStep} {sw : Sweep} {w : World} {env : Env} (hi : s.Inv)
    (hg : Undisturbed s ⟨.collector c, env⟩)
    (hs : sweepStep cx env s.world c s.collector = .ok (w, sw)) :
    State.Inv { s with world := w, collector := sw } := by
  unfold sweepStep at hs
  split at hs
  · rename_i path hcol
    unfold count at hs
    cases hh : s.world.hash path with
    | none =>
      simp only [hh, Except.ok.injEq, Prod.mk.injEq] at hs
      obtain ⟨rfl, rfl⟩ := hs
      exact hi.rest
    | some a =>
      rw [hh] at hs
      obtain ⟨pe, hpe, hs⟩ := Except.bind_ok.mp hs
      have hpe := World.deref_ok.mp hpe
      split_ifs at hs with h0
      · simp only [Except.ok.injEq, Prod.mk.injEq] at hs
        obtain ⟨rfl, rfl⟩ := hs
        exact hi.rest
      · simp only [Except.ok.injEq, Prod.mk.injEq] at hs
        obtain ⟨rfl, rfl⟩ := hs
        have hzero : pe.refcount = 0 := not_not.mp h0
        refine ⟨hi.table, hi.safe, hi.counted, ?_⟩
        rintro cell ⟨⟩
        refine ⟨hh, ?_⟩
        rintro ph hph h hin rfl
        -- counted by the semaphore, or in one of the two windows
        have hpath := hi.table.addr_inj (hi.safe ph hph h hin).1 hh
        have hno : Phase.counts h.addr ph = false := by
          have hc := hi.counted h.addr pe hpe
          rw [hzero, Nat.le_zero, List.countP_eq_zero] at hc
          simpa using hc ph hph
        have hwin : h ∈ ph.window? := by
          cases ph <;> simp_all [Phase.counts, Phase.handle?, Phase.window?]
        refine hg ?_ ph hph h hwin hpath
        simp [World.entry, hh, hpe, hzero]
  · rename_i path a hcol
    obtain ⟨pe, hpe, hs⟩ := Except.bind_ok.mp hs
    have hpe := World.deref_ok.mp hpe
    split_ifs at hs with hl
    · simp only [Except.ok.injEq, Prod.mk.injEq] at hs
      obtain ⟨rfl, rfl⟩ := hs
      exact hi.rest
    · simp only [Except.ok.injEq, Prod.mk.injEq] at hs
      obtain ⟨rfl, rfl⟩ := hs
      exact hi.collectorEntry hpe rfl rfl rfl rfl (by rw [hcol]; rfl)
        (by rintro c ⟨⟩; rfl)
  · rename_i path a hcol
    obtain ⟨pe, hpe, hs⟩ := Except.bind_ok.mp hs
    have hpe := World.deref_ok.mp hpe
    split_ifs at hs with hl
    · simp only [Except.ok.injEq, Prod.mk.injEq] at hs
      obtain ⟨rfl, rfl⟩ := hs
      refine ⟨hi.table, hi.safe, hi.counted, ?_⟩
      rintro c ⟨⟩
      exact hi.alone (path, a) (by rw [hcol]; rfl)
    · simp only [Except.ok.injEq, Prod.mk.injEq] at hs
      obtain ⟨rfl, rfl⟩ := hs
      exact hi.collectorEntry hpe rfl rfl rfl rfl (by rw [hcol]; rfl)
        (by rintro c ⟨⟩)
  · rename_i path a hcol
    simp only [Except.ok.injEq, Prod.mk.injEq] at hs
    obtain ⟨rfl, rfl⟩ := hs
    obtain ⟨hh, hno⟩ := hi.alone (path, a) (by rw [hcol]; rfl)
    have htab : (gcRemove cx env s.world path).Inv :=
      (hi.table.tryUnlink env _ _).hashRemove path
    have hheap : ∀ b, (gcRemove cx env s.world path).heap b =
        if a = b then none else s.world.heap b := by
      intro b
      unfold gcRemove
      rw [World.hashRemove_heap]
      simp [show s.world.hash path = some a from hh]
    refine ⟨htab, ?_, ?_, fun c hc => by cases hc⟩
    · intro ph hph h hin
      have hne : h.addr ≠ a := hno ph hph h hin
      obtain ⟨h1, h2⟩ := hi.safe ph hph h hin
      have hp : h.path ≠ path := by
        intro he
        rw [he, show s.world.hash path = some a from hh, Option.some.injEq] at h1
        exact hne h1.symm
      refine ⟨?_, ?_⟩
      · unfold gcRemove
        rw [World.hashRemove_hash, if_neg hp]
        exact h1
      · rw [hheap, if_neg (Ne.symm hne)]
        exact h2
    · intro b qe hb
      rw [hheap] at hb
      split_ifs at hb
      exact hi.counted b qe hb
  · simp only [Except.ok.injEq, Prod.mk.injEq] at hs
    obtain ⟨rfl, rfl⟩ := hs
    exact ⟨hi.table, hi.safe, hi.counted, hi.alone⟩

theorem State.Inv.step (hi : s.Inv) (hg : Undisturbed s m) (hs : step cx s m = .ok t) :
    t.Inv := by
  obtain ⟨act, env⟩ := m
  unfold Threads.step at hs
  cases act with
  | client i c =>
    cases hph : s.clients[i]? with
    | none =>
      simp only [hph, Except.ok.injEq] at hs
      exact hs ▸ hi
    | some ph =>
      simp only [hph] at hs
      obtain ⟨⟨w, ph'⟩, hc, rfl⟩ := Except.map_eq_ok.mp hs
      exact hi.client hg hph hc
  | collector c =>
    obtain ⟨⟨w, sw⟩, hc, rfl⟩ := Except.map_eq_ok.mp hs
    exact hi.collector hg hc

end Steps

theorem State.init_inv {w : World} (hw : w.Inv) (n : Nat) : (State.init w n).Inv := by
  have hidle : ∀ ph ∈ List.replicate n Phase.idle, ph = .idle :=
    fun ph hph => List.eq_of_mem_replicate hph
  refine ⟨hw, ?_, ?_, fun c hc => by cases hc⟩
  · intro ph hph h hh
    rw [hidle ph hph] at hh
    cases hh
  · intro a pe _
    have hzero : (List.replicate n Phase.idle).countP (Phase.counts a) = 0 := by
      rw [List.countP_eq_zero]
      intro ph hph
      rw [hidle ph hph]
      simp [Phase.counts]
    exact hzero.trans_le (Nat.zero_le _)

/-- In every interleaving in which the collector is undisturbed, no entry goes while a client
is between its lookup and the end of its release. -/
theorem collector_spares_clients (cx : Ctx) (d : Daemon) (hd : d.Reachable cx) (n : Nat)
    (moves : List Move) (s : State)
    (hm : Transition.Meets (step cx) Undisturbed (.init d.world n) moves)
    (hr : Transition.exec (step cx) (.init d.world n) moves = .ok s) : s.Safe :=
  (Transition.exec_invariant (I := State.Inv) (fun _ _ _ hi hg hs => hi.step hg hs)
    (State.init_inv hd.inv n) hm hr).safe

/-- Every call goes through, long after the cache file was last used. -/
def late : Env := { Env.quiet with now := 1000 }

def client (i : Nat) (c : ClientStep) : Move := ⟨.client i c, late⟩

def collector (c : SweepStep) : Move := ⟨.collector c, late⟩

/-- `dfs_open` of `/f`, undisturbed. -/
def opening (i : Nat) (flags : OpenFlags) : List Move :=
  [client i (.lookup ['/', 'f'] flags), client i .post, client i .enter]

/-- `gc_callback` on `/f`, undisturbed. -/
def sweeping : List Move :=
  [collector (.count ['/', 'f']), collector .trylock, collector .decide, collector .remove]

def oneFile : World := (Sample.daemon [(['/', 'f'], Sample.file [1])]).world

/-- The file is open for appending while the collector passes. -/
theorem collector_spares_opened :
    ∃ s, Transition.exec (step Sample.plain) (.init oneFile 1)
        (opening 0 Sample.writeAppend ++ sweeping) = .ok s ∧
      s.clients.map (·.handle?.isSome) = [true] ∧ s.Safe := by
  have hm : Transition.Meets (step Sample.plain) Undisturbed (.init oneFile 1)
      (opening 0 Sample.writeAppend ++ sweeping) := by
    refine ⟨?_, trivial, trivial, ?_, trivial, trivial, trivial, trivial⟩
    · rintro c ⟨⟩
    · intro h
      cases h
  exact ⟨_, rfl, rfl, collector_spares_clients Sample.plain _ (Sample.daemon_reachable _ _) 1 _ _
    hm rfl⟩

/-- The entry goes between the `sem_wait` and the upload of a release, and, once another
client has left its descriptor in the table, between the lookup and the `sem_post` of an
open. -/
theorem collector_removes_entry_in_use :
    (∃ s, Transition.exec (step Sample.plain) (.init oneFile 1)
        (opening 0 Sample.writeAppend ++ client 0 .wait :: sweeping) = .ok s ∧ ¬s.Safe) ∧
    ∃ s, Transition.exec (step Sample.plain) (.init oneFile 2)
        (opening 1 Sample.readOnly ++ client 1 .wait ::
          client 0 (.lookup ['/', 'f'] Sample.readOnly) :: sweeping) = .ok s ∧ ¬s.Safe :=
  ⟨⟨_, rfl, by decide⟩, _, rfl, by decide⟩

end DropletFs.Threads
