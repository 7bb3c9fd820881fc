import DropletFs.Model.Hash
import DropletFs.Cache.Frame

/-! The representation invariant of the table, and the ways a callback changes the state
without breaking it. -/

namespace DropletFs

open CText LocalFs

/-- How every cache descriptor of an entry is open: at its start, read-only or for
reading and writing. -/
def CacheFile (f : OpenFile) : Prop := f.offset = 0 ∧ (f.acc = .rdonly ∨ f.acc = .rdwr)

theorem CacheFile.canRead {f : OpenFile} (h : CacheFile f) : f.acc.canRead = true := by
  rcases h.2 with h | h <;> rw [h] <;> rfl

/-- Table and heap describe the same entries; a descriptor is there exactly for a cached
file, is open, and belongs to one entry. -/
structure World.Inv (s : World) : Prop where
  wf : s.fs.Wf
  entry : ∀ p a, s.hash p = some a → ∃ pe, s.heap a = some pe ∧ pe.path = p
  linked : ∀ a pe, s.heap a = some pe → s.hash pe.path = some a
  bound : ∀ a pe, s.heap a = some pe → a < s.brk
  opened : ∀ a pe fd, s.heap a = some pe → pe.fd = some fd →
    ∃ f, s.fs.fds.lookup fd = some f ∧ CacheFile f
  cached : ∀ a pe, s.heap a = some pe → (pe.ondisk = .loc ↔ pe.fd.isSome)
  distinct : ∀ a b pe qe fd, s.heap a = some pe → s.heap b = some qe → pe.fd = some fd →
    qe.fd = some fd → a = b

/-- What a callback may do to one entry and the cache while the table stays as it is. -/
structure Update (fs : LocalFs) (pe : Entry) (fs' : LocalFs) (pe' : Entry) : Prop where
  path : pe'.path = pe.path
  wf : fs'.Wf
  fds : ∀ fd f, fs.fds.lookup fd = some f → CacheFile f → fs'.fds.lookup fd = some f
  fd : pe'.fd = pe.fd ∨
    ∀ fd, pe'.fd = some fd → fs.New fd ∧ ∃ f, fs'.fds.lookup fd = some f ∧ CacheFile f

theorem Update.refl {fs : LocalFs} (hw : fs.Wf) (pe : Entry) : Update fs pe fs pe :=
  ⟨rfl, hw, fun _ _ h _ => h, .inl rfl⟩

/-- A change of the entry alone that keeps its path and descriptor. -/
theorem Update.entry {fs fs' : LocalFs} {pe pe' qe : Entry} (h : Update fs pe fs' pe')
    (hp : qe.path = pe'.path) (hf : qe.fd = pe'.fd) : Update fs pe fs' qe :=
  ⟨hp.trans h.path, h.wf, h.fds, hf ▸ h.fd⟩

@[simp] theorem World.setEntry_hash (s : World) (a : Addr) (pe : Entry) :
    (s.setEntry a pe).hash = s.hash := rfl

@[simp] theorem World.setEntry_store (s : World) (a : Addr) (pe : Entry) :
    (s.setEntry a pe).store = s.store := rfl

@[simp] theorem World.setEntry_fs (s : World) (a : Addr) (pe : Entry) :
    (s.setEntry a pe).fs = s.fs := rfl

@[simp] theorem World.setEntry_heap_self (s : World) (a : Addr) (pe : Entry) :
    (s.setEntry a pe).heap a = some pe := by simp [World.setEntry]

theorem World.setEntry_heap_of_ne {s : World} {a b : Addr} (h : b ≠ a) (pe : Entry) :
    (s.setEntry a pe).heap b = s.heap b := by simp [World.setEntry, h]

theorem World.deref_ok {s : World} {a : Addr} {pe : Entry} :
    s.deref a = .ok pe ↔ s.heap a = some pe := by
  unfold World.deref
  cases s.heap a <;> simp

@[simp] theorem World.hashRemove_ring (s : World) (p : Path) :
    (s.hashRemove p).ring = s.ring := by
  unfold World.hashRemove World.pentryFree
  cases s.hash p with
  | none => rfl
  | some a =>
    dsimp only
    cases s.heap a <;> rfl

@[simp] theorem World.hashRemove_store (s : World) (p : Path) :
    (s.hashRemove p).store = s.store := by
  unfold World.hashRemove World.pentryFree
  cases s.hash p with
  | none => rfl
  | some a =>
    dsimp only
    cases s.heap a <;> rfl

theorem World.hashRemove_hash (s : World) (p q : Path) :
    (s.hashRemove p).hash q = if q = p then none else s.hash q := by
  unfold World.hashRemove
  cases hp : s.hash p with
  | none =>
    split_ifs with he
    · rw [he, hp]
    · rfl
  | some a => simp [Function.update_apply]

/-- An update of an entry changes the heap only. -/
theorem World.onEntry_eq (s : World) (p : Path) (f : Entry → Entry) :
    ∃ heap, s.onEntry p f = { s with heap := heap } := by
  unfold World.onEntry
  cases s.hash p with
  | none => exact ⟨s.heap, rfl⟩
  | some a =>
    dsimp only
    cases s.heap a with
    | none => exact ⟨s.heap, rfl⟩
    | some pe => exact ⟨_, rfl⟩

@[simp] theorem World.hashRemove_files (s : World) (p : Path) :
    (s.hashRemove p).fs.files = s.fs.files := by
  unfold World.hashRemove World.pentryFree
  cases s.hash p with
  | none => rfl
  | some a =>
    dsimp only
    cases s.heap a with
    | none => rfl
    | some pe => exact LocalFs.closeOpt_files s.fs pe.fd

theorem World.hashRemove_heap (s : World) (p : Path) (b : Addr) :
    (s.hashRemove p).heap b = if s.hash p = some b then none else s.heap b := by
  unfold World.hashRemove World.pentryFree
  cases hp : s.hash p with
  | none => simp
  | some a =>
    dsimp only
    by_cases he : b = a
    · subst he
      cases hb : s.heap b <;> simp [hb]
    · have hne : ¬some a = some b := fun e => he (Option.some.inj e).symm
      rw [if_neg hne]
      cases hb : s.heap a <;> simp [he]

namespace World.Inv

variable {s : World} (h : s.Inv)
include h

theorem addr_inj {p q : Path} {a : Addr} (hp : s.hash p = some a) (hq : s.hash q = some a) :
    p = q := by
  obtain ⟨pe, hpe, rfl⟩ := h.entry p a hp
  obtain ⟨qe, hqe, rfl⟩ := h.entry q a hq
  rw [hpe, Option.some.injEq] at hqe
  rw [hqe]

theorem brk_free : s.heap s.brk = none := by
  cases hb : s.heap s.brk with
  | none => rfl
  | some pe => exact (lt_irrefl _ (h.bound _ _ hb)).elim

/-- The table and the cache do not depend on the remaining state. -/
theorem congr {t : World} (hh : t.hash = s.hash) (hp : t.heap = s.heap) (hb : t.brk = s.brk)
    (hf : t.fs = s.fs) : t.Inv := by
  obtain ⟨h1, h2, h3, h4, h5, h6, h7⟩ := h
  exact ⟨hf ▸ h1, by rwa [hh, hp], by rwa [hh, hp], by rwa [hp, hb], by rwa [hp, hf],
    by rwa [hp], by rwa [hp]⟩

/-- Names and contents may change as long as the descriptors stay. -/
theorem withFs {fs : LocalFs} (hw : fs.Wf) (hf : fs.fds = s.fs.fds) : { s with fs := fs }.Inv :=
  ⟨hw, h.entry, h.linked, h.bound, by rw [hf]; exact h.opened, h.cached, h.distinct⟩

theorem update {a : Addr} {pe pe' : Entry} {fs : LocalFs} (ha : s.heap a = some pe)
    (hu : Update s.fs pe fs pe') (hc : pe'.ondisk = .loc ↔ pe'.fd.isSome) :
    { s.setEntry a pe' with fs := fs }.Inv := by
  -- every entry of the new state is an old one, or the one updated
  have hcase : ∀ b qe, (s.setEntry a pe').heap b = some qe →
      b = a ∧ qe = pe' ∨ b ≠ a ∧ s.heap b = some qe := by
    intro b qe hb
    by_cases he : b = a
    · subst he
      rw [setEntry_heap_self, Option.some.injEq] at hb
      exact .inl ⟨rfl, hb.symm⟩
    · rw [setEntry_heap_of_ne he] at hb
      exact .inr ⟨he, hb⟩
  have hkeep : ∀ b qe fd, s.heap b = some qe → qe.fd = some fd →
      ∃ f, fs.fds.lookup fd = some f ∧ CacheFile f := by
    intro b qe fd hb hfd
    obtain ⟨f, hf, hcf⟩ := h.opened b qe fd hb hfd
    exact ⟨f, hu.fds fd f hf hcf, hcf⟩
  -- a new descriptor is not one an entry holds
  have hnew : ∀ b qe fd, s.heap b = some qe → b ≠ a → qe.fd = some fd → pe'.fd ≠ some fd := by
    intro b qe fd hb hne hq hp
    rcases hu.fd with hfd | hfd
    · exact hne (h.distinct b a qe pe fd hb ha hq (hfd ▸ hp))
    · obtain ⟨f, hf, _⟩ := h.opened b qe fd hb hq
      have hn := (hfd fd hp).1
      rw [New, hf] at hn
      cases hn
  refine ⟨hu.wf, ?_, ?_, ?_, ?_, ?_, ?_⟩
  · intro p b hb
    obtain ⟨qe, hq, hqp⟩ := h.entry p b hb
    by_cases he : b = a
    · subst he
      rw [ha, Option.some.injEq] at hq
      exact ⟨pe', setEntry_heap_self s b pe', by rw [hu.path, hq, hqp]⟩
    · exact ⟨qe, (setEntry_heap_of_ne he pe').trans hq, hqp⟩
  · intro b qe hb
    rcases hcase b qe hb with ⟨rfl, rfl⟩ | ⟨_, hb⟩
    · rw [hu.path]
      exact h.linked b pe ha
    · exact h.linked b qe hb
  · intro b qe hb
    rcases hcase b qe hb with ⟨rfl, rfl⟩ | ⟨_, hb⟩
    · exact h.bound b pe ha
    · exact h.bound b qe hb
  · intro b qe fd hb hfd
    rcases hcase b qe hb with ⟨rfl, rfl⟩ | ⟨_, hb⟩
    · rcases hu.fd with hf | hf
      · exact hkeep b pe fd ha (hf ▸ hfd)
      · exact (hf fd hfd).2
    · exact hkeep b qe fd hb hfd
  · intro b qe hb
    rcases hcase b qe hb with ⟨rfl, rfl⟩ | ⟨_, hb⟩
    · exact hc
    · exact h.cached b qe hb
  · intro b c qe re fd hb hcc hq hr
    rcases hcase b qe hb with ⟨rfl, rfl⟩ | ⟨hbn, hb'⟩ <;>
      rcases hcase c re hcc with ⟨rfl, rfl⟩ | ⟨hcn, hc'⟩
    · rfl
    · exact (hnew c re fd hc' hcn hr hq).elim
    · exact (hnew b qe fd hb' hbn hq hr).elim
    · exact h.distinct b c qe re fd hb' hc' hq hr

/-- A change of an entry that keeps its path, descriptor and place. -/
theorem setEntry {a : Addr} {pe pe' : Entry} (ha : s.heap a = some pe)
    (hp : pe'.path = pe.path) (hf : pe'.fd = pe.fd)
    (ho : pe'.ondisk = pe.ondisk ∨ pe.ondisk = .unset ∧ pe'.ondisk = .remote) :
    (s.setEntry a pe').Inv := by
  have hc := h.cached a pe ha
  refine h.update ha ((Update.refl h.wf pe).entry hp hf) ?_
  rw [hf]
  rcases ho with ho | ⟨ho, ho'⟩
  · rw [ho]
    exact hc
  · rw [ho] at hc
    rw [ho', ← hc]
    simp

theorem insertEntry {p : Path} {pe : Entry} (hn : s.hash p = none) (hp : pe.path = p)
    (hf : pe.fd = none) (ho : pe.ondisk ≠ .loc) : (s.insertEntry p pe).Inv := by
  have hfree := h.brk_free
  have hcase : ∀ b qe, (s.insertEntry p pe).heap b = some qe →
      b = s.brk ∧ qe = pe ∨ b ≠ s.brk ∧ s.heap b = some qe := by
    intro b qe hb
    by_cases he : b = s.brk
    · subst he
      simp only [World.insertEntry, Function.update_self, Option.some.injEq] at hb
      exact .inl ⟨rfl, hb.symm⟩
    · simp only [World.insertEntry, Function.update_of_ne he] at hb
      exact .inr ⟨he, hb⟩
  refine ⟨h.wf, ?_, ?_, ?_, ?_, ?_, ?_⟩
  · intro q b hq
    by_cases he : q = p
    · subst he
      simp only [World.insertEntry, Function.update_self, Option.some.injEq] at hq
      subst hq
      exact ⟨pe, by simp [World.insertEntry], hp⟩
    · simp only [World.insertEntry, Function.update_of_ne he] at hq
      obtain ⟨qe, hqe, hqp⟩ := h.entry q b hq
      have hb : b ≠ s.brk := by
        rintro rfl
        rw [hfree] at hqe
        cases hqe
      exact ⟨qe, by simp [World.insertEntry, hb, hqe], hqp⟩
  · intro b qe hb
    rcases hcase b qe hb with ⟨rfl, rfl⟩ | ⟨_, hb⟩
    · simp [World.insertEntry, hp]
    · have hl := h.linked b qe hb
      have he : qe.path ≠ p := by
        intro he
        rw [he, hn] at hl
        cases hl
      simpa [World.insertEntry, he] using hl
  · intro b qe hb
    rcases hcase b qe hb with ⟨rfl, rfl⟩ | ⟨_, hb⟩
    · exact Nat.lt_succ_self _
    · exact Nat.lt_succ_of_lt (h.bound b qe hb)
  · intro b qe fd hb hfd
    rcases hcase b qe hb with ⟨rfl, rfl⟩ | ⟨_, hb⟩
    · rw [hf] at hfd
      cases hfd
    · exact h.opened b qe fd hb hfd
  · intro b qe hb
    rcases hcase b qe hb with ⟨rfl, rfl⟩ | ⟨_, hb⟩
    · simp [hf, ho]
    · exact h.cached b qe hb
  · intro b c qe re fd hb hc hq hr
    rcases hcase b qe hb with ⟨rfl, rfl⟩ | ⟨_, hb⟩
    · rw [hf] at hq
      cases hq
    rcases hcase c re hc with ⟨rfl, rfl⟩ | ⟨_, hc⟩
    · rw [hf] at hr
      cases hr
    exact h.distinct b c qe re fd hb hc hq hr

theorem hashRemove (p : Path) : (s.hashRemove p).Inv := by
  unfold World.hashRemove
  cases ha : s.hash p with
  | none => exact h
  | some a =>
    obtain ⟨pe, hpe, hpp⟩ := h.entry p a ha
    have hfs : s.pentryFree a = { s with
        heap := Function.update s.heap a none, fs := s.fs.closeOpt pe.fd } := by
      simp [World.pentryFree, hpe]
    dsimp only
    rw [hfs]
    have hold : ∀ b qe, Function.update s.heap a none b = some qe →
        b ≠ a ∧ s.heap b = some qe := by
      intro b qe hb
      by_cases he : b = a
      · simp [he] at hb
      · exact ⟨he, by simpa [he] using hb⟩
    refine ⟨h.wf.closeOpt pe.fd, ?_, ?_, ?_, ?_, ?_, ?_⟩
    · intro q b hq
      by_cases he : q = p
      · simp [he] at hq
      · simp only [Function.update_of_ne he] at hq
        obtain ⟨qe, hqe, hqp⟩ := h.entry q b hq
        have hb : b ≠ a := by
          rintro rfl
          exact he (h.addr_inj hq ha)
        exact ⟨qe, by simpa [hb] using hqe, hqp⟩
    · intro b qe hb
      obtain ⟨hne, hb⟩ := hold b qe hb
      have hl := h.linked b qe hb
      have he : qe.path ≠ p := by
        intro he
        rw [he, ha, Option.some.injEq] at hl
        exact hne hl.symm
      simpa [he] using hl
    · exact fun b qe hb => h.bound b qe (hold b qe hb).2
    · intro b qe fd hb hfd
      obtain ⟨hne, hb⟩ := hold b qe hb
      obtain ⟨f, hf, hcf⟩ := h.opened b qe fd hb hfd
      refine ⟨f, ?_, hcf⟩
      cases hpf : pe.fd with
      | none => exact hf
      | some k =>
        have hk : fd ≠ k := by
          rintro rfl
          exact hne (h.distinct b a qe pe fd hb hpe hfd hpf)
        simpa [LocalFs.closeOpt, LocalFs.close, AList.lookup_erase_ne hk] using hf
    · exact fun b qe hb => h.cached b qe (hold b qe hb).2
    · exact fun b c qe re fd hb hc => h.distinct b c qe re fd (hold b qe hb).2 (hold c re hc).2

/-- An update of an entry found by its path. -/
theorem onEntry {p : Path} {f : Entry → Entry} (hp : ∀ pe, (f pe).path = pe.path)
    (hf : ∀ pe, (f pe).fd = pe.fd) (ho : ∀ pe, (f pe).ondisk = pe.ondisk) :
    (s.onEntry p f).Inv := by
  unfold World.onEntry
  cases s.hash p with
  | none => exact h
  | some a =>
    dsimp only
    cases hb : s.heap a with
    | none => exact h
    | some pe => exact h.setEntry hb (hp pe) (hf pe) (.inl (ho pe))

end World.Inv

/-- No entry is freed, and none loses its path, its descriptor or a reference. -/
def World.Keeps (s t : World) : Prop :=
  ∀ a pe, s.heap a = some pe → ∃ pe', t.heap a = some pe' ∧ pe'.path = pe.path ∧
    (pe.fd.isSome → pe'.fd.isSome) ∧ pe.refcount ≤ pe'.refcount

namespace World.Keeps

variable {s t u : World}

theorem refl (s : World) : s.Keeps s := fun _ pe h => ⟨pe, h, rfl, id, le_rfl⟩

theorem trans (h : s.Keeps t) (h' : t.Keeps u) : s.Keeps u := by
  intro a pe ha
  obtain ⟨qe, hq, hp, hf, hr⟩ := h a pe ha
  obtain ⟨re, hr', hp', hf', hr''⟩ := h' a qe hq
  exact ⟨re, hr', hp'.trans hp, hf' ∘ hf, hr.trans hr''⟩

theorem of_heap (h : t.heap = s.heap) : s.Keeps t := by
  intro a pe ha
  exact ⟨pe, h ▸ ha, rfl, id, le_rfl⟩

/-- An entry replaced by one that keeps path, descriptor and references. -/
theorem of_update {a : Addr} {pe pe' : Entry} (ha : s.heap a = some pe)
    (ht : t.heap = Function.update s.heap a (some pe')) (hp : pe'.path = pe.path)
    (hf : pe.fd.isSome → pe'.fd.isSome) (hr : pe.refcount ≤ pe'.refcount) : s.Keeps t := by
  intro b qe hb
  by_cases he : b = a
  · subst he
    rw [ha, Option.some.injEq] at hb
    subst hb
    exact ⟨pe', by simp [ht], hp, hf, hr⟩
  · exact ⟨qe, by simp [ht, he, hb], rfl, id, le_rfl⟩

theorem insertEntry (hi : s.Inv) (p : Path) (pe : Entry) : s.Keeps (s.insertEntry p pe) := by
  intro b qe hb
  have hne : b ≠ s.brk := by
    rintro rfl
    rw [hi.brk_free] at hb
    cases hb
  exact ⟨qe, by simpa [World.insertEntry, hne] using hb, rfl, id, le_rfl⟩

theorem onEntry {p : Path} {f : Entry → Entry} (hp : ∀ pe, (f pe).path = pe.path)
    (hf : ∀ pe, (f pe).fd = pe.fd) (hr : ∀ pe, (f pe).refcount = pe.refcount) :
    s.Keeps (s.onEntry p f) := by
  unfold World.onEntry
  cases s.hash p with
  | none => exact refl s
  | some a =>
    dsimp only
    cases hb : s.heap a with
    | none => exact refl s
    | some pe => exact of_update hb rfl (hp pe) (by rw [hf]; exact id) (hr pe).ge

end World.Keeps

theorem pentryRemoveDirent_fields (pe : Entry) (path : Path) :
    (pentryRemoveDirent pe path).path = pe.path ∧ (pentryRemoveDirent pe path).fd = pe.fd ∧
    (pentryRemoveDirent pe path).ondisk = pe.ondisk ∧
    (pentryRemoveDirent pe path).refcount = pe.refcount := by
  unfold pentryRemoveDirent
  split_ifs <;> exact ⟨rfl, rfl, rfl, rfl⟩

end DropletFs
