import DropletFs.Durable.Run
import DropletFs.Model.Sample

/-! No run of opens, creates, reads, writes, releases and collector passes loses what was
written, as long as its steps keep the cache and the store in line. -/

namespace DropletFs

open CText LocalFs

/-- What a call needs to lose nothing. -/
def KeepsData (cx : Ctx) (s : Daemon × Ledger) (c : Call) : Prop :=
  let w := s.1.world
  match c.op with
  | .open path flags => w.OpensKept cx c.env path (getModeFromFlags flags) ∧
      (getModeFromFlags flags = .creat → cx.conf.regex path = false → flags.acc ≠ .rdonly)
  | .create path _ flags => w.OpensKept cx c.env path (getModeFromFlags flags) ∧
      (getModeFromFlags flags ≠ .creat → ¬w.IsLocal path ∧ w.store.lookup path = none)
  | .read .. => True
  | .write i _ _ => ∀ h pe, s.1.handles[i]? = some h → w.heap h.addr = some pe →
      h.flags.acc.canWrite = true → cx.conf.regex h.path = false → pe.flag = .dirty
  | .release i => ∀ h pe, s.1.handles[i]? = some h → w.heap h.addr = some pe →
      pe.exclude = false → w.ReleasesKept cx c.env h pe
  | .gc _ => True
  | _ => False

/-- Every accepted byte is in the object or in the cache file, the collector removes no entry
whose content differs from its object, and a clean entry has the content of its object. -/
structure NothingLost (cx : Ctx) (d : Daemon) (E : Ledger) : Prop where
  kept : ∀ path, cx.conf.regex path = false → ∀ i b, E path i = some b →
    (∃ o data, d.world.store.lookup path = some o ∧ decode cx o = some data ∧
      data[i]? = some b) ∨
    ∃ pe data, d.world.entry path = some pe ∧ pe.fd.bind d.world.fs.content = some data ∧
      data[i]? = some b
  collected : ∀ env path pe, cx.conf.regex path = false → d.world.entry path = some pe →
    (gcCallback cx env d.world path).entry path = none → d.world.Synced cx pe
  clean : ∀ path pe, cx.conf.regex path = false → d.world.entry path = some pe →
    pe.flag = .clean → d.world.Synced cx pe

section

variable {cx : Ctx} {d d' : Daemon} {E : Ledger}

/-- The entry of a path without handles has the content of its object. -/
theorem Durable.settled (hD : Durable cx d E) {path : Path} {pe : Entry}
    (hx : cx.conf.regex path = false) (he : d.world.entry path = some pe)
    (hfd : pe.fd.isSome) (h0 : pe.refcount = 0) : d.world.Synced cx pe := by
  obtain ⟨a, ha, hpe⟩ := Option.bind_eq_some_iff.mp he
  obtain ⟨qe, hqe, hqp⟩ := hD.table.entry path a ha
  obtain rfl : pe = qe := by rwa [hpe, Option.some.injEq] at hqe
  have hle := hD.live.counted a pe hpe
  rcases (hD.entry a pe hpe (hqp ▸ hx)).settled ((hD.table.cached a pe hpe).mpr hfd) with
    hs | hlt | ⟨g, hg, hga, _⟩
  · exact hs
  · omega
  · have hpos := Daemon.handlesOn_pos hg
    rw [hga] at hpos
    omega

theorem Durable.nothingLost (hD : Durable cx d E) : NothingLost cx d E := by
  have hent : ∀ path pe, cx.conf.regex path = false → d.world.entry path = some pe →
      ∃ a, pe.path = path ∧ d.world.heap a = some pe ∧ EntryOk cx d E a pe := by
    intro path pe hx he
    obtain ⟨a, ha, hpe⟩ := Option.bind_eq_some_iff.mp he
    obtain ⟨qe, hqe, hqp⟩ := hD.table.entry path a ha
    obtain rfl : pe = qe := by rwa [hpe, Option.some.injEq] at hqe
    exact ⟨a, hqp, hpe, hD.entry a pe hpe (hqp ▸ hx)⟩
  refine ⟨fun path hx i b hb => ?_, fun env path pe hx he hgc => ?_, fun path pe hx he hcl => ?_⟩
  · cases he : d.world.entry path with
    | none =>
      have hn : d.world.hash path = none := by
        cases hh : d.world.hash path with
        | none => rfl
        | some a =>
          obtain ⟨qe, hqe, _⟩ := hD.table.entry path a hh
          simp [World.entry, hh, hqe] at he
      exact .inl (hD.absent path hn hx i b hb)
    | some pe =>
      obtain ⟨a, rfl, hpe, hok⟩ := hent path pe hx he
      by_cases hl : pe.ondisk = .loc
      · obtain ⟨fd, hfd⟩ := Option.isSome_iff_exists.mp ((hD.table.cached a pe hpe).mp hl)
        obtain ⟨f, hf, _⟩ := hD.table.opened a pe fd hpe hfd
        have hc : pe.fd.bind d.world.fs.content = some (d.world.fs.inodes f.inode).data := by
          simp [hfd, LocalFs.content, inodeOf, hf]
        exact .inr ⟨pe, _, rfl, hc, hok.cached _ hc i b hb⟩
      · exact .inl (hok.stored hl i b hb)
  · rcases gcCallback_cases cx env d.world path with hw | ⟨qe, hqe, h0, _, hrem, _⟩
    · rw [hw, he] at hgc
      cases hgc
    · obtain rfl : pe = qe := by rwa [he, Option.some.injEq] at hqe
      refine hD.settled hx he ?_ h0
      unfold gcRemoves at hrem
      cases hfd : pe.fd with
      | none => simp [hfd] at hrem
      | some fd => rfl
  · obtain ⟨a, _, _, hok⟩ := hent path pe hx he
    exact hok.clean hcl

theorem Durable.createOther {env : Env} {path : Path} {mode : Nat} {flags : OpenFlags}
    {ret : Int} {fh : Option Addr} {w : World} (hD : Durable cx d E)
    (hm : getModeFromFlags flags ≠ .creat)
    (hk : d.world.OpensKept cx env path (getModeFromFlags flags))
    (hno : ¬d.world.IsLocal path ∧ d.world.store.lookup path = none)
    (h : DropletFs.dfsCreate cx env d.world path mode flags = .ok (ret, fh, w)) :
    ret ≠ 0 ∧ Durable cx ⟨w, d.handles⟩ E := by
  rcases dfsCreate_cases h with ⟨rfl, rfl, rfl⟩ | ⟨r, u, ho, hcase⟩
  · exact ⟨by decide, hD⟩
  obtain ⟨hDu, hleaves⟩ := hD.dfsOpen hk ho
  rw [if_neg (fun e => hm e.1)] at hDu
  have hr : r = -1 := by
    rcases (dfsOpen_inv hD.table ho).2.2 with hret | hret
    · obtain ⟨a, _, hl⟩ := hleaves hret.1
      rcases hl.source hm with hl | hl
      · exact (hno.1 hl).elim
      · rw [hno.2] at hl
        cases hl
    · exact hret
  rcases hcase with ⟨rfl, rfl, _⟩ | ⟨hne, _⟩
  · exact ⟨by decide, hDu⟩
  · exact (hne hr).elim

theorem Ledger.after_write {env : Env} {i : Nat} {buf : Bytes} {offset : Nat} {h : Handle}
    {ret : Int} (hi : d.handles[i]? = some h) :
    E.after cx d ⟨.write i buf offset, env⟩ ret =
      if 0 ≤ ret then E.record h.path offset (buf.take ret.toNat) else E := by
  simp only [Ledger.after, hi]

/-- One call keeps the accepted bytes where they can be found. -/
theorem Calls.durable {env : Env} {op : Op} {ret : Int} (hD : Durable cx d E)
    (hg : KeepsData cx (d, E) ⟨op, env⟩) (h : Calls cx env d op ret d') :
    Durable cx d' (E.after cx d ⟨op, env⟩ ret) := by
  have hlive : (∀ path, op ≠ .unlink path) → (∀ old new, op ≠ .rename old new) → d'.Live :=
    fun h1 h2 => h.live hD.table hD.live (fun p hp => (h1 p hp).elim)
      (fun o n w hp => (h2 o n hp).elim)
  -- the ledger forgets what the open discards
  have hforget : ∀ {path flags r fh w},
      DropletFs.dfsOpen cx env d.world path flags = .ok (r, fh, w) →
      (if getModeFromFlags flags = .creat ∧ r = 0 then E.forget path else E) =
        if opensAnew cx env d.world path flags then E.forget path else E := by
    intro path flags r fh w ho
    simp only [← opensAnew_iff hD.table ho]
  cases h with
  | opened ho =>
    rename_i path flags a w
    obtain ⟨hk, hacc⟩ := hg
    obtain ⟨hDu, hleaves⟩ := hD.dfsOpen hk ho
    rw [hforget ho] at hDu
    obtain ⟨b, hb, hl⟩ := hleaves rfl
    obtain rfl : a = b := by simpa using hb
    obtain ⟨qe, hqe, hqp, _, hset⟩ := hl.entry
    refine hDu.grant (hlive (by simp) (by simp)) fun pe hpe hx => ?_
    obtain rfl : qe = pe := by rwa [hqe, Option.some.injEq] at hpe
    rw [hqp] at hx
    by_cases hm : getModeFromFlags flags = .creat
    · exact .inr (.inr (.inr (hacc hm hx)))
    · exact (hset hm hx).imp id (Or.imp id .inl)
  | openFailed hr ho =>
    obtain ⟨hDu, _⟩ := hD.dfsOpen hg.1 ho
    rwa [hforget ho] at hDu
  | created hc =>
    rename_i path mode flags a w
    obtain ⟨hk, hno⟩ := hg
    by_cases hm : getModeFromFlags flags = .creat
    · rw [World.OpensKept, if_pos hm, hm] at hk
      obtain ⟨hDu, hleaves⟩ := hD.dfsCreate hm hk hc
      refine hDu.grant (hlive (by simp) (by simp)) fun pe hpe hx => .inl ?_
      obtain ⟨b, qe, hb, hqe, hqp, hsync⟩ := hleaves rfl
      obtain rfl : a = b := by simpa using hb
      obtain rfl : qe = pe := by rwa [hqe, Option.some.injEq] at hpe
      exact hsync (hqp ▸ hx)
    · exact ((hD.createOther hm hk (hno hm) hc).1 rfl).elim
  | createFailed hr hc =>
    rename_i path mode flags fh w
    obtain ⟨hk, hno⟩ := hg
    by_cases hm : getModeFromFlags flags = .creat
    · rw [World.OpensKept, if_pos hm, hm] at hk
      exact (hD.dfsCreate hm hk hc).1
    · have hE : E.after cx d ⟨.create path mode flags, env⟩ ret = E := by
        simp [Ledger.after, opensAnew, hm]
      rw [hE]
      exact (hD.createOther hm hk (hno hm) hc).2
  | read => exact hD
  | written hi hc hw =>
    rw [Ledger.after_write hi]
    exact hD.dfsWrite hi hc (fun pe hpe hx => hg _ _ hi hpe hc hx) hw
  | notWritten hr =>
    rename_i i buf offset
    have hE : E.after cx d ⟨.write i buf offset, env⟩ ret = E := by
      cases hi : d.handles[i]? with
      | none => simp only [Ledger.after, hi]
      | some h => rw [Ledger.after_write hi, if_neg (by omega)]
    rwa [hE]
  | released hi hr => exact hD.dfsRelease hi (fun pe hpe hx => hg _ _ hi hpe hx) hr
  | notReleased => exact hD
  | gc => exact hD.gc
  | _ => exact hg.elim

theorem Durable.init {store : Store} {fs : LocalFs} {ring : Ring} (hw : fs.Wf) :
    Durable cx (.init store fs ring) .empty := by
  refine ⟨Daemon.init_inv hw, Daemon.init_live store fs ring, ?_, ?_, ?_, ?_⟩
  · intro a b pe qe fd gd i ha
    cases ha
  · intro a pe ha
    cases ha
  · intro a pe ha
    cases ha
  · intro p _ _ i b hb
    cases hb

end

/-- In every run of opens, creates, reads, writes, releases and collector passes whose steps
keep the data, nothing accepted by a write is lost. -/
theorem written_data_kept (cx : Ctx) (store : Store) (fs : LocalFs) (ring : Ring)
    (calls : List Call) (d : Daemon) (E : Ledger) (hw : fs.Wf)
    (hm : Transition.Meets (trackedStep cx) (KeepsData cx) (.init store fs ring, .empty) calls)
    (hr : Transition.exec (trackedStep cx) (.init store fs ring, .empty) calls = .ok (d, E)) :
    NothingLost cx d E := by
  suffices hD : Durable cx d E from hD.nothingLost
  refine Transition.exec_invariant (I := fun s : Daemon × Ledger => Durable cx s.1 s.2) ?_
    (Durable.init hw) hm hr
  rintro ⟨d, E⟩ ⟨op, env⟩ t hD hg ht
  obtain ⟨⟨ret, d'⟩, hc, rfl⟩ := Except.map_eq_ok.mp ht
  exact (Daemon.call_cases hc).durable hD hg

/-- Long after everything else. -/
def Sample.late (op : Op) : Call := ⟨op, { Env.quiet with now := 1000 }⟩

/-- A file is created, written and released, and its cache file collected. -/
def createWriteCollect : List Call :=
  [Sample.call (.create ['/', 'f'] sIfreg ⟨.wronly, false, true, false⟩),
    Sample.call (.write 0 [1, 2] 0), Sample.call (.release 0), Sample.late (.gc ['/', 'f'])]

theorem written_data_kept_sample :
    ∃ d E, Transition.exec (trackedStep Sample.plain) (Sample.daemon [], .empty)
        createWriteCollect = .ok (d, E) ∧
      d.world.entry ['/', 'f'] = none ∧ E ['/', 'f'] 1 = some 2 ∧ NothingLost Sample.plain d E := by
  have hm : Transition.Meets (trackedStep Sample.plain) (KeepsData Sample.plain)
      (.init (Sample.store []) Sample.fs Sample.ring, .empty) createWriteCollect := by
    refine ⟨⟨?_, fun h => (h rfl).elim⟩, ?_, ?_, trivial, trivial⟩
    · intro a pe fd i ha
      cases ha
    · intro h pe hh hpe _ _
      cases hh
      cases hpe
      rfl
    · intro h pe hh hpe _
      cases hh
      cases hpe
      exact ⟨fun _ => rfl, fun _ hz => (by cases hz), fun _ _ => rfl, fun _ _ =>
        .inl ⟨⟨rfl, rfl, rfl, fun _ => rfl, fun _ => rfl, rfl⟩, by decide⟩⟩
  exact ⟨_, _, rfl, rfl, rfl, written_data_kept Sample.plain _ _ _ _ _ _ Sample.fs_wf hm rfl⟩

/-- The object `/f` is appended to, and the upload of the release fails. -/
def failedUpload : List Call :=
  [Sample.call (.open ['/', 'f'] Sample.writeAppend), Sample.call (.write 0 [2] 1),
    ⟨.release 0, { Env.quiet with
      remote := fun c => if c = .openwrite ['/', 'f'] then .failure else .success }⟩]

/-- The entry is clean all the same, the collector removes it, and the byte is nowhere. -/
theorem failed_upload_loses :
    ∃ d E d' E', Transition.exec (trackedStep Sample.plain)
        (Sample.daemon [(['/', 'f'], Sample.file [1])], .empty) failedUpload = .ok (d, E) ∧
      (d.world.entry ['/', 'f']).map (·.flag) = some .clean ∧
      Transition.exec (trackedStep Sample.plain) (d, E) [Sample.late (.gc ['/', 'f'])] =
        .ok (d', E') ∧
      ¬NothingLost Sample.plain d E ∧ ¬NothingLost Sample.plain d' E' := by
  refine ⟨_, _, _, _, rfl, rfl, rfl, fun h => ?_, fun h => ?_⟩
  · obtain ⟨o, data, ho, hdec, hcont⟩ := h.clean ['/', 'f'] _ rfl rfl rfl
    cases ho
    cases hdec
    cases hcont
  · rcases h.kept ['/', 'f'] rfl 1 2 rfl with ⟨o, data, ho, hdec, hb⟩ | ⟨pe, _, he, _⟩
    · cases ho
      cases hdec
      cases hb
    · cases he

end DropletFs
