import DropletFs.Framework.PlainFiles
import DropletFs.Plain.Shown

/-! What opens, creates, writes, releases and the collector do to the content shown. -/

namespace DropletFs

open CText LocalFs

section Cells

variable {cx : Ctx} {s u : World} {path q : Path} {a : Addr} {fd : Nat}

theorem Looked.fdAt {env : Env} {type : TPathType} (hi : s.Inv)
    (hl : Looked env type s path a u) : u.fdAt q = s.fdAt q := by
  apply fdAt_of_sameFd hi hl.inv hl.keeps
  exact (SameFd.start s).looked hl fun _ => SameFd.fresh hi rfl

theorem World.Inv.fdAt_setEntry (hi : u.Inv) (ha : u.hash path = some a) (pe : Entry) :
    (u.setEntry a pe).fdAt q = if q = path then pe.fd else u.fdAt q := by
  by_cases hq : q = path
  · rw [if_pos hq, hq, World.fdAt, World.setEntry_entry_self ha]
    rfl
  · rw [if_neg hq]
    exact fdAt_of_entry (hi.setEntry_entry_of_ne ha hq pe)

/-- A file that none of the names stands for keeps its content. -/
theorem World.FreeOf.content {but : Option Path} {names : List Path} {fs : LocalFs} (hi : s.Inv)
    (hfree : s.FreeOf but names) (hf : Frame names s.fs fs) (hq : s.fdAt q = some fd)
    (hne : but ≠ some q) : fs.content fd = s.fs.content fd := by
  obtain ⟨b, pe, hb, rfl, hfd⟩ := hi.heap_of_fdAt hq
  obtain ⟨f, hl, -⟩ := hi.opened b pe fd hb hfd
  have hino : s.fs.inodeOf fd = some f.inode := by simp [inodeOf, hl]
  exact (hf.file hi.wf hl fun n hn => hfree b pe fd f.inode hb hne hfd hino n hn).2

end Cells

section Handles

variable {cx : Ctx} {env : Env} {d : Daemon} {w : World} {path : Path} {ret : Int} (q : Path)

/-- An open that makes its cache file anew empties the file; any other leaves every file as it was,
downloaded or not. -/
theorem dfsOpen_file {flags : OpenFlags} {fh : Option Addr} (hD : Durable cx d .empty)
    (hk : d.world.OpensKept cx env path (getModeFromFlags flags))
    (hdir : ∀ o, d.world.store.lookup path = some o → o.ftype ≠ .dir)
    (h : dfsOpen cx env d.world path flags = .ok (ret, fh, w)) :
    w.file cx q = if q = path ∧ getModeFromFlags flags = .creat ∧ ret = 0 then some []
      else d.world.file cx q := by
  have hi := hD.table
  rcases dfsOpen_cases hi h with ⟨rfl, -, rfl⟩ | ⟨a, u, pe, qe, fs, hl, hpe, -, ho, rfl⟩
  · rw [if_neg (fun e => absurd e.2.2 (by decide))]
  generalize getModeFromFlags flags = smode at hk ho ⊢
  have hpath : pe.path = path := by
    obtain ⟨re, hre, hp⟩ := hl.heap
    rw [Option.some.inj (hpe.symm.trans hre), hp]
  have hfdp : d.world.fdAt path = pe.fd := by
    rw [← hl.fdAt hi, ← hpath]
    exact hl.inv.fdAt_of_heap hpe
  have hloc := hl.isLocal_iff hi hpe
  have hkept : smode ≠ .creat → pe.fd = none → d.world.FreeOf none (openNames cx path smode) ∧
      env.sys .renameScratch = none ∧ env.sys .fcloseScratch = none ∧
      ∀ o, d.world.store.lookup path = some o →
        unpack cx (localName cx path) o.userMeta o.data = decode cx o := by
    intro hm hn
    rw [World.OpensKept, if_neg hm] at hk
    apply hk.resolve_left
    rw [hloc, hn]
    simp
  have hran := openMode_ran (pentryIncRefcount pe) hi.wf
    (fun hm hn => ⟨(hkept hm hn).2.1, (hkept hm hn).2.2.1⟩) ho
  -- the world that is left
  generalize hre : (if ret = -1 then qe else { qe with ondisk := .loc }) = re
  have hrfd : re.fd = qe.fd := by
    rw [← hre]
    split_ifs <;> rfl
  generalize ht : ({ u.setEntry a re with fs := fs } : World) = t
  have htfs : t.fs = fs := by rw [← ht]
  have htst : t.store = d.world.store := by
    rw [← ht]
    exact hl.store
  have htfd : t.fdAt q = if q = path then qe.fd else d.world.fdAt q := by
    rw [← ht, ← hrfd, ← hl.fdAt hi]
    exact hl.inv.fdAt_setEntry hl.hash re
  have hother : ∀ but names, d.world.FreeOf but names → Frame names d.world.fs fs →
      but ≠ some q → q ≠ path → t.file cx q = d.world.file cx q := by
    intro but names hfree hf hne hq
    apply World.file_congr
    · rw [htfd, if_neg hq]
    · rw [htfs]
      exact fun fd hs => hfree.content hi hf hs hne
    · rw [htst]
      exact fun _ => rfl
  cases hran with
  | kept hqfd _ hret =>
    rw [if_neg (fun e => (hret e.2.2).1 e.2.1)]
    apply World.file_congr
    · rw [htfd, hqfd]
      split_ifs with hq
      · rw [hq, hfdp]
        rfl
      · rfl
    · rw [htfs]
      exact fun fd _ => rfl
    · rw [htst]
      exact fun _ => rfl
  | lost hm hn hqfd _ hf =>
    rw [if_neg (fun e => hm e.2.1)]
    by_cases hq : q = path
    · have hs : d.world.fdAt q = none := by
        rw [hq, hfdp]
        exact hn
      rw [if_pos hq, hqfd] at htfd
      rw [World.file_stored hs, World.file_stored htfd, htst]
    · exact hother none _ (hkept hm hn).1 hf (by simp) hq
  | fetched hm hn hqfd hf _ hobj hu hc =>
    rw [if_neg (fun e => hm e.2.1)]
    obtain ⟨hfree, -, -, hdec⟩ := hkept hm hn
    by_cases hq : q = path
    · have hs : d.world.fdAt q = none := by
        rw [hq, hfdp]
        exact hn
      rw [if_pos hq, hqfd] at htfd
      rw [World.file_stored hs, World.file_cached htfd, hq, hobj, Option.bind_some, fileOf,
        if_neg (hdir _ hobj), ← hdec _ hobj, hu, htfs]
      exact hc
    · exact hother none _ hfree hf (by simp) hq
  | made hm hqfd _ hf _ hc =>
    rw [World.OpensKept, if_pos hm] at hk
    by_cases hq : q = path
    · rw [if_pos hq, hqfd] at htfd
      rw [if_pos ⟨hq, hm, rfl⟩, World.file_cached htfd, htfs]
      exact hc
    · rw [if_neg (fun e => hq e.1)]
      apply hother _ _ hk hf _ hq
      simpa using Ne.symm hq

/-- A create that is not refused at once runs the open. -/
theorem dfsCreate_ran {s t : World} {mode : Nat} {flags : OpenFlags} {fh : Option Addr}
    (hco : createOpens cx env s path mode = true)
    (h : dfsCreate cx env s path mode flags = .ok (ret, fh, t)) :
    ∃ r u, dfsOpen cx env s path flags = .ok (r, fh, u) ∧
      (t = u ∨ r ≠ -1 ∧ ∃ a pe pe' fs st, fh = some a ∧ u.heap a = some pe ∧
        createOpened env u.store u.fs path mode (cx.conf.regex path) pe = .ok (ret, pe', fs, st) ∧
        t = { u.setEntry a pe' with fs := fs, store := st }) := by
  have hreg : sIsreg mode = true := by
    rw [createOpens, Bool.and_eq_true] at hco
    exact hco.1
  have hrc : ¬((if cx.conf.regex path = true then Status.success
      else (dplNamei env s.store path).1) ≠ .success ∧
      (if cx.conf.regex path = true then Status.success
      else (dplNamei env s.store path).1) ≠ .enoent) := by
    intro hno
    split_ifs at hno with hx
    · exact hno.1 rfl
    · simp [createOpens, hreg, hx, hno.1, hno.2] at hco
  unfold dfsCreate at h
  rw [if_neg (by simp [hreg])] at h
  dsimp only at h
  rw [if_neg hrc] at h
  obtain ⟨⟨r, gh, u⟩, ho, h⟩ := Except.bind_ok.mp h
  cases gh with
  | none =>
    simp only [Except.ok.injEq, Prod.mk.injEq] at h
    obtain ⟨-, rfl, rfl⟩ := h
    exact ⟨r, u, ho, .inl rfl⟩
  | some a =>
    dsimp only at h
    split_ifs at h with hr
    · simp only [Except.ok.injEq, Prod.mk.injEq] at h
      obtain ⟨-, rfl, rfl⟩ := h
      exact ⟨r, u, ho, .inl rfl⟩
    · obtain ⟨pe, hpe, h⟩ := Except.bind_ok.mp h
      obtain ⟨⟨r', pe', fs, st⟩, hc, h⟩ := Except.bind_ok.mp h
      simp only [Except.ok.injEq, Prod.mk.injEq] at h
      obtain ⟨rfl, rfl, rfl⟩ := h
      exact ⟨r, u, ho, .inr ⟨hr, a, pe, pe', fs, st, rfl, World.deref_ok.mp hpe, hc, rfl⟩⟩

theorem dfsCreate_file {mode : Nat} {flags : OpenFlags} {fh : Option Addr}
    (hD : Durable cx d .empty)
    (hk : d.world.OpensKept cx env path (getModeFromFlags flags))
    (hdir : ∀ o, d.world.store.lookup path = some o → o.ftype ≠ .dir)
    (h : dfsCreate cx env d.world path mode flags = .ok (ret, fh, w)) :
    w.file cx q = if q = path ∧ createOpens cx env d.world path mode = true ∧
        opensAnew cx env d.world path flags = true then some []
      else d.world.file cx q := by
  by_cases hco : createOpens cx env d.world path mode = true
  swap
  · rw [if_neg (fun e => hco e.2.1), (createOpens_false (by simpa using hco) h).2]
  obtain ⟨r, u, ho, hcase⟩ := dfsCreate_ran hco h
  have hanew := opensAnew_iff hD.table ho
  have hu := dfsOpen_file q hD hk hdir ho
  obtain ⟨hiu, -, hgrant⟩ := dfsOpen_inv hD.table ho
  have hsame : w.file cx q = u.file cx q := by
    rcases hcase with rfl | ⟨hr, a, pe, pe', fs, st, rfl, ha, hc, rfl⟩
    · rfl
    obtain ⟨b, re, hb, hre, hpath, hfd, -⟩ := (hgrant.resolve_right hr).2.entry
    obtain rfl : a = b := Option.some.inj hb
    obtain rfl : pe = re := Option.some.inj (ha.symm.trans hre)
    obtain ⟨md, l, rfl, -⟩ := createOpened_spec hiu.wf hc
    obtain ⟨hfile, hst, -⟩ := createOpened_effect hc
    have hlink := hiu.linked a pe ha
    rw [hpath] at hlink
    have hup : u.fdAt path = pe.fd := by
      rw [← hpath]
      exact hiu.fdAt_of_heap ha
    apply World.file_congr
    · apply (hiu.fdAt_setEntry hlink _).trans
      split_ifs with hq
      · rw [hq, hup]
      · rfl
    · exact fun fd _ => (hfile fd).2
    · intro hn
      have hq : q ≠ path := by
        intro hq
        rw [hq, hup] at hn
        rw [hn] at hfd
        cases hfd
      change st.lookup q = _
      rcases hst with rfl | ⟨-, rfl⟩
      · rfl
      · exact AList.lookup_insert_ne hq
  rw [hsame, hu]
  simp only [hco, true_and, hanew]

/-- The file behind a handle has a content. -/
theorem Daemon.Live.shown (cx : Ctx) {h : Handle} (hi : d.world.Inv) (hl : d.Live)
    (hh : h ∈ d.handles) :
    ∃ pe fd f, d.world.heap h.addr = some pe ∧ pe.path = h.path ∧ pe.fd = some fd ∧
      d.world.fs.fds.lookup fd = some f ∧ d.world.fdAt h.path = some fd ∧
      d.world.file cx h.path = some (d.world.fs.inodes f.inode).data := by
  obtain ⟨pe, ha, hp, hfd⟩ := hl.entry h hh
  obtain ⟨fd, hfd⟩ := Option.isSome_iff_exists.mp hfd
  obtain ⟨f, hf, -⟩ := hi.opened h.addr pe fd ha hfd
  have hat : d.world.fdAt h.path = some fd := by
    rw [← hp, hi.fdAt_of_heap ha, hfd]
  refine ⟨pe, fd, f, ha, hp, hfd, hf, hat, ?_⟩
  rw [World.file_cached hat]
  simp [LocalFs.content, inodeOf, hf]

/-- A write that is accepted replaces the bytes it returns the number of; any other does nothing. -/
theorem dfsWrite_file {h : Handle} {buf : Bytes} {offset : Nat} (hD : Durable cx d .empty)
    (hh : h ∈ d.handles) (hw : dfsWrite env d.world h.addr buf offset = .ok (ret, w)) :
    if 0 ≤ ret then ∃ data, d.world.file cx h.path = some data ∧
      w.file cx = Function.update (d.world.file cx) h.path
        (some (PlainFiles.splice 0 data offset (buf.take ret.toNat)))
    else w = d.world := by
  have hi := hD.table
  obtain ⟨pe, fd, f, ha, hp, hfd, hf, hat, hfile⟩ := hD.live.shown cx hi hh
  obtain ⟨qe, hq, ⟨rfl, hno⟩ | ⟨gd, g, hgd, hg, -, rfl, rfl⟩⟩ := dfsWrite_cases hw
  · obtain rfl : pe = qe := Option.some.inj (ha.symm.trans hq)
    have hneg : ret < 0 := by
      apply hno.resolve_left
      rw [hfd]
      simp
    rw [if_neg (by omega)]
  · obtain rfl : pe = qe := Option.some.inj (ha.symm.trans hq)
    obtain rfl : fd = gd := Option.some.inj (hfd.symm.trans hgd)
    obtain rfl : f = g := Option.some.inj (hf.symm.trans hg)
    rw [if_pos (by omega), Int.toNat_natCast, env.take_written]
    refine ⟨_, hfile, funext fun p => ?_⟩
    by_cases hpp : p = h.path
    · have hnew : ∀ fs, World.fdAt { d.world with fs := fs } h.path = some fd := fun _ => hat
      rw [hpp, Function.update_self, World.file_cached (hnew _)]
      simp [LocalFs.content, inodeOf, LocalFs.writeInode, hf]
      rfl
    · rw [Function.update_of_ne hpp]
      refine World.file_congr rfl ?_ fun _ => rfl
      intro kd hk
      -- no other entry has the inode
      obtain ⟨b, re, hb, hrp, hrfd⟩ := hi.heap_of_fdAt hk
      obtain ⟨k, hkd, -⟩ := hi.opened b re kd hb hrfd
      have hne : k.inode ≠ f.inode := by
        intro he
        apply hpp
        have hab : b = h.addr := hD.apart b h.addr re pe kd fd k.inode hb ha hrfd hfd
          (by simp [inodeOf, hkd]) (by simp [inodeOf, hf, he])
        rw [hab, ha, Option.some.injEq] at hb
        rw [← hrp, ← hb, hp]
      simp [LocalFs.content, inodeOf, LocalFs.writeInode, hkd, hne]

/-- A release changes no file, sent or not. -/
theorem dfsRelease_file {h : Handle} (hD : Durable cx d .empty) (hh : h ∈ d.handles)
    (hk : ∀ pe, d.world.heap h.addr = some pe → pe.exclude = false →
      d.world.ReleasesKept cx env h pe)
    (hr : dfsRelease cx env d.world h.path h.flags h.addr = .ok (ret, w)) :
    w.file cx q = d.world.file cx q := by
  have hi := hD.table
  obtain ⟨pe, fd, f, ha, hp, hfd, hf, hat, -⟩ := hD.live.shown cx hi hh
  obtain ⟨qe, pe', fs, st, hq, he, rfl⟩ := dfsRelease_cases hr
  obtain rfl : pe = qe := Option.some.inj (ha.symm.trans hq)
  have hspec := releaseEntry_spec hi.wf he
  have hputs := (releaseEntry_puts he).1
  have hlink := hi.linked h.addr pe ha
  rw [hp] at hlink
  apply World.file_congr
  · apply (hi.fdAt_setEntry hlink pe').trans
    split_ifs with hqp
    · rw [hqp, hat, hspec.fd, hfd]
    · rfl
  · intro kd hkd
    change fs.content kd = d.world.fs.content kd
    unfold releaseEntry at he
    rw [hfd] at he
    dsimp only at he
    split at he
    · rename_i stat _ _
      obtain ⟨pl, hl, he⟩ := Except.bind_ok.mp he
      split_ifs at he with hro hx
      · simp only [Except.ok.injEq, Prod.mk.injEq] at he
        rw [← he.2.2.1]
      · simp only [Except.ok.injEq, Prod.mk.injEq] at he
        rw [← he.2.2.1]
      · simp only [Except.ok.injEq, Prod.mk.injEq] at he
        rw [← he.2.2.1, releaseUpload_reset, (setOffset_file _ fd kd).2]
        by_cases hz : startsWithNoCase cx.conf.compressionMethod textZlib = true
        · obtain ⟨-, rfl⟩ := pentryDecRefcount_ok hl
          have hfree := ((hk pe ha (by simpa using hx)).source hro hz).1
          exact hfree.content hi (uploadFiles_frame cx env h.path hi.wf fd stat).1
            hkd (by simp)
        · rw [uploadFiles_same fun h => (hz h).elim]
    · simp only [Except.ok.injEq, Prod.mk.injEq] at he
      rw [← he.2.2.1, (setOffset_file _ fd kd).2]
  · intro hn
    have hqp : q ≠ h.path := by
      intro hqp
      rw [hqp, hat] at hn
      cases hn
    rcases hputs with rfl | ⟨ob, -, rfl⟩
    · rfl
    · exact AList.lookup_insert_ne hqp

/-- An entry with a cache file is not that of a directory. -/
def NoDirectory : EntryProp := fun _ o pe => pe.fd.isSome → ∀ ob, o = some ob → ob.ftype ≠ .dir

/-- The collector changes no file: what it removes is in the store. -/
theorem gcCallback_file (hD : Durable cx d .empty) (hdir : d.world.All NoDirectory)
    (hx : cx.conf.regex path = false ∨ gcCallback cx env d.world path = d.world) :
    (gcCallback cx env d.world path).file cx q = d.world.file cx q := by
  rcases gcCallback_cases cx env d.world path with he | ⟨pe, hent, h0, -, hrem, he⟩
  · rw [he]
  rcases hx with hx | hx
  swap
  · rw [hx]
  have hi := hD.table
  obtain ⟨a, ha, hpe⟩ := Option.bind_eq_some_iff.mp hent
  obtain ⟨re, hre, hpath⟩ := hi.entry path a ha
  obtain rfl : pe = re := Option.some.inj (hpe.symm.trans hre)
  have hfd : pe.fd.isSome := by
    unfold gcRemoves at hrem
    cases hfd : pe.fd with
    | none => simp [hfd] at hrem
    | some fd => rfl
  have hui := hi.tryUnlink env .unlinkGc (slashName cx path)
  rw [he]
  apply (hui.file_hashRemove q path).trans
  split_ifs with hq
  · obtain ⟨o, data, ho, hdec, hcont⟩ := hD.settled hx hent hfd h0
    have htype := hdir a pe hpe hfd o ho
    rw [hpath] at ho
    have hat : d.world.fdAt path = pe.fd := by
      rw [← hpath]
      exact hi.fdAt_of_heap hpe
    obtain ⟨fd, hpfd⟩ := Option.isSome_iff_exists.mp hfd
    rw [hpfd] at hat hcont
    rw [hq, World.file_cached hat]
    change (d.world.store.lookup path).bind (fileOf cx) = _
    rw [ho, Option.bind_some, fileOf, if_neg htype, hdec]
    exact hcont.symm
  · exact World.file_congr rfl (fun _ _ => tryUnlink_content _ _ _ _ _) fun _ => rfl

end Handles

end DropletFs
