import DropletFs.Durable.Steps

/-! Writes, releases and the collector, and what a whole run keeps. -/

namespace DropletFs

open CText LocalFs

/-- The bytes of `buf` are in place from `off` on, and the others stay. -/
theorem pokeBytes_getElem? (data : Bytes) (off : Nat) (buf : Bytes) (i : Nat) :
    (off ≤ i → i < off + buf.length → (pokeBytes data off buf)[i]? = buf[i - off]?) ∧
    (¬(off ≤ i ∧ i < off + buf.length) → i < data.length →
      (pokeBytes data off buf)[i]? = data[i]?) := by
  have hlen : (data.take off ++ List.replicate (off - data.length) (0 : UInt8)).length = off := by
    simp
    omega
  by_cases hb : buf.isEmpty = true
  · rw [List.isEmpty_iff.mp hb]
    exact ⟨fun h1 h2 => absurd h2 (by simpa using h1), fun _ _ => rfl⟩
  unfold pokeBytes
  rw [if_neg hb]
  constructor
  · intro h1 h2
    rw [List.append_assoc, List.getElem?_append_right (by omega), hlen,
      List.getElem?_append_left (by omega)]
  · intro h1 h2
    rcases Nat.lt_or_ge i off with hi | hi
    · rw [List.append_assoc, List.append_assoc, List.getElem?_append_left (by simp; omega),
        List.getElem?_take_of_lt hi]
    · have hge : off + buf.length ≤ i := by
        by_contra hlt
        exact h1 ⟨hi, by omega⟩
      rw [List.getElem?_append_right (by rw [List.length_append, hlen]; omega), List.length_append,
        hlen, List.getElem?_drop]
      congr 1
      omega

theorem Env.take_written (env : Env) (buf : Bytes) :
    buf.take (env.written buf).length = env.written buf := by
  unfold Env.written
  cases env.cut with
  | none => simp
  | some n => simp

section

variable {cx : Ctx} {d : Daemon} {E : Ledger}

theorem Durable.dfsWrite {env : Env} {i : Nat} {h : Handle} {buf : Bytes} {offset : Nat}
    {ret : Int} {w : World} (hD : Durable cx d E) (hi : d.handles[i]? = some h)
    (hc : h.flags.acc.canWrite = true)
    (hflag : ∀ pe, d.world.heap h.addr = some pe → cx.conf.regex h.path = false →
      pe.flag = .dirty)
    (hw : dfsWrite env d.world h.addr buf offset = .ok (ret, w)) :
    Durable cx ⟨w, d.handles⟩
      (if 0 ≤ ret then E.record h.path offset (buf.take ret.toNat) else E) := by
  have hmem : h ∈ d.handles := List.mem_of_getElem? hi
  obtain ⟨qe, hqe, hqp, hqf⟩ := hD.live.entry h hmem
  obtain ⟨pe, hpe, ⟨rfl, hnone⟩ | ⟨fd, f, hfd, hf, _, rfl, rfl⟩⟩ := dfsWrite_cases hw
  · rw [hqe, Option.some.injEq] at hpe
    subst hpe
    rcases hnone with hnone | hneg
    · rw [hnone] at hqf
      cases hqf
    · rw [if_neg (by omega)]
      exact hD
  · rw [hqe, Option.some.injEq] at hpe
    subst hpe
    rw [if_pos (by omega), Int.toNat_natCast, env.take_written]
    have hinv := hD.table.withFs (hD.table.wf.writeInode f.inode
      (pokeBytes (d.world.fs.inodes f.inode).data offset (env.written buf))) rfl
    have hino : d.world.fs.inodeOf fd = some f.inode := by simp [inodeOf, hf]
    refine hD.own (a := h.addr) ⟨rfl, fun _ _ => rfl, fun b re gd hb hre hgd => ?_,
      fun _ _ => rfl, fun b _ => ⟨rfl, fun g hg _ => hg⟩⟩ hqe hqp hqe hqp hinv
      (hD.live.of_keeps (.of_heap rfl)) ?_ (fun hx => hqp ▸ hD.excluded _ _ hqe hx) ?_ ?_
    · obtain ⟨g, hg, _⟩ := hD.table.opened b re gd hre hgd
      have hgi : d.world.fs.inodeOf gd = some g.inode := by simp [inodeOf, hg]
      have hne : g.inode ≠ f.inode := by
        intro he
        exact hb (hD.apart b h.addr re qe gd fd g.inode hre hqe hgd hfd hgi (he ▸ hino))
      refine ⟨rfl, ?_⟩
      simp [LocalFs.content, inodeOf, LocalFs.writeInode, hg, hne]
    · intro b re gd kd j hb hre hgd hkd hj hj'
      exact hb (hD.apart b h.addr re qe gd kd j hre hqe hgd hkd hj hj')
    · intro q hq
      exact Function.update_of_ne hq _ _
    · intro hr
      have he := hD.entry h.addr qe hqe (hqp ▸ hr)
      refine ⟨fun hcl => ?_, fun _ => .inr (.inr ⟨h, hmem, rfl, ?_⟩), fun data hd j b hb => ?_,
        fun hlo => (hlo ((hD.table.cached _ _ hqe).mpr hqf)).elim⟩
      · rw [hflag qe hqe hr] at hcl
        cases hcl
      · intro hro
        rw [hro] at hc
        cases hc
      · have hold := he.cached (d.world.fs.inodes f.inode).data
          (by simp [hfd, LocalFs.content, inodeOf, hf]) j
        have hdata : data = pokeBytes (d.world.fs.inodes f.inode).data offset
          (env.written buf) := by
          simpa [hfd, LocalFs.content, inodeOf, hf, LocalFs.writeInode, eq_comm] using hd
        rw [hqp] at hb hold
        obtain ⟨hin, hout⟩ := pokeBytes_getElem? (d.world.fs.inodes f.inode).data offset
          (env.written buf) j
        rw [Ledger.record, Function.update_self] at hb
        rw [hdata]
        split_ifs at hb with hrange
        · rw [hin hrange.1 hrange.2, hb]
        · have hj := hold b hb
          rw [hout hrange (List.getElem?_eq_some_iff.mp hj).1, hj]

/-- What a release needs to lose nothing: it reaches its upload, works on files of its own, a
compressed file is flushed, and the upload goes through or has nothing new to send. -/
structure World.ReleasesKept (cx : Ctx) (w : World) (env : Env) (h : Handle) (pe : Entry) :
    Prop where
  reached : cx.conf.regex h.path = false → env.sys .fstatRelease = none
  source : h.flags.acc ≠ .rdonly → startsWithNoCase cx.conf.compressionMethod textZlib = true →
    w.FreeOf none [collapse (scratchName (slashName cx h.path))] ∧
    ∀ fd, pe.fd = some fd → CompressesOwn cx w.fs h.path fd
  flush : h.flags.acc ≠ .rdonly → startsWithNoCase cx.conf.compressionMethod textZlib = true →
    env.sys .fflushZipped = none
  upload : h.flags.acc ≠ .rdonly → cx.conf.regex h.path = false →
    env.Uploads h.path ∧ w.store.ftype? h.path ≠ some .dir ∨ w.Synced cx pe

theorem setOffset_file (fs : LocalFs) (fd k : Nat) :
    (fs.setOffset fd 0).inodeOf k = fs.inodeOf k ∧
    (fs.setOffset fd 0).content k = fs.content k := by
  unfold LocalFs.setOffset
  cases hf : fs.fds.lookup fd with
  | none => exact ⟨rfl, rfl⟩
  | some f =>
    by_cases he : k = fd
    · subst he
      simp [LocalFs.content, inodeOf, hf]
    · simp [LocalFs.content, inodeOf, AList.lookup_insert_ne he]

theorem mem_eraseIdx_of_ne {hs : List Handle} {i : Nat} {g h : Handle} (hi : hs[i]? = some h)
    (hg : g ∈ hs) (hne : g ≠ h) : g ∈ hs.eraseIdx i := by
  obtain ⟨hlt, hget⟩ := List.getElem?_eq_some_iff.mp hi
  have hp := (List.getElem_cons_eraseIdx_perm hlt).mem_iff.mpr hg
  rw [hget, List.mem_cons] at hp
  exact hp.resolve_left hne

/-- A release takes its handle back; what is left of its entry is up to date. -/
theorem Durable.released {i : Nat} {h : Handle} {w : World} {pe pe' : Entry} {fs : LocalFs}
    {st : Store} (hD : Durable cx d E) (hi : d.handles[i]? = some h)
    (hpe : d.world.heap h.addr = some pe) (hpp : pe.path = h.path)
    (hw : w = { d.world.setEntry h.addr pe' with fs := fs, store := st }) (hinv : w.Inv)
    (hlive : Daemon.Live ⟨w, d.handles.eraseIdx i⟩) (hr : Released d.world.fs pe fs pe')
    (hfile : ∀ b re gd, d.world.heap b = some re → re.fd = some gd →
      fs.inodeOf gd = d.world.fs.inodeOf gd ∧ fs.content gd = d.world.fs.content gd)
    (hstore : ∀ q, q ≠ h.path → st.lookup q = d.world.store.lookup q)
    (hown : cx.conf.regex h.path = false →
      EntryOk cx ⟨w, d.handles.eraseIdx i⟩ E h.addr pe') :
    Durable cx ⟨w, d.handles.eraseIdx i⟩ E := by
  subst hw
  refine hD.own (a := h.addr) ⟨rfl, fun b hb => World.setEntry_heap_of_ne hb pe',
    fun b re gd _ hre hgd => hfile b re gd hre hgd, hstore, fun b hb => ⟨?_, fun g hg hgb => ?_⟩⟩
    hpe hpp (World.setEntry_heap_self _ _ _) (hr.update.path.trans hpp) hinv hlive ?_ ?_
    (fun _ _ => rfl) hown
  · have hcount := Daemon.handlesOn_eraseIdx d.world
      { d.world.setEntry h.addr pe' with fs := fs, store := st } hi b
    rw [if_neg (Ne.symm hb)] at hcount
    exact hcount.symm
  · refine mem_eraseIdx_of_ne hi hg ?_
    rintro rfl
    exact hb hgb.symm
  · intro b re gd kd j hb hre hgd hkd hj hj'
    rw [hr.fd] at hkd
    rw [show ({ d.world.setEntry h.addr pe' with fs := fs, store := st } : World).fs.inodeOf kd =
      d.world.fs.inodeOf kd from (hfile _ _ _ hpe hkd).1] at hj'
    exact hb (hD.apart b h.addr re pe gd kd j hre hpe hgd hkd hj hj')
  · intro hx
    rw [hr.exclude] at hx
    exact hpp ▸ hD.excluded _ _ hpe hx

theorem Durable.dfsRelease {env : Env} {i : Nat} {h : Handle} {ret : Int} {w : World}
    (hD : Durable cx d E) (hi : d.handles[i]? = some h)
    (hk : ∀ pe, d.world.heap h.addr = some pe → pe.exclude = false →
      d.world.ReleasesKept cx env h pe)
    (hr : dfsRelease cx env d.world h.path h.flags h.addr = .ok (ret, w)) :
    Durable cx ⟨w, d.handles.eraseIdx i⟩ E := by
  obtain ⟨hinv, hkeep⟩ := dfsRelease_inv hD.table hr
  have hlive := hD.live.release hi hkeep
  have hmem : h ∈ d.handles := List.mem_of_getElem? hi
  obtain ⟨pe, hpe, hpp, hpf⟩ := hD.live.entry h hmem
  obtain ⟨qe, pe', fs, st, hqe, he, hw⟩ := dfsRelease_cases hr
  rw [hpe, Option.some.injEq] at hqe
  subst hqe
  have hrel := releaseEntry_spec hD.table.wf he
  obtain ⟨fd, hfd⟩ := Option.isSome_iff_exists.mp hpf
  obtain ⟨f, hf, hcf⟩ := hD.table.opened _ _ _ hpe hfd
  have hfin := hD.released hi hpe hpp hw hinv hlive hrel
  have hown := fun hx => hD.entry h.addr pe hpe (hpp ▸ hx)
  have hcontent : d.world.fs.content fd = some (d.world.fs.inodes f.inode).data := by
    simp [LocalFs.content, inodeOf, hf]
  have hlocal : pe.ondisk = .loc := (hD.table.cached _ _ hpe).mpr hpf
  have hcount := Daemon.handlesOn_eraseIdx d.world w hi h.addr
  rw [if_pos rfl] at hcount
  change d.handlesOn h.addr = _ at hcount
  unfold releaseEntry at he
  rw [hfd] at he
  dsimp only at he
  split at he
  · rename_i stat hsys hstat
    obtain ⟨pl, hl, he⟩ := Except.bind_ok.mp he
    obtain ⟨hpos, rfl⟩ := pentryDecRefcount_ok hl
    by_cases hro : h.flags.acc = .rdonly
    · rw [if_pos hro] at he
      simp only [Except.ok.injEq, Prod.mk.injEq] at he
      obtain ⟨_, rfl, rfl, rfl⟩ := he
      refine hfin (fun _ _ _ _ _ => ⟨rfl, rfl⟩) (fun _ _ => rfl) fun hx => ?_
      have ho := hown hx
      have hsy : d.world.Synced cx pe → w.Synced cx { pe with refcount := pe.refcount - 1 } :=
        fun hs => hs.congr rfl (by rw [hw]) (by rw [hw])
      refine ⟨fun hcl => hsy (ho.clean hcl), fun hlo => ?_, fun data hd => ?_,
        fun hlo => (hlo hlocal).elim⟩
      · rcases ho.settled hlo with hs | hlt | ⟨g, hg, hga, hacc⟩
        · exact .inl (hsy hs)
        · refine .inr (.inl ?_)
          change _ < pe.refcount - 1
          change d.handlesOn h.addr < pe.refcount at hlt
          omega
        · refine .inr (.inr ⟨g, mem_eraseIdx_of_ne hi hg ?_, hga, hacc⟩)
          rintro rfl
          exact hacc hro
      · refine ho.cached data ?_
        rw [← hd, hw]
    · rw [if_neg hro] at he
      by_cases hx : pe.exclude = true
      · rw [if_pos hx] at he
        simp only [Except.ok.injEq, Prod.mk.injEq] at he
        obtain ⟨_, rfl, rfl, rfl⟩ := he
        refine hfin (fun _ _ _ _ _ => ⟨rfl, rfl⟩) (fun _ _ => rfl) fun hn => ?_
        rw [← hpp, hD.excluded _ _ hpe hx] at hn
        cases hn
      · rw [if_neg hx] at he
        obtain ⟨_, hsource, hflush, hupload⟩ := hk pe hpe (by simpa using hx)
        replace hsource := hsource hro
        replace hupload := hupload hro
        simp only [Except.ok.injEq, Prod.mk.injEq] at he
        obtain ⟨rfl, hpe', rfl, rfl⟩ := he
        have hfdpe' : pe'.fd = pe.fd := hrel.fd
        -- the scratch file is none of the cache files
        have hfile : ∀ b re gd, d.world.heap b = some re → re.fd = some gd →
            (uploadFiles cx env d.world.fs h.path fd stat).inodeOf gd = d.world.fs.inodeOf gd ∧
            (uploadFiles cx env d.world.fs h.path fd stat).content gd =
              d.world.fs.content gd := by
          intro b re gd hre hgd
          by_cases hz : startsWithNoCase cx.conf.compressionMethod textZlib = true
          · obtain ⟨g, hg, _⟩ := hD.table.opened b re gd hre hgd
            exact (uploadFiles_frame cx env h.path hD.table.wf fd stat).1.file
              hD.table.wf hg
              ((hsource hz).1 b re gd g.inode hre (by simp) hgd (by simp [inodeOf, hg]))
          · rw [uploadFiles_same fun h => (hz h).elim]
            exact ⟨rfl, rfl⟩
        have hfile' : ∀ b re gd, d.world.heap b = some re → re.fd = some gd →
            ((releaseUpload cx env d.world.store d.world.fs h.path fd stat).2.1.setOffset fd
              0).inodeOf gd = d.world.fs.inodeOf gd ∧
            ((releaseUpload cx env d.world.store d.world.fs h.path fd stat).2.1.setOffset fd
              0).content gd = d.world.fs.content gd := by
          intro b re gd hre hgd
          rw [releaseUpload_reset]
          obtain ⟨h1, h2⟩ := setOffset_file (uploadFiles cx env d.world.fs h.path fd stat) fd gd
          obtain ⟨h3, h4⟩ := hfile b re gd hre hgd
          exact ⟨h1.trans h3, h2.trans h4⟩
        have hdone : (releaseUpload cx env d.world.store d.world.fs h.path fd stat).1 = 0 →
            ∃ o, (releaseUpload cx env d.world.store d.world.fs h.path fd stat).2.2 =
              d.world.store.insert h.path o ∧
                decode cx o = some (d.world.fs.inodes f.inode).data := by
          intro h0
          obtain ⟨o, ho, _, hdec⟩ := releaseUpload_decodes hD.table.wf hf hcf.1
            (fun hz => (hsource hz).2 fd hfd) (hflush hro) (Prod.ext h0 rfl)
          exact ⟨o, ho, hdec⟩
        refine hfin hfile' (fun q hq => ?_) fun hn => ?_
        · by_cases h0 : (releaseUpload cx env d.world.store d.world.fs h.path fd stat).1 = 0
          · obtain ⟨o, ho, _⟩ := hdone h0
            rw [ho, AList.lookup_insert_ne hq]
          · rw [releaseUpload_failed h0]
        · have hcont : pe'.fd.bind w.fs.content = some (d.world.fs.inodes f.inode).data := by
            rw [hfdpe', hfd, Option.bind_some, ← hcontent, hw]
            exact (hfile' _ _ _ hpe hfd).2
          have hsync : w.Synced cx pe' := by
            by_cases h0 : (releaseUpload cx env d.world.store d.world.fs h.path fd stat).1 = 0
            · obtain ⟨o, ho, hdec⟩ := hdone h0
              refine ⟨o, _, ?_, hdec, hcont⟩
              rw [hw, hrel.update.path, hpp]
              change (releaseUpload cx env d.world.store d.world.fs h.path fd stat).2.2.lookup _ = _
              rw [ho, AList.lookup_insert]
            · rcases hupload hn with ⟨hu, hdir⟩ | hs
              · exact (h0 (releaseUpload_completes hf hu hdir fun hz => (hsource hz).2 fd hfd)).elim
              · refine hs.congr hrel.update.path ?_ ?_
                · rw [hw]
                  change
                    (releaseUpload cx env d.world.store d.world.fs h.path fd stat).2.2.lookup _ =
                    _
                  rw [releaseUpload_failed h0]
                · rw [hcont, hfd, Option.bind_some, hcontent]
          refine ⟨fun _ => hsync, fun _ => .inl hsync, fun data hd => ?_, fun hlo => ?_⟩
          · rw [hrel.update.path]
            refine (hown hn).cached data ?_
            rw [hfd, Option.bind_some, hcontent, ← hcont]
            exact hd
          · rw [hrel.ondisk] at hlo
            exact (hlo hlocal).elim
  · rename_i hne
    simp only [Except.ok.injEq, Prod.mk.injEq] at he
    obtain ⟨_, _, rfl, rfl⟩ := he
    refine hfin (fun b re gd _ _ => setOffset_file _ fd gd) (fun _ _ => rfl) fun hn => ?_
    -- the descriptor is open, so only an error of the call itself leads here
    have hstat : ∃ stat, d.world.fs.fstat fd env.times = some stat := by
      simp [LocalFs.fstat, inodeOf, hf]
    obtain ⟨stat, hstat⟩ := hstat
    have hx : pe.exclude = false := by
      by_contra hx
      rw [← hpp, hD.excluded _ _ hpe (by simpa using hx)] at hn
      cases hn
    exact (hne stat ((hk pe hpe hx).reached hn) hstat).elim

/-- The collector removes an entry without handles, whose content is in the store. -/
theorem Durable.gc {env : Env} {path : Path} (hD : Durable cx d E) :
    Durable cx ⟨gcCallback cx env d.world path, d.handles⟩ E := by
  have hinv := gcCallback_inv cx env path hD.table
  have hlive := gcCallback_live cx env path hD.live
  rcases gcCallback_cases cx env d.world path with he | ⟨pe, hent, h0, _, hrem, he⟩
  · rw [he]
    exact hD
  obtain ⟨a, ha, hpe⟩ := Option.bind_eq_some_iff.mp hent
  have hpp : pe.path = path := by
    obtain ⟨qe, hqe, hqp⟩ := hD.table.entry path a ha
    rw [hpe, Option.some.injEq] at hqe
    rw [hqe, hqp]
  obtain ⟨fd, hfd⟩ : ∃ fd, pe.fd = some fd := by
    unfold gcRemoves at hrem
    cases hfd : pe.fd with
    | none => simp [hfd] at hrem
    | some fd => exact ⟨fd, rfl⟩
  rw [he] at hinv hlive ⊢
  have hgf := tryUnlink_fds env .unlinkGc d.world.fs (slashName cx path)
  have hgi := tryUnlink_inodes env .unlinkGc d.world.fs (slashName cx path)
  generalize d.world.fs.tryUnlink env .unlinkGc (slashName cx path) = gs at *
  have hheap : ∀ b, ({ d.world with fs := gs }.hashRemove path).heap b =
      if b = a then none else d.world.heap b := by
    intro b
    rw [World.hashRemove_heap]
    simp only [ha, Option.some.injEq, eq_comm]
  have hold : ∀ b qe, ({ d.world with fs := gs }.hashRemove path).heap b = some qe →
      b ≠ a ∧ d.world.heap b = some qe ∧ qe.path ≠ path := by
    intro b qe hb
    rw [hheap] at hb
    split_ifs at hb with hba
    refine ⟨hba, hb, fun hq => hba ?_⟩
    have hlk := hD.table.linked b qe hb
    rw [hq, ha, Option.some.injEq] at hlk
    exact hlk.symm
  have hfds : ({ d.world with fs := gs }.hashRemove path).fs = gs.close fd := by
    simp [World.hashRemove, World.pentryFree, ha, hpe, hfd, LocalFs.closeOpt]
  have hfile : ∀ b qe gd, b ≠ a → d.world.heap b = some qe → qe.fd = some gd →
      (gs.close fd).inodeOf gd = d.world.fs.inodeOf gd ∧
      (gs.close fd).content gd = d.world.fs.content gd := by
    intro b qe gd hb hqe hgd
    have hne : gd ≠ fd := by
      rintro rfl
      exact hb (hD.table.distinct b a qe pe gd hqe hpe hgd hfd)
    simp [LocalFs.content, inodeOf, LocalFs.close, hgf, hgi, AList.lookup_erase_ne hne]
  refine ⟨hinv, hlive, ?_, ?_, ?_, ?_⟩
  · intro b c qe re gd kd i hb hc hgd hkd hi1 hi2
    obtain ⟨hbn, hb', _⟩ := hold b qe hb
    obtain ⟨hcn, hc', _⟩ := hold c re hc
    rw [hfds] at hi1 hi2
    rw [(hfile b qe gd hbn hb' hgd).1] at hi1
    rw [(hfile c re kd hcn hc' hkd).1] at hi2
    exact hD.apart b c qe re gd kd i hb' hc' hgd hkd hi1 hi2
  · exact fun b qe hb hx => hD.excluded b qe (hold b qe hb).2.1 hx
  · intro b qe hb hr
    obtain ⟨hbn, hb', hq⟩ := hold b qe hb
    have heo := hD.entry b qe hb' hr
    have hc : qe.fd.bind (gs.close fd).content = qe.fd.bind d.world.fs.content := by
      cases hqf : qe.fd with
      | none => rfl
      | some gd => exact (hfile b qe gd hbn hb' hqf).2
    have hsy : d.world.Synced cx qe → World.Synced cx
        ({ d.world with fs := gs }.hashRemove path) qe :=
      fun hs => hs.congr rfl (by rw [World.hashRemove_store]) (by rw [hfds, hc])
    refine ⟨fun hcl => hsy (heo.clean hcl), fun hlo => (heo.settled hlo).imp hsy id,
      fun data hd => ?_, fun hlo => (heo.stored hlo).congr (by rw [World.hashRemove_store])⟩
    refine heo.cached data ?_
    rw [← hc]
    rw [hfds] at hd
    exact hd
  · intro p hp hr
    rw [World.hashRemove_hash] at hp
    by_cases hpe' : p = path
    · subst hpe'
      have heo := hD.entry a pe hpe (hpp ▸ hr)
      -- no handle is left, so the content is that of the object
      have hsync : d.world.Synced cx pe := by
        have hle := hD.live.counted a pe hpe
        rcases heo.settled ((hD.table.cached a pe hpe).mpr (by rw [hfd]; rfl)) with
          hs | hlt | ⟨g, hg, hga, _⟩
        · exact hs
        · omega
        · have := Daemon.handlesOn_pos hg
          rw [hga] at this
          omega
      obtain ⟨o, data, ho, hdec, hcont⟩ := hsync
      intro i b hb
      refine ⟨o, data, by rw [World.hashRemove_store, ← hpp]; exact ho, hdec, ?_⟩
      exact heo.cached data hcont i b (hpp ▸ hb)
    · rw [if_neg hpe'] at hp
      exact (hD.absent p hp hr).congr (by rw [World.hashRemove_store])

end

end DropletFs
