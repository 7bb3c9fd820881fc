import DropletFs.Model.Sample
import DropletFs.Release.RoundTrip
import DropletFs.Table.Origins

/-! What `dfs_release` hands to `dpl_openwrite`: the bytes, the size it declares for them and the
metadata that say how to read them. -/

namespace DropletFs

open CText LocalFs

/-- What `dfs_release` hands to `dpl_openwrite`, when it gets there. -/
def handedAt (cx : Ctx) (env : Env) (zfd : Nat) (fs : LocalFs) (path : Path) (fd : Nat)
    (stat : Stat) : Option Upload :=
  if !env.lib .releaseDict then none
  else
    let size := toU64 stat.size
    let dict := fillMetadataFromStat env Dict.empty stat
    let locname := tmpstr (cx.conf.cacheDir ++ ['/'] ++ path)
    if startsWithNoCase cx.conf.compressionMethod textZlib then
      (zipUploadAt cx env zfd fs fd locname (scratchName locname) size dict).1
    else some ⟨fs.remaining fd, true, size, dict⟩

section Handed

variable {cx : Ctx} {env : Env} {fs : LocalFs} {path : Path} {fd : Nat} {stat : Stat}

variable (cx env fs path fd stat) in
/-- The upload of a release is that of what it hands over. -/
theorem releaseUpload_handed (st : Store) :
    ∃ fs', releaseUpload cx env st fs path fd stat =
      match handedAt cx env fs.scratchFd fs path fd stat with
      | none => (-1, fs', st)
      | some up => ((sendUpload cx env st path up).1, fs', (sendUpload cx env st path up).2.1) := by
  unfold releaseUpload handedAt
  dsimp only
  by_cases hd : env.lib .releaseDict = true
  · rw [hd]
    by_cases hz : startsWithNoCase cx.conf.compressionMethod textZlib = true
    · simp only [hz, Bool.not_true, Bool.false_eq_true, if_false, if_true, zipUpload_at]
      generalize zipUploadAt cx env fs.scratchFd fs fd _ _ _ _ = r
      obtain ⟨up, fs₁⟩ := r
      cases up with
      | none => exact ⟨_, rfl⟩
      | some up => exact ⟨_, rfl⟩
    · simp only [hz, Bool.not_true, Bool.false_eq_true, if_false]
      exact ⟨_, rfl⟩
  · rw [Bool.not_eq_true] at hd
    simp only [hd, Bool.not_false, if_true]
    exact ⟨fs, rfl⟩

theorem toU64_length {b : Bytes} (h : b.length < 2 ^ 64) : toU64 (b.length : Int) = b.length := by
  unfold toU64
  omega

/-- Without compression the upload reads through the descriptor of the entry. -/
theorem releaseUpload_reads (hz : startsWithNoCase cx.conf.compressionMethod textZlib = false)
    (hd : env.lib .releaseDict = true) (st : Store) :
    (releaseUpload cx env st fs path fd stat).2.1 =
      fs.advance fd (sendUpload cx env st path
        ⟨fs.remaining fd, true, toU64 stat.size, fillMetadataFromStat env Dict.empty stat⟩).2.2 := by
  unfold releaseUpload
  simp only [hd, hz, Bool.not_true, Bool.false_eq_true, if_false]
  rfl

end Handed

/-- The descriptors of the cache are at their start, and a release that returns 0 has sent what the
cache file holds. -/
structure Daemon.SendsWhole (cx : Ctx) (d : Daemon) : Prop where
  start : ∀ key pe fd, d.world.entry key = some pe → pe.fd = some fd →
    ∃ f, d.world.fs.fds.lookup fd = some f ∧ f.offset = 0
  /-- What is handed over is the whole file with its length, which is below `2^64`; all of it goes
  through `dpl_write`, in order, which takes the descriptor to the end of the file; and the store is
  what the upload of it leaves. -/
  release : ∀ h ∈ d.handles, h.flags.acc ≠ .rdonly → cx.conf.regex h.path = false →
    ∀ env t, dfsRelease cx env d.world h.path h.flags h.addr = .ok (0, t) →
    ∃ pe fd content stat up, d.world.heap h.addr = some pe ∧ pe.fd = some fd ∧
      d.world.fs.content fd = some content ∧ d.world.fs.fstat fd env.times = some stat ∧
      handedAt cx env d.world.fs.scratchFd d.world.fs h.path fd stat = some up ∧
      up.payload = content ∧ (content.length < 2 ^ 64 → up.size = content.length) ∧
      readWriteAllVfile env h.path (content.length + 1) 0 content = (true, content) ∧
      (∃ f, (releaseUpload cx env d.world.store d.world.fs h.path fd stat).2.1.fds.lookup fd =
        some f ∧ f.offset = content.length) ∧
      (sendUpload cx env d.world.store h.path up).2.1 = t.store ∧
      (t.store.lookup h.path).map (·.data) = some (cipher cx content)

section Whole

variable {cx : Ctx} {env : Env} {st st' : Store} {fs fs' : LocalFs} {path : Path}

/-- An upload that went through has passed on the whole payload. -/
theorem sendUpload_passed {up : Upload} (h : (sendUpload cx env st path up).1 = 0) :
    readWriteAllVfile env path (up.payload.length + 1) 0 up.payload = (true, up.payload) := by
  have hs : (readWriteAllVfile env path (up.payload.length + 1) 0 up.payload).1 = true := by
    unfold sendUpload at h
    dsimp only at h
    by_cases ho : env.remote (.openwrite path) ≠ .success ∨ st.ftype? path = some .dir
    · simp [ho] at h
    rw [if_neg ho] at h
    split at h
    · simp at h
    · rename_i sent hs
      rw [hs]
  have hfull := readWriteAllVfile_ok env path (up.payload.length + 1) 0 up.payload
    (Nat.lt_succ_self _) hs
  exact Prod.ext hs hfull

/-- An upload that went through has read as many bytes as it has sent. -/
theorem sendUpload_count {up : Upload} (h : (sendUpload cx env st path up).1 = 0) :
    (sendUpload cx env st path up).2.2 = up.payload.length := by
  have hpass := sendUpload_passed h
  unfold sendUpload at h ⊢
  dsimp only at h ⊢
  by_cases ho : env.remote (.openwrite path) ≠ .success ∨ st.ftype? path = some .dir
  · simp [ho] at h
  rw [if_neg ho, hpass]
  dsimp only
  split_ifs <;> rfl

/-- A release for writing that returned 0 has handed something over and sent it. -/
theorem releaseEntry_handed {flags : OpenFlags} {pe pe' : Entry} (hw : flags.acc ≠ .rdonly)
    (hx : pe.exclude = false)
    (h : releaseEntry cx env st fs path flags pe = .ok (0, pe', fs', st')) :
    ∃ fd stat up, pe.fd = some fd ∧ fs.fstat fd env.times = some stat ∧
      handedAt cx env fs.scratchFd fs path fd stat = some up ∧
      ∃ n, sendUpload cx env st path up = (0, st', n) := by
  unfold releaseEntry at h
  cases hfd : pe.fd with
  | none => simp [hfd] at h
  | some fd =>
    rw [hfd] at h
    dsimp only at h
    split at h
    · rename_i stat _ hstat
      obtain ⟨qe, hq, h⟩ := Except.bind_ok.mp h
      obtain ⟨_, rfl⟩ := pentryDecRefcount_ok hq
      rw [if_neg hw, if_neg (by simp [hx])] at h
      obtain ⟨fs₁, hup⟩ := releaseUpload_handed cx env fs path fd stat st
      rw [hup] at h
      cases hh : handedAt cx env fs.scratchFd fs path fd stat with
      | none => simp [hh] at h
      | some up =>
        simp only [hh, Except.ok.injEq, Prod.mk.injEq] at h
        exact ⟨fd, stat, up, rfl, hstat, hh, _, Prod.ext h.1 (Prod.ext h.2.2.2 rfl)⟩
    · simp at h

/-- What is handed over without compression. -/
theorem handedAt_plain (hz : startsWithNoCase cx.conf.compressionMethod textZlib = false)
    (zfd : Nat) {fd : Nat} {stat : Stat} {up : Upload}
    (h : handedAt cx env zfd fs path fd stat = some up) :
    env.lib .releaseDict = true ∧
      up = ⟨fs.remaining fd, true, toU64 stat.size, fillMetadataFromStat env Dict.empty stat⟩ := by
  unfold handedAt at h
  cases hd : env.lib .releaseDict with
  | false => simp [hd] at h
  | true =>
    simp only [hd, hz, Bool.not_true, Bool.false_eq_true, if_false, Option.some.injEq] at h
    exact ⟨rfl, h.symm⟩

/-- In every reachable state, with compression off. -/
theorem release_sends_whole (cx : Ctx)
    (hz : startsWithNoCase cx.conf.compressionMethod textZlib = false) (d : Daemon)
    (hd : d.Reachable cx) : d.SendsWhole cx := by
  have hi := hd.inv
  have ho := hd.original
  have hstart : ∀ a pe fd, d.world.heap a = some pe → pe.fd = some fd →
      ∃ f, d.world.fs.fds.lookup fd = some f ∧ f.offset = 0 := by
    intro a pe fd ha hfd
    obtain ⟨f, hf, hc⟩ := hi.opened a pe fd ha hfd
    exact ⟨f, hf, hc.1⟩
  refine ⟨?_, ?_⟩
  · intro key pe fd he hfd
    obtain ⟨a, -, ha⟩ := Option.bind_eq_some_iff.mp he
    exact hstart a pe fd ha hfd
  · intro h hh hw hx env t hr
    obtain ⟨pe, pe', fs, st, ha, hre, rfl⟩ := dfsRelease_cases hr
    have horigin := ho.origin h.addr pe ha
    have hpath : pe.path = h.path := horigin.1 h hh rfl
    have hex : pe.exclude = false := by
      cases hb : pe.exclude with
      | false => rfl
      | true =>
        have hrx := horigin.2 hb
        rw [hpath, hx] at hrx
        cases hrx
    obtain ⟨fd, stat, up, hfd, hstat, hup, n, hsend⟩ := releaseEntry_handed hw hex hre
    obtain ⟨f, hf, h0⟩ := hstart h.addr pe fd ha hfd
    have hrem := remaining_eq hf h0
    obtain ⟨hdict, hplain⟩ := handedAt_plain hz d.world.fs.scratchFd hup
    have hcontent : d.world.fs.content fd = some (d.world.fs.remaining fd) := by
      rw [hrem]
      simp [LocalFs.content, inodeOf, hf]
    have hsize : stat.size = ((d.world.fs.remaining fd).length : Int) := by
      simp only [LocalFs.fstat, inodeOf, hf, Option.map_some, Option.some.injEq] at hstat
      rw [← hstat, hrem]
    have hpay : up.payload = d.world.fs.remaining fd := by rw [hplain]
    have h0' : (sendUpload cx env d.world.store h.path up).1 = 0 := congrArg Prod.fst hsend
    refine ⟨pe, fd, d.world.fs.remaining fd, stat, up, ha, hfd, hcontent, hstat, hup, hpay, ?_, ?_,
      ?_, congrArg (·.2.1) hsend, ?_⟩
    · intro hlen
      rw [hplain]
      dsimp only
      rw [hsize]
      exact toU64_length hlen
    · have hpass := sendUpload_passed h0'
      rwa [hpay] at hpass
    · rw [releaseUpload_reads hz hdict, ← hplain, sendUpload_count h0', hpay, LocalFs.advance, hf]
      refine ⟨_, AList.lookup_insert _, ?_⟩
      dsimp only
      rw [h0, Nat.zero_add]
    · dsimp only
      rw [sendUpload_zero hsend, AList.lookup_insert, Option.map_some, putObj_data, hpay]

/-- The upload of a release fails after its first block, and `/f` is opened again. -/
def resumed (cx : Ctx) : Except Fault Daemon :=
  Transition.exec (Daemon.step cx) (Sample.daemon [(['/', 'f'], Sample.file [1, 2])])
    [Sample.call (.open ['/', 'f'] Sample.writeAppend),
      ⟨.release 0, { Env.quiet with
        remote := fun c => if c = .write ['/', 'f'] 0 then .failure else .success }⟩,
      Sample.call (.open ['/', 'f'] Sample.writeAppend)]

theorem resumed_reachable {d : Daemon} (h : resumed cx = .ok d) : d.Reachable cx :=
  ⟨_, Sample.fs, Sample.ring, Sample.fs_wf, _, h⟩

theorem release_sends_whole_sample :
    ∃ d, resumed Sample.plain = .ok d ∧ d.SendsWhole Sample.plain ∧
      ∃ h ∈ d.handles, h.flags.acc ≠ .rdonly ∧
        ∃ t, dfsRelease Sample.plain Env.quiet d.world h.path h.flags h.addr = .ok (0, t) :=
  ⟨_, rfl, release_sends_whole Sample.plain (by decide) _ (resumed_reachable rfl), _,
    List.mem_cons_self, (by decide), _, rfl⟩

end Whole

section Tags

variable {cx : Ctx} {env : Env} {fs : LocalFs} {path : Path} {fd : Nat}

/-- The compression tag says how the bytes handed over are to be read, and the declared size is
their number. -/
structure Upload.Truthful (cx : Ctx) (content : Bytes) (up : Upload) : Prop where
  tag : up.dict .compression = some textZlib ∧
      cx.codec.zip cx.conf.zlibLevel content = some up.payload ∨
    up.dict .compression ≠ some textZlib ∧ up.payload = content
  size : up.payload.length < 2 ^ 64 → up.size = up.payload.length

/-- When compression goes through, the scratch file has not got descriptor 0, which stands for
"no compression" after the tag has been set, the source is the file of the descriptor, and the
stream is flushed; when it does not, the scratch file is another file than the one sent, or has left
it as it was. -/
def TagsTruly (cx : Ctx) (env : Env) (zfd : Nat) (fs : LocalFs) (path : Path) (fd : Nat)
    (content : Bytes) : Prop :=
  let locname := slashName cx path
  env.sys .fopenZipped = none →
    match zipped cx env fs locname with
    | none => restBytes fs locname fd [] content = content
    | some z =>
      let left := flushedZip env z
      if Marked env then
        if 0 < zfd then
          if left = z then zipSource fs locname = some content
          else cx.codec.zip cx.conf.zlibLevel content = some left
        else cx.codec.zip cx.conf.zlibLevel content = some (restBytes fs locname fd left content) ∧
          ((restBytes fs locname fd left content).length < 2 ^ 64 →
            toU64 content.length = (restBytes fs locname fd left content).length)
      else restBytes fs locname fd left content = content

/-- Raw bytes without a tag. -/
theorem truthful_raw {content payload : Bytes} {own : Bool} {dict : Dict}
    (hd : dict .compression ≠ some textZlib) :
    (Upload.mk payload own (toU64 content.length) dict).Truthful cx content ↔
      payload = content := by
  constructor
  · intro h
    rcases h.tag with ⟨ht, -⟩ | ⟨-, he⟩
    · exact absurd ht hd
    · exact he
  · intro he
    refine ⟨.inr ⟨hd, he⟩, fun hlen => ?_⟩
    dsimp only at hlen ⊢
    rw [he] at hlen ⊢
    exact toU64_length hlen

/-- Bytes with a tag. -/
theorem truthful_tagged {content payload : Bytes} {own : Bool} {size : Nat} {dict : Dict}
    (hd : dict .compression = some textZlib) :
    (Upload.mk payload own size dict).Truthful cx content ↔
      cx.codec.zip cx.conf.zlibLevel content = some payload ∧
        (payload.length < 2 ^ 64 → size = payload.length) := by
  constructor
  · intro h
    rcases h.tag with ⟨-, hz⟩ | ⟨ht, -⟩
    · exact ⟨hz, h.size⟩
    · exact absurd hd ht
  · rintro ⟨hz, hs⟩
    exact ⟨.inl ⟨hd, hz⟩, hs⟩

/-- What compresses to the same bytes is the same. -/
theorem zip_injective {level : Int} {a b z : Bytes} (ha : cx.codec.zip level a = some z)
    (hb : cx.codec.zip level b = some z) : a = b :=
  Option.some.inj ((cx.codec.unzip_zip _ _ _ ha).symm.trans (cx.codec.unzip_zip _ _ _ hb))

theorem handedZip_truthful (zfd : Nat) (content : Bytes) {dict : Dict}
    (hd : dict .compression = none) :
    (handedZip cx env zfd fs (slashName cx path) fd content (toU64 content.length)
      dict).Truthful cx content ↔ TagsTruly cx env zfd fs path fd content := by
  have hraw : dict .compression ≠ some textZlib := by
    rw [hd]
    exact nofun
  have htag : dict.set .compression textZlib .compression = some textZlib := by
    simp [Dict.set]
  unfold handedZip TagsTruly
  by_cases ho : env.sys .fopenZipped = none
  · rw [if_pos ho]
    simp only [ho, forall_const]
    generalize hz : zipped cx env fs (slashName cx path) = zb
    cases zb with
    | none => exact truthful_raw hraw
    | some z =>
      dsimp only
      by_cases hm : Marked env
      · rw [if_pos hm, if_pos hm]
        by_cases hp : 0 < zfd
        · rw [if_pos hp, if_pos hp, truthful_tagged htag]
          -- the compressed source is known by its compressed bytes
          unfold zipped at hz
          split_ifs at hz
          obtain ⟨src, hsrc, hzip⟩ := Option.bind_eq_some_iff.mp hz
          by_cases hw : flushedZip env z = z
          · rw [if_pos hw, hw, hsrc, Option.some.injEq]
            constructor
            · rintro ⟨hc, -⟩
              exact zip_injective hzip hc
            · rintro rfl
              exact ⟨hzip, fun _ => rfl⟩
          · rw [if_neg hw]
            exact and_iff_left fun _ => rfl
        · rw [if_neg hp, if_neg hp, truthful_tagged htag]
      · rw [if_neg hm, if_neg hm, truthful_raw hraw]
  · rw [if_neg ho]
    simp only [ho, false_implies, iff_true]
    exact (truthful_raw hraw).mpr rfl

/-- In every reachable state, for every outcome of the calls and every descriptor of the scratch
file: what a release with compression hands over is tagged for what it is exactly when `TagsTruly`
holds. -/
theorem tag_truthful_iff (cx : Ctx)
    (hz : startsWithNoCase cx.conf.compressionMethod textZlib = true) (d : Daemon)
    (hd : d.Reachable cx) (a : Addr) (pe : Entry) (fd : Nat) (content : Bytes)
    (ha : d.world.heap a = some pe) (hfd : pe.fd = some fd)
    (hc : d.world.fs.content fd = some content) (env : Env) (zfd : Nat) (path : Path) (stat : Stat)
    (hs : d.world.fs.fstat fd env.times = some stat) (up : Upload)
    (h : handedAt cx env zfd d.world.fs path fd stat = some up) :
    up.Truthful cx content ↔ TagsTruly cx env zfd d.world.fs path fd content := by
  obtain ⟨f, hf, hcf⟩ := hd.inv.opened a pe fd ha hfd
  have hdata : (d.world.fs.inodes f.inode).data = content := by
    simpa [LocalFs.content, inodeOf, hf] using hc
  have hsize : stat.size = (content.length : Int) := by
    simp only [LocalFs.fstat, inodeOf, hf, Option.map_some, Option.some.injEq] at hs
    rw [← hs, ← hdata]
  have hdict : fillMetadataFromStat env Dict.empty stat .compression = none := by
    rw [fillMetadataFromStat_compression]
    rfl
  unfold handedAt at h
  cases hdict' : env.lib .releaseDict with
  | false => simp [hdict'] at h
  | true =>
    simp only [hdict', hz, Bool.not_true, Bool.false_eq_true, if_false, if_true] at h
    rw [zipUploadAt_some hd.inv.wf hf hcf.1 (Prod.ext h rfl), hdata, hsize]
    exact handedZip_truthful zfd content hdict

/-- With the file of `appending` compressed in full. -/
theorem tag_truthful_sample :
    ∃ d pe stat up, appending (Sample.ctx textZlib textNone) = .ok d ∧
      d.world.heap 0 = some pe ∧ d.world.fs.fstat 0 Env.quiet.times = some stat ∧
      handedAt (Sample.ctx textZlib textNone) Env.quiet 2 d.world.fs ['/', 'f'] 0 stat = some up ∧
      up.dict .compression = some textZlib ∧
      up.Truthful (Sample.ctx textZlib textNone) [1, 2] := by
  refine ⟨_, _, _, _, rfl, rfl, rfl, rfl, rfl, ?_⟩
  apply (tag_truthful_iff (Sample.ctx textZlib textNone) (by decide) _ (appending_reachable rfl) 0
    _ 0 [1, 2] rfl rfl rfl Env.quiet 2 ['/', 'f'] _ rfl _ rfl).mpr
  exact fun _ => (rfl : some ([1, 2] : Bytes) = some [1, 2])

/-- The files `/a` and `/f` have got descriptors 0 and 1, and `/a` is removed. -/
def zeroFree (cx : Ctx) : Except Fault Daemon :=
  Transition.exec (Daemon.step cx)
    (Sample.daemon [(['/', 'a'], Sample.file [3]), (['/', 'f'], Sample.file [1, 2])])
    [Sample.call (.open ['/', 'a'] Sample.readOnly), Sample.call
    (.open ['/', 'f'] Sample.writeAppend),
      ⟨.unlink ['/', 'a'], { Env.quiet with stale := some }⟩]

theorem zeroFree_reachable {d : Daemon} (h : zeroFree cx = .ok d) : d.Reachable cx :=
  ⟨_, Sample.fs, Sample.ring, Sample.fs_wf, _, h⟩

/-- The source got its descriptor before descriptor 0 became free, and the scratch file gets
descriptor 0: the raw file is sent as compressed. -/
theorem zero_descriptor_mistagged :
    ∃ d pe stat up, zeroFree (Sample.ctx textZlib textNone) = .ok d ∧
      d.Reachable (Sample.ctx textZlib textNone) ∧
      d.world.heap 1 = some pe ∧ pe.fd = some 1 ∧ 0 ∉ d.world.fs.fds.keys ∧
      d.world.fs.content 1 = some [1, 2] ∧ d.world.fs.fstat 1 Env.quiet.times = some stat ∧
      handedAt (Sample.ctx textZlib textNone) Env.quiet 0 d.world.fs ['/', 'f'] 1 stat = some up ∧
      up.dict .compression = some textZlib ∧ up.payload = [1, 2] ∧
      ¬up.Truthful (Sample.ctx textZlib textNone) [1, 2] := by
  refine ⟨_, _, _, _, rfl, zeroFree_reachable rfl, rfl, rfl, ?_, rfl, rfl, rfl, rfl, rfl,
    fun h => ?_⟩
  · decide
  · rcases h.tag with ⟨-, hz⟩ | ⟨ht, -⟩
    · cases hz
    · exact ht rfl

end Tags

end DropletFs
