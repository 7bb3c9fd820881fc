import DropletFs.Model.Sample
import DropletFs.Release.Upload
import DropletFs.Table.Calls

/-! A file that is uploaded by `dfs_release` and downloaded by `dfs_get_local_copy`. -/

namespace DropletFs

open CText LocalFs

/-- Whatever the open, a download of the path into an empty cache returns a descriptor that
reads as `content`. -/
def DownloadsAs (cx : Ctx) (st : Store) (path : Path) (content : Bytes) : Prop :=
  ∀ (env : Env) (fs : LocalFs) (pe : Entry) (flags : OpenFlags), env.AllOk → fs.Wf →
    (∀ n, fs.files n = none) → pe.ondisk ≠ .loc → pe.mdLocked = false → flags.trunc = false →
    ∃ k pe' fs', dfsGetLocalCopy cx env st fs pe path flags = .ok (some k, pe', fs') ∧
      fs'.content k = some content

theorem downloadsAs_iff {cx : Ctx} {st : Store} {path : Path} {o : Obj}
    (ho : st.lookup path = some o) (hd : o.ftype ≠ .dir) (content : Bytes) :
    DownloadsAs cx st path content ↔
      unpack cx (localName cx path) o.userMeta o.data = some content := by
  constructor
  · intro h
    exact (dfsGetLocalCopy_iff cx Env.quiet_allOk Sample.fs_wf
      (by simp [pentryNew]) rfl Sample.readOnly rfl ho hd content).mp
      (h Env.quiet Sample.fs (pentryNew Env.quiet path .reg) Sample.readOnly Env.quiet_allOk
        Sample.fs_wf
        (fun _ => rfl) (by simp [pentryNew]) rfl rfl)
  · intro hu env fs pe flags hok hw _ hl hm ht
    exact (dfsGetLocalCopy_iff cx hok hw hl hm _ ht ho hd content).mpr hu

/-- The configuration, the names and the outcomes with which `content` comes back. No download
decrypts. A stream comes back when it is that of `content`, is in the scratch file as a whole, and
the download has a scratch file of its own. What is sent without being compressed is `content`,
unless the scratch file is the very file the descriptor is open on. -/
def ReadsBack (cx : Ctx) (env : Env) (fs : LocalFs) (path : Path) (fd : Nat)
    (content : Bytes) : Prop :=
  let locname := slashName cx path
  if Streams cx env fs locname then
    startsWithNoCase cx.conf.encryptionMethod textAes = false ∧
    zipSource fs locname = some content ∧
    (∀ z, zipped cx env fs locname = some z → flushedZip env z = z) ∧
    collapse (scratchName (localName cx path)) ≠ collapse (localName cx path)
  else if Scratched cx env ∧ fs.OwnScratch locname fd then
    cipher cx (leftInScratch cx env fs locname) = content
  else startsWithNoCase cx.conf.encryptionMethod textAes = false

/-- Without encryption, what is sent is read back when the file under the cache name is the
one behind the descriptor, the scratch file is another, and it is flushed. -/
theorem readsBack_of_plain {cx : Ctx} {env : Env} {fs : LocalFs} {path : Path} {fd : Nat}
    {content : Bytes} (he : startsWithNoCase cx.conf.encryptionMethod textAes = false)
    (hn : collapse (scratchName (localName cx path)) ≠ collapse (localName cx path))
    (hs : collapse (scratchName (slashName cx path)) ≠ collapse (slashName cx path))
    (hc : fs.readName (slashName cx path) = some content)
    (ho : ¬fs.OwnScratch (slashName cx path) fd) (hf : env.sys .fflushZipped = none) :
    ReadsBack cx env fs path fd content := by
  have hsrc : zipSource fs (slashName cx path) = some content := by rw [zipSource, if_neg hs, hc]
  unfold ReadsBack
  dsimp only
  split_ifs with h1 h2
  · exact ⟨he, hsrc, fun z _ => flushedZip_done hf z, hn⟩
  · exact (ho h2.2).elim
  · exact he

/-- `ReadsBack` in terms of what is sent. -/
theorem readsBack_iff {cx : Ctx} (hs : cx.codec.Sealed) (env : Env) (fs : LocalFs) (path : Path)
    (fd : Nat) (content : Bytes) : ReadsBack cx env fs path fd content ↔
      if (sent cx env fs path fd content).2 then
        collapse (scratchName (localName cx path)) ≠ collapse (localName cx path) ∧
        cx.codec.unzip (cipher cx (sent cx env fs path fd content).1) = some content
      else cipher cx (sent cx env fs path fd content).1 = content := by
  rw [sent_eq]
  unfold ReadsBack
  dsimp only
  by_cases h1 : Streams cx env fs (slashName cx path)
  · obtain ⟨src, z, hsrc, hz, hzip, hleft⟩ := h1.stream
    rw [if_pos h1, if_pos h1, if_pos rfl, hleft, hs.unzip_sent env hzip, hsrc, hz]
    simp only [Option.some.injEq, forall_eq']
    constructor
    · rintro ⟨he, hc, hf, hn⟩
      exact ⟨hn, he, hc, hf⟩
    · rintro ⟨hn, he, hc, hf⟩
      exact ⟨he, hc, hf, hn⟩
  rw [if_neg h1, if_neg h1]
  by_cases h2 : Scratched cx env ∧ fs.OwnScratch (slashName cx path) fd
  · rw [if_pos h2, if_pos h2, if_neg Bool.false_ne_true]
  · rw [if_neg h2, if_neg h2, if_neg Bool.false_ne_true]
    exact (hs.cipher_eq content).symm

/-- The object a successful upload leaves, unpacked. -/
theorem releaseUpload_zero {cx : Ctx} {env : Env} {st st' : Store} {fs fs' : LocalFs}
    (hs : cx.codec.Sealed) (hw : fs.Wf) {path : Path} {fd : Nat} {f : OpenFile}
    (hf : fs.fds.lookup fd = some f)
    (h0 : f.offset = 0) {stat : Stat}
    (h : releaseUpload cx env st fs path fd stat = (0, fs', st')) :
    ∃ o, st'.lookup path = some o ∧ o.ftype = .reg ∧
      (unpack cx (localName cx path) o.userMeta o.data = some (fs.inodes f.inode).data ↔
        ReadsBack cx env fs path fd (fs.inodes f.inode).data) := by
  obtain ⟨up, rfl, hp, hd⟩ := releaseUpload_sent hw hf h0 h
  refine ⟨_, AList.lookup_insert _, rfl, ?_⟩
  rw [readsBack_iff hs, unpack, putObj_compression, putObj_data, hp, hd,
    tagged_compression (by rw [fillMetadataFromStat_compression]; rfl)]
  have hnone : startsWith textZlib textNone = false := by decide
  have hzlib : startsWith textZlib textZlib = true := by decide
  cases (sent cx env fs path fd (fs.inodes f.inode).data).2 with
  | false => simp
  | true =>
    by_cases hn : collapse (scratchName (localName cx path)) = collapse (localName cx path)
    · simp [hnone, hzlib, hn]
    · simp [hnone, hzlib, hn]

/-- In every reachable state, after a release of a writable handle that returned 0, the
path downloads as what the handle's file held exactly when what was sent reads back. -/
theorem release_roundtrip_iff (cx : Ctx) (hs : cx.codec.Sealed) (d : Daemon)
    (hd : d.Reachable cx) (env : Env)
    (path : Path) (flags : OpenFlags) (fh : Addr) (t : World)
    (h : dfsRelease cx env d.world path flags fh = .ok (0, t)) (pe : Entry) (fd : Nat)
    (content : Bytes) (hpe : d.world.heap fh = some pe) (hfd : pe.fd = some fd)
    (hc : d.world.fs.content fd = some content) (hw : flags.acc ≠ .rdonly)
    (hx : pe.exclude = false) :
    DownloadsAs cx t.store path content ↔ ReadsBack cx env d.world.fs path fd content := by
  have hi := hd.inv
  obtain ⟨f, hf, hcf⟩ := hi.opened fh pe fd hpe hfd
  have hdata : (d.world.fs.inodes f.inode).data = content := by
    simpa [LocalFs.content, inodeOf, hf] using hc
  obtain ⟨qe, pe', fs, st, hq, hr, rfl⟩ := dfsRelease_cases h
  rw [hpe, Option.some.injEq] at hq
  subst hq
  unfold releaseEntry at hr
  rw [hfd] at hr
  dsimp only at hr
  split at hr
  · rename_i stat _ _
    obtain ⟨pl, hl, hr⟩ := Except.bind_ok.mp hr
    obtain ⟨_, rfl⟩ := pentryDecRefcount_ok hl
    rw [if_neg hw, if_neg (by simp [hx])] at hr
    simp only [Except.ok.injEq, Prod.mk.injEq] at hr
    obtain ⟨hret, _, _, rfl⟩ := hr
    obtain ⟨o, ho, hreg, hiff⟩ := releaseUpload_zero hs hi.wf hf hcf.1
      (h := Prod.ext hret rfl)
    rw [hdata] at hiff
    rw [← hiff]
    exact downloadsAs_iff ho (by rw [hreg]; decide) content
  · simp at hr

/-- The object `/f` is open for appending. -/
def appending (cx : Ctx) : Except Fault Daemon :=
  Transition.exec (Daemon.step cx) (Sample.daemon [(['/', 'f'], Sample.file [1, 2])])
    [Sample.call (.open ['/', 'f'] Sample.writeAppend)]

theorem appending_reachable {cx : Ctx} {d : Daemon} (h : appending cx = .ok d) :
    d.Reachable cx := ⟨_, Sample.fs, Sample.ring, Sample.fs_wf, _, h⟩

theorem Sample.codec_sealed : Sample.codec.Sealed where
  text b h := by
    have hlen := congrArg List.length h
    simp [Sample.codec] at hlen
  stream b := by
    change Sample.unpack (83 :: b.reverse) = none
    cases b.reverse <;> rfl
  part _ b z n hz hn := by
    obtain rfl : Sample.pack b = z := Option.some.inj hz
    change Sample.unpack ((Sample.pack b).take n) = none
    induction b generalizing n with
    | nil =>
      obtain rfl : n = 0 := by simpa [Sample.pack] using hn
      rfl
    | cons b rest ih =>
      cases n with
      | zero => rfl
      | succ n =>
        cases n with
        | zero => rfl
        | succ n =>
          have hshort : n < (Sample.pack rest).length := by
            simpa [Sample.pack] using hn
          simp [Sample.pack, Sample.unpack, ih n rfl hshort]

theorem release_roundtrip_plain :
    ∃ d h t, appending Sample.plain = .ok d ∧ d.handles[0]? = some h ∧
      dfsRelease Sample.plain Env.quiet d.world h.path h.flags h.addr = .ok (0, t) ∧
      DownloadsAs Sample.plain t.store h.path [1, 2] := by
  refine ⟨_, _, _, rfl, rfl, rfl, (release_roundtrip_iff Sample.plain Sample.codec_sealed _
    (appending_reachable rfl) Env.quiet ['/', 'f'] Sample.writeAppend 0 _ rfl
    _ 0 [1, 2] rfl rfl rfl (by decide) rfl).mpr ?_⟩
  exact readsBack_of_plain rfl (by decide) (by decide) rfl (by decide) rfl

/-- With encryption the release succeeds, and the download is what the cipher made of the
file. -/
theorem release_encrypted_unreadable :
    ∃ d h t, appending (Sample.ctx textNone textAes) = .ok d ∧ d.handles[0]? = some h ∧
      dfsRelease (Sample.ctx textNone textAes) Env.quiet d.world h.path h.flags h.addr =
        .ok (0, t) ∧
      (d.world.heap h.addr).bind (·.fd) = some 0 ∧ d.world.fs.content 0 = some [1, 2] ∧
      ¬DownloadsAs (Sample.ctx textNone textAes) t.store h.path [1, 2] := by
  refine ⟨_, _, _, rfl, rfl, rfl, rfl, rfl, fun hd => ?_⟩
  obtain ⟨k, pe', fs', hg, hc⟩ := hd Env.quiet Sample.fs (pentryNew Env.quiet ['/', 'f'] .reg)
    Sample.readOnly
    Env.quiet_allOk Sample.fs_wf (fun _ => rfl) (by simp [pentryNew]) rfl rfl
  cases hg
  cases hc

end DropletFs
