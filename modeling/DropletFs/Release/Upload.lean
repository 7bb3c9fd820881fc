import DropletFs.Table.Callbacks

/-! What a successful release leaves in the store. -/

namespace DropletFs

open CText LocalFs

/-- The data an upload of `b` stores. -/
def cipher (cx : Ctx) (b : Bytes) : Bytes :=
  if startsWithNoCase cx.conf.encryptionMethod textAes then cx.codec.encrypt b else b

theorem putObj_data (cx : Ctx) (up : Upload) :
    (putObj cx (startsWithNoCase cx.conf.encryptionMethod textAes) up).data =
      cipher cx up.payload := rfl

theorem putObj_compression (cx : Ctx) (e : Bool) (up : Upload) :
    (putObj cx e up).userMeta .compression = up.dict .compression := by
  cases e <;> simp [putObj, Dict.set]

theorem fillMetadataFromStat_compression (env : Env) (dict : Dict) (stat : Stat) :
    fillMetadataFromStat env dict stat .compression = dict .compression :=
  fillMetadataFromStat_other env dict stat rfl

/-- A successful transfer stores the whole payload. -/
theorem sendUpload_zero {cx : Ctx} {env : Env} {st st' : Store} {path : Path} {up : Upload}
    {n : Nat} (h : sendUpload cx env st path up = (0, st', n)) :
    st' = st.insert path (putObj cx (startsWithNoCase cx.conf.encryptionMethod textAes) up) := by
  unfold sendUpload at h
  dsimp only at h
  by_cases h1 : env.remote (.openwrite path) ≠ .success ∨ st.ftype? path = some .dir
  · simp [h1] at h
  rw [if_neg h1] at h
  split at h
  · simp at h
  · rename_i sent hs
    have hfull := readWriteAllVfile_ok env path (up.payload.length + 1) 0 up.payload
      (Nat.lt_succ_self _) (by rw [hs])
    rw [hs] at hfull
    by_cases h2 : env.remote (.close path) ≠ .success
    · simp [h2] at h
    · rw [if_neg h2, Prod.mk.injEq, Prod.mk.injEq] at h
      rw [← h.2.1, show sent = up.payload from hfull]

/-- What the compressor reads; the scratch file has just been emptied. -/
def zipSource (fs : LocalFs) (locname : Path) : Option Bytes :=
  if collapse (scratchName locname) = collapse locname then (fs.readName locname).map fun _ => []
  else fs.readName locname

/-- The compressed bytes, when compression goes through. -/
def zipped (cx : Ctx) (env : Env) (fs : LocalFs) (locname : Path) : Option Bytes :=
  if env.sys .zip = none then (zipSource fs locname).bind (cx.codec.zip cx.conf.zlibLevel)
  else none

/-- What `fflush` gets of a stream into the scratch file. -/
def flushedZip (env : Env) (z : Bytes) : Bytes :=
  if env.sys .fflushZipped = none then z else env.written z

theorem flushedZip_done {env : Env} (h : env.sys .fflushZipped = none) (z : Bytes) :
    flushedZip env z = z := if_pos h

/-- The steps that follow compression go through. -/
def Marked (env : Env) : Prop :=
  env.sys .fileno = none ∧ env.sys .fstatZipped = none ∧ env.lib .markCompressed = true

instance (env : Env) : Decidable (Marked env) := inferInstanceAs (Decidable (_ ∧ _ ∧ _))

/-- What the descriptor reads as once the scratch file holds `z`. -/
def restBytes (fs : LocalFs) (locname : Path) (fd : Nat) (z content : Bytes) : Bytes :=
  if fs.files (collapse (scratchName locname)) = fs.inodeOf fd then z else content

theorem remaining_eq {fs : LocalFs} {fd : Nat} {f : OpenFile} (hf : fs.fds.lookup fd = some f)
    (h0 : f.offset = 0) : fs.remaining fd = (fs.inodes f.inode).data := by
  simp [LocalFs.remaining, hf, h0]

theorem overwrite_restBytes {fs : LocalFs} (hw : fs.Wf) (locname : Path) {fd : Nat}
    {f : OpenFile} (hf : fs.fds.lookup fd = some f) (h0 : f.offset = 0) (z : Bytes) :
    ((fs.overwrite (scratchName locname) []).overwrite (scratchName locname) z).remaining fd =
      restBytes fs locname fd z (fs.inodes f.inode).data := by
  have hfr := ((Frame.refl [collapse (scratchName locname)] fs).overwrite
    (List.mem_singleton_self _) []).overwrite (List.mem_singleton_self _) z
  rw [remaining_eq (hfr.fds fd f hf) h0, restBytes]
  have hino : fs.inodeOf fd = some f.inode := by simp [inodeOf, hf]
  rw [hino]
  split_ifs with hs
  · have h1 : fs.overwrite (scratchName locname) [] = fs.writeInode f.inode [] := by
      simp [LocalFs.overwrite, hs]
    have h2 : (fs.writeInode f.inode []).overwrite (scratchName locname) z =
        (fs.writeInode f.inode []).writeInode f.inode z := by
      simp [LocalFs.overwrite, LocalFs.writeInode, hs]
    rw [h1, h2]
    simp [LocalFs.writeInode]
  · rw [hfr.data f.inode (hw.opened fd f hf) (by simpa using hs)]

/-- Descriptor 0 is in use, or it is the one the source has just got. -/
theorem zfd_pos (fs : LocalFs) : 0 < lowestFree (fs.fresh :: fs.fds.keys) := by
  have hno := lowestFree_notMem (fs.fresh :: fs.fds.keys)
  rcases Nat.eq_zero_or_pos (lowestFree (fs.fresh :: fs.fds.keys)) with h0 | h0
  · rw [h0, List.mem_cons, not_or] at hno
    have hfresh : (0 : Nat) ∉ fs.fds.keys := hno.2
    exact (hno.1 (by simp [LocalFs.fresh, lowestFree, List.range_succ_eq_map, hfresh])).elim
  · exact h0

theorem compressBeforeSending_spec (cx : Ctx) (env : Env) (zfd : Nat) (src : Bytes)
    (dict : Dict) :
    compressBeforeSending cx env zfd src dict =
      match (if env.sys .zip = none then cx.codec.zip cx.conf.zlibLevel src else none) with
      | some z =>
        if Marked env then ((zfd : Int), dict.set .compression textZlib, flushedZip env z)
        else (0, dict, flushedZip env z)
      | none => (0, dict, []) := by
  unfold compressBeforeSending flushedZip
  cases hs : env.sys .zip with
  | some e => simp
  | none =>
    cases hz : cx.codec.zip cx.conf.zlibLevel src with
    | none => simp
    | some z =>
      simp only [if_true]
      by_cases h1 : env.sys .fileno = none
      · by_cases h2 : env.sys .fstatZipped = none
        · cases h3 : env.lib .markCompressed <;> simp [Marked, h1, h2, h3]
        · simp [Marked, h1, h2]
      · simp [Marked, h1]

theorem zipSource_eq {fs : LocalFs} (hw : fs.Wf) {locname : Path} {src : Nat}
    (hsrc : fs.files (collapse locname) = some src) :
    zipSource fs locname = some ((fs.overwrite (scratchName locname) []).inodes src).data := by
  unfold zipSource
  split_ifs with hc
  · simp [readName, hsrc, LocalFs.overwrite, hc, LocalFs.writeInode]
  · rw [(overwrite_of_ne hw (Ne.symm hc) [] hsrc).2, readName, hsrc]
    rfl

/-- What the compression branch sends for a file of `content`, and whether it is tagged as
compressed: when anything goes wrong, what is read from the descriptor. -/
def sentZip (cx : Ctx) (env : Env) (fs : LocalFs) (locname : Path) (fd : Nat)
    (content : Bytes) : Bytes × Bool :=
  if env.sys .fopenZipped = none then
    match zipped cx env fs locname with
    | some z =>
      if Marked env then (flushedZip env z, true)
      else (restBytes fs locname fd (flushedZip env z) content, false)
    | none => (restBytes fs locname fd [] content, false)
  else (content, false)

/-- What a release sends for a file of `content`. -/
def sent (cx : Ctx) (env : Env) (fs : LocalFs) (path : Path) (fd : Nat) (content : Bytes) :
    Bytes × Bool :=
  if startsWithNoCase cx.conf.compressionMethod textZlib then
    sentZip cx env fs (slashName cx path) fd content
  else (content, false)

/-- A ciphertext is neither its text nor a compressed stream, and no stream that is cut short is
one. -/
structure Codec.Sealed (codec : Codec) : Prop where
  text : ∀ b, codec.encrypt b ≠ b
  stream : ∀ b, codec.unzip (codec.encrypt b) = none
  part : ∀ level b z n, codec.zip level b = some z → n < z.length → codec.unzip (z.take n) = none

/-- Compression is asked for, and there is a scratch file for it. -/
def Scratched (cx : Ctx) (env : Env) : Prop :=
  startsWithNoCase cx.conf.compressionMethod textZlib = true ∧ env.sys .fopenZipped = none

instance (cx : Ctx) (env : Env) : Decidable (Scratched cx env) :=
  inferInstanceAs (Decidable (_ ∧ _))

/-- What is sent is a stream: the file is compressed, and the steps up to its tag go through. -/
def Streams (cx : Ctx) (env : Env) (fs : LocalFs) (locname : Path) : Prop :=
  Scratched cx env ∧ Marked env ∧ (zipped cx env fs locname).isSome

instance (cx : Ctx) (env : Env) (fs : LocalFs) (locname : Path) :
    Decidable (Streams cx env fs locname) :=
  inferInstanceAs (Decidable (_ ∧ _ ∧ _))

/-- The scratch file is the file the descriptor is open on. -/
def LocalFs.OwnScratch (fs : LocalFs) (locname : Path) (fd : Nat) : Prop :=
  fs.files (collapse (scratchName locname)) = fs.inodeOf fd

instance (fs : LocalFs) (locname : Path) (fd : Nat) : Decidable (fs.OwnScratch locname fd) :=
  inferInstanceAs (Decidable (_ = _))

/-- What the scratch file holds in the end. -/
def leftInScratch (cx : Ctx) (env : Env) (fs : LocalFs) (locname : Path) : Bytes :=
  (zipped cx env fs locname).elim [] (flushedZip env)

/-- What a release sends, by the way it takes. -/
theorem sent_eq (cx : Ctx) (env : Env) (fs : LocalFs) (path : Path) (fd : Nat) (content : Bytes) :
    sent cx env fs path fd content =
      if Streams cx env fs (slashName cx path) then
        (leftInScratch cx env fs (slashName cx path), true)
      else if Scratched cx env ∧ fs.OwnScratch (slashName cx path) fd then
        (leftInScratch cx env fs (slashName cx path), false)
      else (content, false) := by
  unfold sent sentZip Streams Scratched leftInScratch restBytes LocalFs.OwnScratch
  by_cases hz : startsWithNoCase cx.conf.compressionMethod textZlib = true
  · by_cases hop : env.sys .fopenZipped = none
    · simp only [hz, hop, and_self, true_and, if_true]
      cases zipped cx env fs (slashName cx path) with
      | none =>
        simp only [Option.isSome_none, Bool.false_eq_true, and_false, if_false, Option.elim_none]
        split_ifs <;> rfl
      | some z =>
        simp only [Option.isSome_some, and_true, Option.elim_some]
        split_ifs <;> rfl
    · simp [hz, hop]
  · simp [hz]

theorem Streams.stream {cx : Ctx} {env : Env} {fs : LocalFs} {locname : Path}
    (h : Streams cx env fs locname) :
    ∃ src z, zipSource fs locname = some src ∧ zipped cx env fs locname = some z ∧
      cx.codec.zip cx.conf.zlibLevel src = some z ∧
      leftInScratch cx env fs locname = flushedZip env z := by
  obtain ⟨z, hz⟩ := Option.isSome_iff_exists.mp h.2.2
  have hzip := hz
  unfold zipped at hzip
  split_ifs at hzip
  obtain ⟨src, hsrc, hzip⟩ := Option.bind_eq_some_iff.mp hzip
  exact ⟨src, z, hsrc, hz, hzip, by rw [leftInScratch, hz, Option.elim_some]⟩

theorem Codec.Sealed.cipher_eq {cx : Ctx} (hs : cx.codec.Sealed) (b : Bytes) :
    cipher cx b = b ↔ startsWithNoCase cx.conf.encryptionMethod textAes = false := by
  unfold cipher
  split_ifs with he
  · simp [he, hs.text b]
  · simpa using he

theorem flushedZip_take (env : Env) (z : Bytes) : ∃ n, flushedZip env z = z.take n := by
  unfold flushedZip Env.written
  split_ifs
  · exact ⟨z.length, (List.take_length).symm⟩
  · cases env.cut with
    | none => exact ⟨z.length, (List.take_length).symm⟩
    | some n => exact ⟨n, rfl⟩

/-- A stream that has been sent is unpacked when it has been sent whole and as it is. -/
theorem Codec.Sealed.unzip_sent {cx : Ctx} (hs : cx.codec.Sealed) (env : Env) {level : Int}
    {src z content : Bytes} (hz : cx.codec.zip level src = some z) :
    cx.codec.unzip (cipher cx (flushedZip env z)) = some content ↔
      startsWithNoCase cx.conf.encryptionMethod textAes = false ∧ src = content ∧
        flushedZip env z = z := by
  by_cases he : startsWithNoCase cx.conf.encryptionMethod textAes = true
  · have hsent : cipher cx (flushedZip env z) = cx.codec.encrypt (flushedZip env z) := by
      simp [cipher, he]
    rw [hsent, hs.stream]
    simp [he]
  · have hsent : cipher cx (flushedZip env z) = flushedZip env z := by simp [cipher, he]
    rw [hsent]
    obtain ⟨n, hn⟩ := flushedZip_take env z
    by_cases hlt : n < z.length
    · have hcut : flushedZip env z ≠ z := by
        intro hw
        have hlen := congrArg List.length (hn.symm.trans hw)
        rw [List.length_take] at hlen
        omega
      rw [hn, hs.part level src z n hz hlt, ← hn]
      simp [hcut]
    · have hw : flushedZip env z = z := by rw [hn, List.take_of_length_le (by omega)]
      rw [hw, cx.codec.unzip_zip _ _ _ hz]
      simp [he]

def tagged (dict : Dict) (tag : Bool) : Dict :=
  if tag then dict.set .compression textZlib else dict

theorem tagged_compression {dict : Dict} (h : dict .compression = none) (tag : Bool) :
    tagged dict tag .compression = if tag then some textZlib else none := by
  cases tag <;> simp [tagged, Dict.set, h]

theorem tagged_of_ne (dict : Dict) (tag : Bool) {k : MdKey} (hk : k ≠ .compression) :
    tagged dict tag k = dict k := by
  cases tag <;> simp [tagged, Dict.set, hk]

/-- `zipUpload` when the scratch file has got the descriptor `zfd`; which one it gets depends on
what other threads open and close between the two calls of `fopen`. -/
def zipUploadAt (cx : Ctx) (env : Env) (zfd : Nat) (fs : LocalFs) (fd : Nat)
    (locname zlocal : Path) (size : Nat) (dict : Dict) : Option Upload × LocalFs :=
  match env.sys .fopenSource, fs.files (collapse locname) with
  | none, some src =>
    if env.sys .fopenZipped ≠ none then (some ⟨fs.remaining fd, true, size, dict⟩, fs)
    else
      let fs := fs.overwrite zlocal []
      let (ret, dict, z) := compressBeforeSending cx env zfd (fs.inodes src).data dict
      let fs := fs.overwrite zlocal z
      if ret > 0 then (some ⟨z, false, z.length, dict⟩, fs)
      else (some ⟨fs.remaining fd, true, size, dict⟩, fs)
  | _, _ => (none, fs)

/-- The descriptor of the scratch file when no other thread is at work. -/
def LocalFs.scratchFd (fs : LocalFs) : Nat := lowestFree (fs.fresh :: fs.fds.keys)

theorem zipUpload_at (cx : Ctx) (env : Env) (fs : LocalFs) (fd : Nat) (locname zlocal : Path)
    (size : Nat) (dict : Dict) :
    zipUpload cx env fs fd locname zlocal size dict =
      zipUploadAt cx env fs.scratchFd fs fd locname zlocal size dict := by
  have hfds : (fs.overwrite zlocal []).fds = fs.fds := overwrite_fds fs zlocal []
  have hfd : ∀ g : LocalFs, g.fds = fs.fds → lowestFree (g.fresh :: g.fds.keys) = fs.scratchFd := by
    intro g hg
    simp only [LocalFs.scratchFd, LocalFs.fresh, hg]
  unfold zipUpload zipUploadAt
  cases env.sys .fopenSource with
  | some e => rfl
  | none =>
    cases fs.files (collapse locname) with
    | none => rfl
    | some src =>
      dsimp only
      rw [hfd _ hfds]

/-- What the compression branch hands over for a file of `content`. -/
def handedZip (cx : Ctx) (env : Env) (zfd : Nat) (fs : LocalFs) (locname : Path) (fd : Nat)
    (content : Bytes) (size : Nat) (dict : Dict) : Upload :=
  if env.sys .fopenZipped = none then
    match zipped cx env fs locname with
    | some z =>
      let z := flushedZip env z
      if Marked env then
        if 0 < zfd then ⟨z, false, z.length, dict.set .compression textZlib⟩
        else ⟨restBytes fs locname fd z content, true, size, dict.set .compression textZlib⟩
      else ⟨restBytes fs locname fd z content, true, size, dict⟩
    | none => ⟨restBytes fs locname fd [] content, true, size, dict⟩
  else ⟨content, true, size, dict⟩

theorem zipUploadAt_some {cx : Ctx} {env : Env} {zfd : Nat} {fs fs' : LocalFs} (hw : fs.Wf)
    {locname : Path} {fd : Nat} {f : OpenFile} (hf : fs.fds.lookup fd = some f)
    (h0 : f.offset = 0) {size : Nat} {dict : Dict} {up : Upload}
    (h : zipUploadAt cx env zfd fs fd locname (scratchName locname) size dict = (some up, fs')) :
    up = handedZip cx env zfd fs locname fd (fs.inodes f.inode).data size dict := by
  unfold zipUploadAt at h
  unfold handedZip
  split at h
  · rename_i src hsys hsrc
    by_cases hz : env.sys .fopenZipped = none
    · rw [if_neg (by simp [hz])] at h
      rw [if_pos hz]
      have hrest := overwrite_restBytes hw locname hf h0
      have hzip : zipped cx env fs locname = if env.sys .zip = none then
          cx.codec.zip cx.conf.zlibLevel
            ((fs.overwrite (scratchName locname) []).inodes src).data else none := by
        rw [zipped, zipSource_eq hw hsrc, Option.bind_some]
      dsimp only at h
      rw [compressBeforeSending_spec, ← hzip] at h
      generalize zipped cx env fs locname = zb at h ⊢
      cases zb with
      | none =>
        simp only [gt_iff_lt, lt_irrefl, if_false, Prod.mk.injEq, Option.some.injEq] at h
        rw [← h.1, hrest []]
      | some z =>
        dsimp only at h ⊢
        by_cases hm : Marked env
        · by_cases hpos : 0 < zfd
          · simp only [hm, if_true, gt_iff_lt, Int.natCast_pos, hpos, Prod.mk.injEq,
              Option.some.injEq] at h ⊢
            exact h.1.symm
          · simp only [hm, if_true, gt_iff_lt, Int.natCast_pos, hpos, if_false, Prod.mk.injEq,
              Option.some.injEq] at h ⊢
            rw [← h.1, hrest (flushedZip env z)]
        · simp only [hm, if_false, gt_iff_lt, lt_irrefl, Prod.mk.injEq, Option.some.injEq] at h ⊢
          rw [← h.1, hrest (flushedZip env z)]
    · rw [if_pos hz] at h
      rw [if_neg hz]
      simp only [Prod.mk.injEq, Option.some.injEq] at h
      rw [← h.1, remaining_eq hf h0]
  · simp at h

theorem zipUpload_some {cx : Ctx} {env : Env} {fs fs' : LocalFs} (hw : fs.Wf) {locname : Path}
    {fd : Nat} {f : OpenFile} (hf : fs.fds.lookup fd = some f) (h0 : f.offset = 0) {size : Nat}
    {dict : Dict} {up : Upload}
    (h : zipUpload cx env fs fd locname (scratchName locname) size dict = (some up, fs')) :
    up.payload = (sentZip cx env fs locname fd (fs.inodes f.inode).data).1 ∧
    up.dict = tagged dict (sentZip cx env fs locname fd (fs.inodes f.inode).data).2 := by
  rw [zipUpload_at] at h
  rw [zipUploadAt_some hw hf h0 h]
  have hpos : 0 < fs.scratchFd := zfd_pos fs
  unfold handedZip sentZip
  by_cases hz : env.sys .fopenZipped = none
  · rw [if_pos hz, if_pos hz]
    cases zipped cx env fs locname with
    | none => exact ⟨rfl, rfl⟩
    | some z =>
      dsimp only
      by_cases hm : Marked env
      · rw [if_pos hm, if_pos hm, if_pos hpos]
        exact ⟨rfl, rfl⟩
      · rw [if_neg hm, if_neg hm]
        exact ⟨rfl, rfl⟩
  · rw [if_neg hz, if_neg hz]
    exact ⟨rfl, rfl⟩

/-- A successful release with compression has something to send, and has sent it. -/
theorem releaseUpload_zip {cx : Ctx} {env : Env} {st st' : Store} {fs fs' : LocalFs} {path : Path}
    {fd : Nat} {stat : Stat} (hz : startsWithNoCase cx.conf.compressionMethod textZlib = true)
    (h : releaseUpload cx env st fs path fd stat = (0, fs', st')) :
    ∃ up fs₁ n, zipUpload cx env fs fd (slashName cx path) (scratchName (slashName cx path))
        (toU64 stat.size) (fillMetadataFromStat env Dict.empty stat) = (some up, fs₁) ∧
      sendUpload cx env st path up = (0, st', n) := by
  unfold releaseUpload at h
  dsimp only at h
  split_ifs at h
  · simp at h
  split at h
  · simp at h
  · rename_i up fs₁ hu
    simp only [Prod.mk.injEq] at h
    exact ⟨up, fs₁, _, hu, Prod.ext h.1 (Prod.ext h.2.2 rfl)⟩

/-- A successful release without compression has sent the file as it is. -/
theorem releaseUpload_whole {cx : Ctx} {env : Env} {st st' : Store} {fs fs' : LocalFs}
    {path : Path} {fd : Nat} {stat : Stat}
    (hz : ¬startsWithNoCase cx.conf.compressionMethod textZlib = true)
    (h : releaseUpload cx env st fs path fd stat = (0, fs', st')) :
    ∃ n, sendUpload cx env st path
      ⟨fs.remaining fd, true, toU64 stat.size, fillMetadataFromStat env Dict.empty stat⟩ =
        (0, st', n) := by
  unfold releaseUpload at h
  dsimp only at h
  split_ifs at h
  · simp at h
  · simp only [Prod.mk.injEq] at h
    exact ⟨_, Prod.ext h.1 (Prod.ext h.2.2 rfl)⟩

/-- The object a successful release leaves. -/
theorem releaseUpload_sent {cx : Ctx} {env : Env} {st st' : Store} {fs fs' : LocalFs}
    (hw : fs.Wf) {path : Path} {fd : Nat} {f : OpenFile} (hf : fs.fds.lookup fd = some f)
    (h0 : f.offset = 0) {stat : Stat}
    (h : releaseUpload cx env st fs path fd stat = (0, fs', st')) :
    ∃ up : Upload, st' = st.insert path
        (putObj cx (startsWithNoCase cx.conf.encryptionMethod textAes) up) ∧
      up.payload = (sent cx env fs path fd (fs.inodes f.inode).data).1 ∧
      up.dict = tagged (fillMetadataFromStat env Dict.empty stat)
        (sent cx env fs path fd (fs.inodes f.inode).data).2 := by
  unfold sent
  by_cases hz : startsWithNoCase cx.conf.compressionMethod textZlib = true
  · rw [if_pos hz]
    obtain ⟨up, fs₁, n, hu, hs⟩ := releaseUpload_zip hz h
    exact ⟨up, sendUpload_zero hs, zipUpload_some hw hf h0 hu⟩
  · rw [if_neg hz]
    obtain ⟨n, hs⟩ := releaseUpload_whole hz h
    exact ⟨_, sendUpload_zero hs, remaining_eq hf h0, rfl⟩

end DropletFs
