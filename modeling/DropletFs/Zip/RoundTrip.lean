import DropletFs.Zip.Stored
import DropletFs.Model.Sample

/-! `zip` and `unzip` as a pair, for any zlib that keeps to its documentation, and the codec that
the other modules take for granted. -/

namespace DropletFs

open CText Stream

section Results

variable {τ δ : Type} {z : Zlib τ δ} {F : Encoding UInt8}

/-- The fuel is enough from some amount on. -/
def Runs (f : Nat → Except ZExit (ZCode × Dest)) (ret : ZCode) (dest : Dest) : Prop :=
  ∃ N, ∀ fuel, N < fuel → f fuel = .ok (ret, dest)

theorem Runs.unique {f : Nat → Except ZExit (ZCode × Dest)} {ret ret' : ZCode} {dest dest' : Dest}
    (h : Runs f ret dest) (h' : Runs f ret' dest') : ret = ret' ∧ dest = dest' := by
  obtain ⟨N, hN⟩ := h
  obtain ⟨N', hN'⟩ := h'
  have he := (hN (max N N' + 1) (by omega)).symm.trans (hN' (max N N' + 1) (by omega))
  exact Prod.mk.inj (Except.ok.inj he)

theorem zip_spec (h : z.Lawful F) (io : Stdio) (source : Bytes) (level : Int) :
    ∃ ret dest, Runs (fun fuel => zip z io fuel source level) ret dest ∧
      (ret = .ok ∧ F.Codes source dest.written ∨ ret = .errno ∧ io.Fails ∨
        ret ≠ .ok ∧ ret = (z.deflateInit level).1) := by
  obtain ⟨Has, load, henc, hstart⟩ := h.deflate
  unfold zip
  cases hi : z.deflateInit level with
  | mk code t =>
    by_cases hok : code = .ok
    · rw [hok] at hi ⊢
      obtain ⟨N, res, hrun, hsp⟩ := zipLoop_spec io henc _ 0 source Dest.empty le_rfl
        (hstart level t hi)
      cases hsp with
      | failed dest hf => exact ⟨.errno, dest, ⟨N, hrun⟩, .inr (.inl ⟨rfl, hf⟩)⟩
      | written dest out hd hc =>
        refine ⟨.ok, dest, ⟨N, hrun⟩, .inl ⟨rfl, ?_⟩⟩
        rw [hd]
        exact hc
    · refine ⟨code, Dest.empty, ⟨0, ?_⟩, .inr (.inr ⟨hok, rfl⟩)⟩
      intro fuel _
      cases code <;> first | rfl | exact (hok rfl).elim

theorem unzip_spec (h : z.Lawful F) (io : Stdio) (source : Bytes) :
    ∃ ret dest, Runs (fun fuel => unzip z io fuel source) ret dest ∧
      (ret = .ok ∧ (∃ w, w <+: source ∧ F.Codes dest.written w) ∨
        ret = .dataError ∧ ¬F.Begins source ∨ ret = .errno ∧ io.Fails ∨
        ret = .memError ∧ z.Starves ∨ ret ≠ .ok ∧ ret = z.inflateInit.1) := by
  obtain ⟨Got, Done, load, hdec, hstart⟩ := h.inflate
  unfold unzip
  cases hi : z.inflateInit with
  | mk code t =>
    by_cases hok : code = .ok
    · rw [hok] at hi ⊢
      obtain ⟨N, res, hrun, hsp⟩ := unzipLoop_spec io hdec _ 0 source .ok Dest.empty le_rfl
        (hstart t hi) F.not_begins_nil (by decide)
      cases hsp with
      | failed dest hf => exact ⟨.errno, dest, ⟨N, hrun⟩, .inr (.inr (.inl ⟨rfl, hf⟩))⟩
      | starved dest hs =>
        exact ⟨.memError, dest, ⟨N, hrun⟩, .inr (.inr (.inr (.inl ⟨rfl, hs⟩)))⟩
      | invalid dest hb => exact ⟨.dataError, dest, ⟨N, hrun⟩, .inr (.inl ⟨rfl, hb⟩)⟩
      | ended dest out w hd hc hw =>
        refine ⟨.ok, dest, ⟨N, hrun⟩, .inl ⟨rfl, w, hw, ?_⟩⟩
        rw [hd]
        exact hc
    · refine ⟨code, Dest.empty, ⟨0, ?_⟩, .inr (.inr (.inr (.inr ⟨hok, rfl⟩)))⟩
      intro fuel _
      cases code <;> first | rfl | exact (hok rfl).elim

theorem zip_undisturbed (h : z.Lawful F) {io : Stdio} (hio : ¬io.Fails) (source : Bytes)
    (level : Int)
    (hinit : (z.deflateInit level).1 = .ok) :
    ∃ dest, Runs (fun fuel => zip z io fuel source level) .ok dest := by
  obtain ⟨ret, dest, hrun, hret⟩ := zip_spec h io source level
  rcases hret with ⟨rfl, _⟩ | ⟨_, hf⟩ | ⟨hne, he⟩
  · exact ⟨dest, hrun⟩
  · exact (hio hf).elim
  · exact (hne (he.trans hinit)).elim

theorem word_of_zip (h : z.Lawful F) {io : Stdio} {source : Bytes} {level : Int} {dest : Dest}
    (hz : Runs (fun fuel => zip z io fuel source level) .ok dest) :
    F.Codes source dest.written := by
  obtain ⟨ret, dest', hrun, hret⟩ := zip_spec h io source level
  obtain ⟨rfl, rfl⟩ := hrun.unique hz
  rcases hret with ⟨_, hc⟩ | ⟨he, _⟩ | ⟨hne, _⟩
  · exact hc
  · cases he
  · exact (hne rfl).elim

/-- `zip` ends on every file, without a failed assertion and with a code that can be printed. It
returns `Z_OK` only when `dest` holds a word for all of `source`, and does so unless a call of stdio
or the start fails. -/
theorem zip_result (h : z.Lawful F) (io : Stdio) (source : Bytes) (level : Int) :
    ∃ ret dest, Runs (fun fuel => zip z io fuel source level) ret dest ∧
      (ret = .ok ∨ (zerrToStr ret).isSome) ∧
      (ret = .ok ∧ F.Codes source dest.written ∨ ret = .errno ∧ io.Fails ∨
        ret ≠ .ok ∧ ret = (z.deflateInit level).1) := by
  obtain ⟨ret, dest, hrun, hret⟩ := zip_spec h io source level
  refine ⟨ret, dest, hrun, ?_, hret⟩
  rcases hret with ⟨rfl, _⟩ | ⟨rfl, _⟩ | ⟨_, rfl⟩
  · exact .inl rfl
  · exact .inr rfl
  · exact (h.deflateInit level).printed

theorem zip_result_sample : ∃ ret dest,
    Runs (fun fuel => zip storedZlib Stdio.quiet fuel [97] 0) ret dest ∧
      (ret = .ok ∨ (zerrToStr ret).isSome) ∧
      (ret = .ok ∧ stored.encoding.Codes [97] dest.written ∨ ret = .errno ∧ Stdio.quiet.Fails ∨
        ret ≠ .ok ∧ ret = (storedZlib.deflateInit 0).1) :=
  zip_result storedZlib_lawful Stdio.quiet [97] 0

/-- `unzip` ends on every file, without a failed assertion and with a code that can be printed.
Unless a call of stdio, the memory or the start fails, it returns `Z_OK` with the value of the word
that `source` begins with, or `Z_DATA_ERROR` when it begins with none. -/
theorem unzip_result (h : z.Lawful F) (io : Stdio) (source : Bytes) :
    ∃ ret dest, Runs (fun fuel => unzip z io fuel source) ret dest ∧
      (ret = .ok ∨ (zerrToStr ret).isSome) ∧
      (ret = .ok ∧ (∃ w, w <+: source ∧ F.Codes dest.written w) ∨
        ret = .dataError ∧ ¬F.Begins source ∨ ret = .errno ∧ io.Fails ∨
        ret = .memError ∧ z.Starves ∨ ret ≠ .ok ∧ ret = z.inflateInit.1) := by
  obtain ⟨ret, dest, hrun, hret⟩ := unzip_spec h io source
  refine ⟨ret, dest, hrun, ?_, hret⟩
  rcases hret with ⟨rfl, _⟩ | ⟨rfl, _⟩ | ⟨rfl, _⟩ | ⟨rfl, _⟩ | ⟨_, rfl⟩
  · exact .inl rfl
  · exact .inr rfl
  · exact .inr rfl
  · exact .inr rfl
  · exact h.inflateInit.printed

theorem unzip_result_sample : ∃ ret dest,
    Runs (fun fuel => unzip storedZlib Stdio.quiet fuel [120, 1, 0]) ret dest ∧
      (ret = .ok ∨ (zerrToStr ret).isSome) ∧
      (ret = .ok ∧ (∃ w, w <+: [120, 1, 0] ∧ stored.encoding.Codes dest.written w) ∨
        ret = .dataError ∧ ¬stored.encoding.Begins [120, 1, 0] ∨
        ret = .errno ∧ Stdio.quiet.Fails ∨ ret = .memError ∧ storedZlib.Starves ∨
        ret ≠ .ok ∧ ret = storedZlib.inflateInit.1) :=
  unzip_result storedZlib_lawful Stdio.quiet [120, 1, 0]

/-- What `unzip` makes of data that begins with a word. -/
theorem unzip_word (h : z.Lawful F) {x w : Bytes} (hw : F.Codes x w) (rest : Bytes) (io : Stdio) :
    ∃ ret out, Runs (fun fuel => unzip z io fuel (w ++ rest)) ret out ∧
      (ret = .ok → out.written = x) ∧
      (¬io.Fails → ¬z.Starves → z.inflateInit.1 = .ok → ret = .ok) := by
  obtain ⟨ret, out, hrun, hret⟩ := unzip_spec h io (w ++ rest)
  have hbegins : F.Begins (w ++ rest) := ⟨x, w, hw, List.prefix_append ..⟩
  refine ⟨ret, out, hrun, ?_, ?_⟩
  · intro hok
    rcases hret with ⟨_, v, hv, hc⟩ | ⟨he, _⟩ | ⟨he, _⟩ | ⟨he, _⟩ | ⟨hne, _⟩
    · exact (F.unique_of_prefix hc hw hv (List.prefix_append ..)).2
    · cases hok.symm.trans he
    · cases hok.symm.trans he
    · cases hok.symm.trans he
    · exact (hne hok).elim
  · intro hf hs hi
    rcases hret with ⟨he, _⟩ | ⟨_, hno⟩ | ⟨_, hfail⟩ | ⟨_, hstarve⟩ | ⟨hne, he⟩
    · exact he
    · exact (hno hbegins).elim
    · exact (hf hfail).elim
    · exact (hs hstarve).elim
    · exact (hne (he.trans hi)).elim

/-- What `unzip` makes of a file that does not begin with a word. -/
theorem unzip_no_word (h : z.Lawful F) {source : Bytes} (hno : ¬F.Begins source) (io : Stdio) :
    ∃ ret out, Runs (fun fuel => unzip z io fuel source) ret out ∧ ret ≠ .ok ∧
      (¬io.Fails → ¬z.Starves → z.inflateInit.1 = .ok → ret = .dataError) := by
  obtain ⟨ret, out, hrun, hret⟩ := unzip_spec h io source
  refine ⟨ret, out, hrun, ?_, ?_⟩
  · intro hok
    rcases hret with ⟨_, w, hw, hc⟩ | ⟨he, _⟩ | ⟨he, _⟩ | ⟨he, _⟩ | ⟨hne, _⟩
    · exact hno ⟨_, w, hc, hw⟩
    · cases hok.symm.trans he
    · cases hok.symm.trans he
    · cases hok.symm.trans he
    · exact hne hok
  · intro hf hs hi
    rcases hret with ⟨_, w, hw, hc⟩ | ⟨he, _⟩ | ⟨_, hfail⟩ | ⟨_, hstarve⟩ | ⟨hne, he⟩
    · exact (hno ⟨_, w, hc, hw⟩).elim
    · exact he
    · exact (hf hfail).elim
    · exact (hs hstarve).elim
    · exact (hne (he.trans hi)).elim

/-- What `zip` wrote, `unzip` gives back, also with more data behind it, and a part of it is
refused. No failure of stdio or of the memory makes it give anything else with `Z_OK`. -/
theorem unzip_undoes_zip (h : z.Lawful F) {io : Stdio} {source : Bytes} {level : Int} {dest : Dest}
    (hz : Runs (fun fuel => zip z io fuel source level) .ok dest) (io' : Stdio) :
    (∀ rest, ∃ ret out, Runs (fun fuel => unzip z io' fuel (dest.written ++ rest)) ret out ∧
      (ret = .ok → out.written = source) ∧
      (¬io'.Fails → ¬z.Starves → z.inflateInit.1 = .ok → ret = .ok)) ∧
    ∀ part, part <+: dest.written → part ≠ dest.written →
      ∃ ret out, Runs (fun fuel => unzip z io' fuel part) ret out ∧ ret ≠ .ok ∧
        (¬io'.Fails → ¬z.Starves → z.inflateInit.1 = .ok → ret = .dataError) := by
  have hword := word_of_zip h hz
  constructor
  · intro rest
    exact unzip_word h hword rest io'
  · intro part hp hne
    apply unzip_no_word h
    intro hbegins
    obtain ⟨x, w, hc, hw⟩ := hbegins
    obtain ⟨he, _⟩ := F.unique hc hword (hw.trans hp)
    apply hne
    exact hp.eq_of_length (le_antisymm hp.length_le (he ▸ hw.length_le))

theorem unzip_undoes_zip_sample : ∃ dest,
    Runs (fun fuel => zip storedZlib Stdio.quiet fuel [97] 0) .ok dest ∧
    (∀ rest, ∃ ret out,
      Runs (fun fuel => unzip storedZlib Stdio.quiet fuel (dest.written ++ rest)) ret out ∧
      (ret = .ok → out.written = [97]) ∧
      (¬Stdio.quiet.Fails → ¬storedZlib.Starves → storedZlib.inflateInit.1 = .ok → ret = .ok)) ∧
    ∀ part, part <+: dest.written → part ≠ dest.written →
      ∃ ret out, Runs (fun fuel => unzip storedZlib Stdio.quiet fuel part) ret out ∧ ret ≠ .ok ∧
        (¬Stdio.quiet.Fails → ¬storedZlib.Starves → storedZlib.inflateInit.1 = .ok →
          ret = .dataError) := by
  obtain ⟨dest, hz⟩ := zip_undisturbed storedZlib_lawful Stdio.quiet_not_fails [97] 0 rfl
  exact ⟨dest, hz, unzip_undoes_zip storedZlib_lawful hz Stdio.quiet⟩

/-- The bytes a function leaves when it returns `Z_OK`. -/
noncomputable def outcome (f : Nat → Except ZExit (ZCode × Dest)) : Option Bytes :=
  open Classical in if h : ∃ dest, Runs f .ok dest then some h.choose.written else none

theorem outcome_eq_some {f : Nat → Except ZExit (ZCode × Dest)} {w : Bytes} :
    outcome f = some w ↔ ∃ dest, Runs f .ok dest ∧ dest.written = w := by
  unfold outcome
  split
  · rename_i h
    constructor
    · intro he
      exact ⟨h.choose, h.choose_spec, Option.some.inj he⟩
    · intro hd
      obtain ⟨dest, hrun, rfl⟩ := hd
      rw [(h.choose_spec.unique hrun).2]
  · rename_i h
    constructor
    · intro he
      cases he
    · intro hd
      obtain ⟨dest, hrun, _⟩ := hd
      exact (h ⟨dest, hrun⟩).elim

/-- The codec that the file system goes by can be had from `zip` and `unzip`: they have the laws it
asks for. -/
theorem codec_of_zlib (h : z.Lawful F) (hmem : ¬z.Starves) (hinit : z.inflateInit.1 = .ok)
    (c : Codec) : ∃ c' : Codec,
      (∀ level b w, c'.zip level b = some w ↔
        ∃ dest, Runs (fun fuel => zip z Stdio.quiet fuel b level) .ok dest ∧ dest.written = w) ∧
      (∀ w b, c'.unzip w = some b ↔
        ∃ dest, Runs (fun fuel => unzip z Stdio.quiet fuel w) .ok dest ∧ dest.written = b) ∧
      c'.encrypt = c.encrypt ∧ c'.decrypt = c.decrypt ∧ c'.md5 = c.md5 := by
  refine ⟨{ c with
    zip := fun level b => outcome fun fuel => zip z Stdio.quiet fuel b level
    unzip := fun w => outcome fun fuel => unzip z Stdio.quiet fuel w
    unzip_zip := ?_
    unzip_nil := ?_ }, fun _ _ _ => outcome_eq_some, fun _ _ => outcome_eq_some, rfl, rfl, rfl⟩
  · intro level b w hw
    obtain ⟨dest, hrun, rfl⟩ := outcome_eq_some.mp hw
    obtain ⟨ret, out, hun, hx, hok⟩ := unzip_word h (word_of_zip h hrun) [] Stdio.quiet
    obtain rfl := hok Stdio.quiet_not_fails hmem hinit
    rw [List.append_nil] at hun
    exact outcome_eq_some.mpr ⟨out, hun, hx rfl⟩
  · rw [Option.eq_none_iff_forall_ne_some]
    intro b hb
    obtain ⟨dest, hrun, _⟩ := outcome_eq_some.mp hb
    obtain ⟨ret, out, hun, hne, _⟩ := unzip_no_word h F.not_begins_nil Stdio.quiet
    exact hne (hun.unique hrun).1

theorem codec_of_zlib_sample : ∃ c' : Codec,
    (∀ level b w, c'.zip level b = some w ↔
      ∃ dest, Runs (fun fuel => zip storedZlib Stdio.quiet fuel b level) .ok dest ∧
        dest.written = w) ∧
    (∀ w b, c'.unzip w = some b ↔
      ∃ dest, Runs (fun fuel => unzip storedZlib Stdio.quiet fuel w) .ok dest ∧ dest.written = b) ∧
    c'.encrypt = Sample.codec.encrypt ∧ c'.decrypt = Sample.codec.decrypt ∧
    c'.md5 = Sample.codec.md5 :=
  codec_of_zlib storedZlib_lawful storedZlib_not_starves rfl Sample.codec

end Results

end DropletFs
