import DropletFs.Model.Zip

/-! What `zip` and `unzip` make of a file: the whole of it goes through the coder once and in order,
whatever the coder takes and gives in one call. -/

namespace DropletFs

open CText Stream

/-- Some call of stdio fails. -/
def Stdio.Fails (io : Stdio) : Prop := (∃ k, io.reads k = true) ∨ ∃ k, io.writes k ≠ none

theorem Stdio.quiet_not_fails : ¬Stdio.quiet.Fails := by
  intro h
  cases h with
  | inl h =>
    obtain ⟨_, hk⟩ := h
    cases hk
  | inr h =>
    obtain ⟨_, hk⟩ := h
    exact hk rfl

/-- What every fuel above `n` gives, by the fuel that is left after one turn. -/
theorem fuel_succ {α : Type} {f : Nat → α} {res : α} {n : Nat} (h : ∀ m, n ≤ m → f (m + 1) = res) :
    ∀ fuel, n < fuel → f fuel = res := by
  intro fuel hfuel
  obtain ⟨m, rfl⟩ : ∃ m, fuel = m + 1 := ⟨fuel - 1, by omega⟩
  exact h m (by omega)

section Write

variable {io : Stdio} {dest dest' : Dest} {out : Bytes}

theorem fwrite_true (h : fwrite io dest out = (true, dest')) :
    dest'.written = dest.written ++ out := by
  unfold fwrite at h
  cases hw : io.writes dest.calls with
  | none =>
    rw [hw] at h
    exact (congrArg Dest.written (Prod.mk.inj h).2).symm
  | some n =>
    rw [hw] at h
    obtain ⟨hn, hd⟩ := Prod.mk.inj h
    rw [← hd, List.take_of_length_le (of_decide_eq_true hn)]

theorem fwrite_false (h : fwrite io dest out = (false, dest')) : io.Fails := by
  unfold fwrite at h
  cases hw : io.writes dest.calls with
  | none =>
    rw [hw] at h
    cases h
  | some n => exact .inr ⟨dest.calls, by simp [hw]⟩

theorem fwrite_nil (io : Stdio) (dest : Dest) :
    fwrite io dest [] = (true, ⟨dest.written, dest.calls + 1⟩) := by
  unfold fwrite
  cases io.writes dest.calls <;> simp

end Write

theorem ZCode.eq_streamEnd {c : ZCode} (h : c.verdict = .last) : c = .streamEnd := by
  cases c <;> first | rfl | cases h

section Compress

variable {τ δ : Type} {z : Zlib τ δ} {F : Encoding UInt8}
  {Has : Bool → τ → Bytes → Bytes → Bytes → Prop}
  {load : Bool → τ → Bytes → Nat}

/-- How the inner loop of `zip` ends on `inp` when `x` has been taken and `w` given: on a failed
write, or with all taken, and the word complete if this is the end of the file. -/
inductive ZipDrained (F : Encoding UInt8) (Has : Bool → τ → Bytes → Bytes → Bytes → Prop)
    (io : Stdio)
    (flush : Bool) (x w inp : Bytes) (dest : Dest) :
    Except ZExit (ZStream τ × ZCode × Dest) → Prop
  | failed (dest' : Dest) : io.Fails →
      ZipDrained F Has io flush x w inp dest (.error (.returns .errno dest'))
  | drained (t : τ) (ret : ZCode) (dest' : Dest) (out : Bytes) :
      dest'.written = dest.written ++ out → Has flush t (x ++ inp) (w ++ out) [] →
      (flush = true → ret = .streamEnd ∧ F.Codes (x ++ inp) (w ++ out)) →
      ZipDrained F Has io flush x w inp dest (.ok (⟨t, []⟩, ret, dest'))

/-- What follows the first call is what follows from the start. -/
theorem ZipDrained.after {io : Stdio} {flush : Bool} {x w inp a b out : Bytes} {dest dest' : Dest}
    {res : Except ZExit (ZStream τ × ZCode × Dest)}
    (h : ZipDrained F Has io flush (x ++ a) (w ++ out) b dest' res) (hab : a ++ b = inp)
    (hd : dest'.written = dest.written ++ out) : ZipDrained F Has io flush x w inp dest res := by
  cases h with
  | failed d hf => exact .failed d hf
  | drained t ret d more hd' hhas hend =>
    rw [List.append_assoc, List.append_assoc, hab] at hhas hend
    apply ZipDrained.drained t ret d (out ++ more) _ hhas hend
    rw [hd', hd, List.append_assoc]

section Step

variable {io : Stdio} {flush : Bool} {t : τ} {inp : Bytes} {dest dest' : Dest} {fuel : Nat}
  {r : Turn τ UInt8 ZCode}

theorem zipDrain_failed (hr : z.deflate flush t inp chunk = r) (hs : r.code ≠ .streamError)
    (hw : fwrite io dest r.out = (false, dest')) :
    zipDrain z io flush (fuel + 1) ⟨t, inp⟩ dest = .error (.returns .errno dest') := by
  rw [zipDrain]
  dsimp only
  rw [hr, if_neg hs, hw]

theorem zipDrain_full (hr : z.deflate flush t inp chunk = r) (hs : r.code ≠ .streamError)
    (hw : fwrite io dest r.out = (true, dest')) (hl : r.out.length = chunk) :
    zipDrain z io flush (fuel + 1) ⟨t, inp⟩ dest =
      zipDrain z io flush fuel ⟨r.state, inp.drop r.used⟩ dest' := by
  rw [zipDrain]
  dsimp only
  rw [hr, if_neg hs, hw]
  exact if_pos hl

theorem zipDrain_last (hr : z.deflate flush t inp chunk = r) (hs : r.code ≠ .streamError)
    (hw : fwrite io dest r.out = (true, dest')) (hl : r.out.length ≠ chunk) :
    zipDrain z io flush (fuel + 1) ⟨t, inp⟩ dest =
      .ok (⟨r.state, inp.drop r.used⟩, r.code, dest') := by
  rw [zipDrain]
  dsimp only
  rw [hr, if_neg hs, hw]
  exact if_neg hl

end Step

theorem zipDrain_spec (io : Stdio) (h : Encodes F ZCode.verdict z.deflate Has load) {flush : Bool}
    (n : Nat) : ∀ {t : τ} {x w inp : Bytes} (dest : Dest), Has flush t x w inp →
      load flush t inp ≤ n → ∃ res,
        (∀ fuel, n < fuel → zipDrain z io flush fuel ⟨t, inp⟩ dest = res) ∧
          ZipDrained F Has io flush x w inp dest res := by
  induction n using Nat.strong_induction_on with
  | _ n ih =>
    intro t x w inp dest hhas hload
    have hsane : (z.deflate flush t inp chunk).code ≠ .streamError := by
      intro hc
      apply h.sane chunk hhas
      rw [hc]
      rfl
    have hout := h.out_le chunk hhas
    have hkeeps := h.keeps chunk hhas
    have hdec := h.load_le chunk hhas
    have hdrained := h.drained chunk hhas
    have hends : flush = true → (z.deflate flush t inp chunk).out.length < chunk →
        ZCode.verdict (z.deflate flush t inp chunk).code = .last ∧
          F.Codes (x ++ inp) (w ++ (z.deflate flush t inp chunk).out) := by
      intro hf
      subst hf
      exact h.ends chunk hhas
    generalize hr : z.deflate flush t inp chunk = r at *
    cases hw : fwrite io dest r.out with
    | mk ok dest' =>
      cases ok with
      | false =>
        refine ⟨_, fuel_succ ?_, .failed dest' (fwrite_false hw)⟩
        intro m _
        exact zipDrain_failed hr hsane hw
      | true =>
        have hdest := fwrite_true hw
        have hpos : 0 < chunk := by decide
        by_cases hfull : r.out.length = chunk
        · obtain ⟨res, hres, hsp⟩ := ih (n - chunk) (by omega) dest' hkeeps (by omega)
          refine ⟨res, fuel_succ ?_, hsp.after (List.take_append_drop ..) hdest⟩
          intro m hm
          rw [zipDrain_full hr hsane hw hfull]
          exact hres m (by omega)
        · have hlt : r.out.length < chunk := by omega
          have hused := hdrained hlt
          rw [hused, List.take_length, List.drop_length] at hkeeps
          have hend : flush = true → r.code = .streamEnd ∧ F.Codes (x ++ inp) (w ++ r.out) := by
            intro hf
            obtain ⟨hv, hc⟩ := hends hf hlt
            exact ⟨ZCode.eq_streamEnd hv, hc⟩
          refine ⟨_, fuel_succ ?_, .drained r.state r.code dest' r.out hdest hkeeps hend⟩
          intro m _
          rw [zipDrain_last hr hsane hw hfull, hused, List.drop_length]

/-- How `zip` ends once `x` has been taken and `w` given, with `source` still to be read. -/
inductive ZipEnds (F : Encoding UInt8) (io : Stdio) (x w source : Bytes) (dest : Dest) :
    Except ZExit (ZCode × Dest) → Prop
  | failed (dest' : Dest) : io.Fails → ZipEnds F io x w source dest (.ok (.errno, dest'))
  | written (dest' : Dest) (out : Bytes) : dest'.written = dest.written ++ out →
      F.Codes (x ++ source) (w ++ out) → ZipEnds F io x w source dest (.ok (.ok, dest'))

/-- What follows the first chunk is what follows from the start. -/
theorem ZipEnds.after {io : Stdio} {x w source a b out : Bytes} {dest dest' : Dest}
    {res : Except ZExit (ZCode × Dest)} (h : ZipEnds F io (x ++ a) (w ++ out) b dest' res)
    (hab : a ++ b = source) (hd : dest'.written = dest.written ++ out) :
    ZipEnds F io x w source dest res := by
  cases h with
  | failed d hf => exact .failed d hf
  | written d more hd' hc =>
    rw [List.append_assoc, List.append_assoc, hab] at hc
    apply ZipEnds.written d (out ++ more) _ hc
    rw [hd', hd, List.append_assoc]

theorem zipLoop_spec (io : Stdio) (h : Encodes F ZCode.verdict z.deflate Has load) (n : Nat) :
    ∀ {t : τ} {x w : Bytes} (k : Nat) (source : Bytes) (dest : Dest), source.length ≤ n →
      Has false t x w [] → ∃ N res,
        (∀ fuel, N < fuel → ZExit.collect (zipLoop z io fuel k t source dest) = res) ∧
          ZipEnds F io x w source dest res := by
  induction n using Nat.strong_induction_on with
  | _ n ih =>
    intro t x w k source dest hn hhas
    by_cases hread : io.reads k = true
    · refine ⟨0, _, fuel_succ ?_, .failed dest (.inl ⟨k, hread⟩)⟩
      intro m _
      rw [zipLoop, if_pos hread]
      rfl
    have hpos : 0 < chunk := by decide
    have hfeed := h.feed (decide (source.length < chunk)) (source.take chunk) hhas
    obtain ⟨res, hres, hsp⟩ := zipDrain_spec io h _ dest hfeed le_rfl
    generalize load (decide (source.length < chunk)) t (source.take chunk) = l at hres
    cases hsp with
    | failed dest' hf =>
      refine ⟨l + 1, _, fuel_succ ?_, .failed dest' hf⟩
      intro m hm
      rw [zipLoop, if_neg hread]
      dsimp only
      rw [hres m (by omega)]
      rfl
    | drained t' ret dest' out hd hhas' hend =>
      by_cases heof : source.length < chunk
      · have htake : source.take chunk = source := List.take_of_length_le heof.le
        obtain ⟨hret, hc⟩ := hend (decide_eq_true heof)
        rw [htake] at hc
        refine ⟨l + 1, _, fuel_succ ?_, .written dest' out hd hc⟩
        intro m hm
        rw [zipLoop, if_neg hread]
        dsimp only
        rw [hres m (by omega)]
        dsimp only
        rw [if_neg (by simp), if_pos (decide_eq_true heof), if_pos hret]
        rfl
      · rw [decide_eq_false heof] at hhas'
        have hshort : (source.drop chunk).length ≤ n - chunk := by
          rw [List.length_drop]
          omega
        obtain ⟨N, res', hrest, hsp'⟩ := ih (n - chunk) (by omega) (k + 1) (source.drop chunk)
          dest' hshort hhas'
        refine ⟨max (l + 1) (N + 1), res', fuel_succ ?_, hsp'.after (List.take_append_drop ..) hd⟩
        intro m hm
        rw [zipLoop, if_neg hread]
        dsimp only
        rw [hres m (by omega)]
        dsimp only
        rw [if_neg (by simp), if_neg (by simp [heof])]
        exact hrest m (by omega)

end Compress

/-- Some call of `inflate` finds no memory. -/
def Zlib.Starves {τ δ : Type} (z : Zlib τ δ) : Prop :=
  ∃ t inp, (z.inflate t inp chunk).code = .memError

section Decompress

variable {τ δ : Type} {z : Zlib τ δ} {F : Encoding UInt8} {Got : δ → Bytes → Bytes → Bytes → Prop}
  {Done : δ → Prop} {load : δ → Bytes → Nat}

section Step

variable {io : Stdio} {t : δ} {inp : Bytes} {dest dest' : Dest} {fuel : Nat}
  {r : Turn δ UInt8 ZCode}

/-- The loop writes what a call gives when the call found more to do or the end of the word. -/
theorem unzipDrain_write (hr : z.inflate t inp chunk = r)
    (hv : r.code.verdict = .more ∨ r.code.verdict = .last) :
    unzipDrain z io (fuel + 1) ⟨t, inp⟩ dest =
      match fwrite io dest r.out with
      | (false, dest) => .error (.returns .errno dest)
      | (true, dest) =>
        if r.out.length = chunk then unzipDrain z io fuel ⟨r.state, inp.drop r.used⟩ dest
        else .ok (⟨r.state, inp.drop r.used⟩, r.code, dest) := by
  rw [unzipDrain]
  dsimp only
  rw [hr]
  cases hc : r.code <;> rw [hc] at hv <;> first | rfl | simp [ZCode.verdict] at hv

theorem unzipDrain_failed (hr : z.inflate t inp chunk = r)
    (hv : r.code.verdict = .more ∨ r.code.verdict = .last)
    (hw : fwrite io dest r.out = (false, dest')) :
    unzipDrain z io (fuel + 1) ⟨t, inp⟩ dest = .error (.returns .errno dest') := by
  rw [unzipDrain_write hr hv, hw]

theorem unzipDrain_full (hr : z.inflate t inp chunk = r)
    (hv : r.code.verdict = .more ∨ r.code.verdict = .last)
    (hw : fwrite io dest r.out = (true, dest')) (hl : r.out.length = chunk) :
    unzipDrain z io (fuel + 1) ⟨t, inp⟩ dest =
      unzipDrain z io fuel ⟨r.state, inp.drop r.used⟩ dest' := by
  rw [unzipDrain_write hr hv, hw]
  exact if_pos hl

theorem unzipDrain_last (hr : z.inflate t inp chunk = r)
    (hv : r.code.verdict = .more ∨ r.code.verdict = .last)
    (hw : fwrite io dest r.out = (true, dest')) (hl : r.out.length ≠ chunk) :
    unzipDrain z io (fuel + 1) ⟨t, inp⟩ dest =
      .ok (⟨r.state, inp.drop r.used⟩, r.code, dest') := by
  rw [unzipDrain_write hr hv, hw]
  exact if_neg hl

end Step

/-- How the inner loop of `unzip` ends on `inp` when `w` has been taken and `x` given. -/
inductive UnzipDrained (z : Zlib τ δ) (F : Encoding UInt8) (Got : δ → Bytes → Bytes → Bytes → Prop)
    (io : Stdio) (w x inp : Bytes) (dest : Dest) : Except ZExit (ZStream δ × ZCode × Dest) → Prop
  | failed (dest' : Dest) : io.Fails →
      UnzipDrained z F Got io w x inp dest (.error (.returns .errno dest'))
  | starved (dest' : Dest) : z.Starves →
      UnzipDrained z F Got io w x inp dest (.error (.returns .memError dest'))
  | corrupt (dest' : Dest) : (∀ y v, F.Codes y v → ¬w ++ inp <+: v ∧ ¬v <+: w ++ inp) →
      UnzipDrained z F Got io w x inp dest (.error (.returns .dataError dest'))
  | ended (strm : ZStream δ) (dest' : Dest) (out v : Bytes) :
      dest'.written = dest.written ++ out → F.Codes (x ++ out) v → v <+: w ++ inp →
      UnzipDrained z F Got io w x inp dest (.ok (strm, .streamEnd, dest'))
  | drained (t : δ) (ret : ZCode) (dest' : Dest) (out : Bytes) : ret ≠ .streamEnd →
      dest'.written = dest.written ++ out → Got t (w ++ inp) (x ++ out) [] → ¬F.Begins (w ++ inp) →
      UnzipDrained z F Got io w x inp dest (.ok (⟨t, []⟩, ret, dest'))

/-- What follows the first call is what follows from the start. -/
theorem UnzipDrained.after {io : Stdio} {w x inp a b out : Bytes} {dest dest' : Dest}
    {res : Except ZExit (ZStream δ × ZCode × Dest)}
    (h : UnzipDrained z F Got io (w ++ a) (x ++ out) b dest' res) (hab : a ++ b = inp)
    (hd : dest'.written = dest.written ++ out) : UnzipDrained z F Got io w x inp dest res := by
  cases h with
  | failed d hf => exact .failed d hf
  | starved d hs => exact .starved d hs
  | corrupt d hc =>
    rw [List.append_assoc, hab] at hc
    exact .corrupt d hc
  | ended strm d more v hd' hc hv =>
    rw [List.append_assoc] at hc
    rw [List.append_assoc, hab] at hv
    apply UnzipDrained.ended strm d (out ++ more) v _ hc hv
    rw [hd', hd, List.append_assoc]
  | drained t ret d more hret hd' hgot hb =>
    rw [List.append_assoc, hab] at hb
    rw [List.append_assoc, List.append_assoc, hab] at hgot
    apply UnzipDrained.drained t ret d (out ++ more) hret _ hgot hb
    rw [hd', hd, List.append_assoc]

theorem unzipDrain_corrupt {io : Stdio} {t : δ} {inp : Bytes} {r : Turn δ UInt8 ZCode}
    (hr : z.inflate t inp chunk = r) (hv : r.code.verdict = .corrupt) (dest : Dest) (fuel : Nat) :
    unzipDrain z io (fuel + 1) ⟨t, inp⟩ dest = .error (.returns .dataError dest) := by
  rw [unzipDrain]
  dsimp only
  rw [hr]
  cases hc : r.code <;> rw [hc] at hv <;> first | rfl | cases hv

theorem unzipDrain_starved {io : Stdio} {t : δ} {inp : Bytes} {r : Turn δ UInt8 ZCode}
    (hr : z.inflate t inp chunk = r) (hc : r.code = .memError) (dest : Dest) (fuel : Nat) :
    unzipDrain z io (fuel + 1) ⟨t, inp⟩ dest = .error (.returns .memError dest) := by
  rw [unzipDrain]
  dsimp only
  rw [hr, hc]

/-- A word that ends just when the room is full ends again in the next call. -/
theorem unzipDrain_done (io : Stdio) (h : Decodes F ZCode.verdict z.inflate Got Done load) {t : δ}
    (ht : Done t) (inp : Bytes) (dest : Dest) : ∃ strm dest', dest'.written = dest.written ∧
      ∀ fuel, unzipDrain z io (fuel + 1) ⟨t, inp⟩ dest = .ok (strm, .streamEnd, dest') := by
  obtain ⟨hv, hout⟩ := h.again inp chunk ht
  have hw := fwrite_nil io dest
  rw [← hout] at hw
  have hl : (z.inflate t inp chunk).out.length ≠ chunk := by
    rw [hout]
    decide
  refine ⟨⟨(z.inflate t inp chunk).state, inp.drop (z.inflate t inp chunk).used⟩,
    ⟨dest.written, dest.calls + 1⟩, rfl, fun fuel => ?_⟩
  rw [unzipDrain_last rfl (.inr hv) hw hl, ZCode.eq_streamEnd hv]

/-- The call that ends the word. -/
theorem unzipDrain_ended (io : Stdio) (h : Decodes F ZCode.verdict z.inflate Got Done load) {t : δ}
    {w x inp : Bytes} (dest : Dest) (hgot : Got t w x inp)
    (hv : (z.inflate t inp chunk).code.verdict = .last) : ∃ res,
      (∀ fuel, 1 < fuel → unzipDrain z io fuel ⟨t, inp⟩ dest = res) ∧
        UnzipDrained z F Got io w x inp dest res := by
  obtain ⟨hc, hdone⟩ := h.last chunk hgot hv
  generalize hr : z.inflate t inp chunk = r at *
  have hword : w ++ inp.take r.used <+: w ++ inp :=
    (List.prefix_append_right_inj w).mpr (List.take_prefix _ _)
  cases hw : fwrite io dest r.out with
  | mk ok dest' =>
    cases ok with
    | false =>
      refine ⟨_, fuel_succ ?_, .failed dest' (fwrite_false hw)⟩
      intro m _
      exact unzipDrain_failed hr (.inr hv) hw
    | true =>
      have hdest := fwrite_true hw
      by_cases hfull : r.out.length = chunk
      · obtain ⟨strm, dest'', hsame, hstrm⟩ := unzipDrain_done io h hdone (inp.drop r.used) dest'
        refine ⟨_, fuel_succ ?_, .ended strm dest'' r.out _ (hsame.trans hdest) hc hword⟩
        intro m hm
        obtain ⟨m, rfl⟩ : ∃ k, m = k + 1 := ⟨m - 1, by omega⟩
        rw [unzipDrain_full hr (.inr hv) hw hfull, hstrm]
      · refine ⟨_, fuel_succ ?_, .ended ⟨r.state, inp.drop r.used⟩ dest' r.out _ hdest hc hword⟩
        intro m _
        rw [unzipDrain_last hr (.inr hv) hw hfull, ZCode.eq_streamEnd hv]

theorem unzipDrain_spec (io : Stdio) (h : Decodes F ZCode.verdict z.inflate Got Done load)
    (n : Nat) :
    ∀ {t : δ} {w x inp : Bytes} (dest : Dest), Got t w x inp → load t inp ≤ n → ∃ res,
      (∀ fuel, n + 1 < fuel → unzipDrain z io fuel ⟨t, inp⟩ dest = res) ∧
        UnzipDrained z F Got io w x inp dest res := by
  induction n using Nat.strong_induction_on with
  | _ n ih =>
    intro t w x inp dest hgot hload
    have hsane := h.sane chunk hgot
    have hpos : 0 < chunk := by decide
    cases hv : (z.inflate t inp chunk).code.verdict with
    | misuse => exact (hsane hv).elim
    | corrupt =>
      refine ⟨_, fuel_succ ?_, .corrupt dest (h.corrupt chunk hgot hv)⟩
      intro m _
      exact unzipDrain_corrupt rfl hv dest m
    | noMemory =>
      have hc : (z.inflate t inp chunk).code = .memError := by
        cases hc : (z.inflate t inp chunk).code <;> rw [hc] at hv <;> first | rfl | cases hv
      refine ⟨_, fuel_succ ?_, .starved dest ⟨t, inp, hc⟩⟩
      intro m _
      exact unzipDrain_starved rfl hc dest m
    | last =>
      obtain ⟨res, hres, hsp⟩ := unzipDrain_ended io h dest hgot hv
      exact ⟨res, fun fuel hfuel => hres fuel (by omega), hsp⟩
    | more =>
      have hout := h.out_le chunk hgot
      have hmore := h.more chunk hgot hv
      have hdrained := h.drained chunk hgot hv
      have hdec := h.load_le chunk hgot hv
      generalize hr : z.inflate t inp chunk = r at *
      cases hw : fwrite io dest r.out with
      | mk ok dest' =>
        cases ok with
        | false =>
          refine ⟨_, fuel_succ ?_, .failed dest' (fwrite_false hw)⟩
          intro m _
          exact unzipDrain_failed hr (.inl hv) hw
        | true =>
          have hdest := fwrite_true hw
          by_cases hfull : r.out.length = chunk
          · obtain ⟨res, hres, hsp⟩ := ih (n - chunk) (by omega) dest' hmore (by omega)
            refine ⟨res, fuel_succ ?_, hsp.after (List.take_append_drop ..) hdest⟩
            intro m hm
            rw [unzipDrain_full hr (.inl hv) hw hfull]
            exact hres m (by omega)
          · obtain ⟨hused, hb⟩ := hdrained (by omega)
            rw [hused, List.take_length, List.drop_length] at hmore
            have hret : r.code ≠ .streamEnd := by
              intro hc
              rw [hc] at hv
              cases hv
            refine ⟨_, fuel_succ ?_, .drained r.state r.code dest' r.out hret hdest hmore hb⟩
            intro m _
            rw [unzipDrain_last hr (.inl hv) hw hfull, hused, List.drop_length]

/-- How `unzip` ends once `w` has been taken and `x` given, with `source` still to be read. -/
inductive UnzipEnds (z : Zlib τ δ) (F : Encoding UInt8) (io : Stdio) (w x source : Bytes)
    (dest : Dest) :
    Except ZExit (ZCode × Dest) → Prop
  | failed (dest' : Dest) : io.Fails →
      UnzipEnds z F io w x source dest (.ok (.errno, dest'))
  | starved (dest' : Dest) : z.Starves →
      UnzipEnds z F io w x source dest (.ok (.memError, dest'))
  | invalid (dest' : Dest) : ¬F.Begins (w ++ source) →
      UnzipEnds z F io w x source dest (.ok (.dataError, dest'))
  | ended (dest' : Dest) (out v : Bytes) : dest'.written = dest.written ++ out →
      F.Codes (x ++ out) v → v <+: w ++ source → UnzipEnds z F io w x source dest (.ok (.ok, dest'))

/-- What follows the first chunk is what follows from the start. -/
theorem UnzipEnds.after {io : Stdio} {w x source a b out : Bytes} {dest dest' : Dest}
    {res : Except ZExit (ZCode × Dest)} (h : UnzipEnds z F io (w ++ a) (x ++ out) b dest' res)
    (hab : a ++ b = source) (hd : dest'.written = dest.written ++ out) :
    UnzipEnds z F io w x source dest res := by
  cases h with
  | failed d hf => exact .failed d hf
  | starved d hs => exact .starved d hs
  | invalid d hb =>
    rw [List.append_assoc, hab] at hb
    exact .invalid d hb
  | ended d more v hd' hc hv =>
    rw [List.append_assoc] at hc
    rw [List.append_assoc, hab] at hv
    apply UnzipEnds.ended d (out ++ more) v _ hc hv
    rw [hd', hd, List.append_assoc]

theorem unzipLoop_spec (io : Stdio) (h : Decodes F ZCode.verdict z.inflate Got Done load)
    (n : Nat) :
    ∀ {t : δ} {w x : Bytes} (k : Nat) (source : Bytes) (ret : ZCode) (dest : Dest),
      source.length ≤ n → Got t w x [] → ¬F.Begins w → ret ≠ .streamEnd → ∃ N res,
        (∀ fuel, N < fuel → ZExit.collect (unzipLoop z io fuel k t source ret dest) = res) ∧
          UnzipEnds z F io w x source dest res := by
  induction n using Nat.strong_induction_on with
  | _ n ih =>
    intro t w x k source ret dest hn hgot hbegins hret
    by_cases hread : io.reads k = true
    · refine ⟨0, _, fuel_succ ?_, .failed dest (.inl ⟨k, hread⟩)⟩
      intro m _
      rw [unzipLoop, if_pos hread]
      rfl
    by_cases hnil : source.take chunk = []
    · have hsource : source = [] := by
        cases source with
        | nil => rfl
        | cons b source => cases hnil
      refine ⟨0, _, fuel_succ ?_, .invalid dest ?_⟩
      · intro m _
        rw [unzipLoop, if_neg hread, if_pos hnil, if_neg hret]
        rfl
      · rwa [hsource, List.append_nil]
    · have hbefore : w ++ source.take chunk <+: w ++ source :=
        (List.prefix_append_right_inj w).mpr (List.take_prefix _ _)
      obtain ⟨res, hres, hsp⟩ := unzipDrain_spec io h _ dest (h.feed (source.take chunk) hgot)
        le_rfl
      cases hsp with
      | failed dest' hf =>
        refine ⟨load t (source.take chunk) + 2, _, fuel_succ ?_, .failed dest' hf⟩
        intro m hm
        rw [unzipLoop, if_neg hread, if_neg hnil, hres m (by omega)]
        rfl
      | starved dest' hs =>
        refine ⟨load t (source.take chunk) + 2, _, fuel_succ ?_, .starved dest' hs⟩
        intro m hm
        rw [unzipLoop, if_neg hread, if_neg hnil, hres m (by omega)]
        rfl
      | corrupt dest' hc =>
        refine ⟨load t (source.take chunk) + 2, _, fuel_succ ?_, .invalid dest' ?_⟩
        · intro m hm
          rw [unzipLoop, if_neg hread, if_neg hnil, hres m (by omega)]
          rfl
        · intro hb
          obtain ⟨y, v, hv, hp⟩ := hb
          obtain ⟨hnot, hnot'⟩ := hc y v hv
          cases List.prefix_or_prefix_of_prefix hbefore hp with
          | inl h => exact hnot h
          | inr h => exact hnot' h
      | ended strm dest' out v hd hc hv =>
        refine ⟨load t (source.take chunk) + 2, _, fuel_succ ?_,
          .ended dest' out v hd hc (hv.trans hbefore)⟩
        intro m hm
        rw [unzipLoop, if_neg hread, if_neg hnil, hres m (by omega)]
        rfl
      | drained t' ret' dest' out hret' hd hgot' hb =>
        have hne : source ≠ [] := by
          intro he
          rw [he] at hnil
          exact hnil rfl
        have hlen := List.length_pos_iff.mpr hne
        have hpos : 0 < chunk := by decide
        have hshort : (source.drop chunk).length ≤ n - 1 := by
          rw [List.length_drop]
          omega
        obtain ⟨N, res', hrest, hsp'⟩ := ih (n - 1) (by omega) (k + 1) (source.drop chunk) ret'
          dest'
          hshort hgot' hb hret'
        refine ⟨max (load t (source.take chunk) + 2) (N + 1), res', fuel_succ ?_, ?_⟩
        · intro m hm
          rw [unzipLoop, if_neg hread, if_neg hnil, hres m (by omega)]
          dsimp only
          rw [if_neg hret']
          exact hrest m (by omega)
        · exact hsp'.after (List.take_append_drop ..) hd

end Decompress

/-- The documented returns of `deflateInit` and `inflateInit`. -/
def ZCode.Init (c : ZCode) : Prop :=
  c = .ok ∨ c = .memError ∨ c = .streamError ∨ c = .versionError

theorem ZCode.Init.printed {c : ZCode} (h : c.Init) : c = .ok ∨ (zerrToStr c).isSome := by
  rcases h with rfl | rfl | rfl | rfl
  · exact .inl rfl
  · exact .inr rfl
  · exact .inr rfl
  · exact .inr rfl

/-- `deflate` and `inflate` write and read the words of one format. -/
structure Zlib.Lawful {τ δ : Type} (z : Zlib τ δ) (F : Encoding UInt8) : Prop where
  deflateInit : ∀ level, (z.deflateInit level).1.Init
  inflateInit : z.inflateInit.1.Init
  deflate : ∃ Has load, Encodes F ZCode.verdict z.deflate Has load ∧
    ∀ level t, z.deflateInit level = (.ok, t) → Has false t [] [] []
  inflate : ∃ Got Done load, Decodes F ZCode.verdict z.inflate Got Done load ∧
    ∀ t, z.inflateInit = (.ok, t) → Got t [] [] []

end DropletFs
