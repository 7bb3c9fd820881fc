import Mathlib.Data.List.Basic
import Mathlib.Data.List.Infix

/-! Streaming coders. A call is shown the data at hand and some room; it takes part of the data and
gives what fits. What such calls make of a format does not depend on how the data was cut. -/

namespace Stream

variable {τ β κ : Type}

/-- What one call leaves and gives. -/
structure Turn (τ β κ : Type) where
  state : τ
  used : Nat
  out : List β
  code : κ

/-- What the code of a reply says: there is more to do, the word has ended, the data is no word,
memory ran out, or the call was a wrong one. -/
inductive Verdict
  | more
  | last
  | corrupt
  | noMemory
  | misuse
  deriving DecidableEq

/-- The words of a format and what they stand for. No word begins another one. -/
structure Encoding (β : Type) where
  Codes : List β → List β → Prop
  unique : ∀ {x y z w}, Codes x z → Codes y w → z <+: w → z = w ∧ x = y
  proper : ∀ {x z}, Codes x z → z ≠ []

namespace Encoding

variable {F : Encoding β} {x y z w s : List β}

/-- Data begins with one word at most. -/
theorem unique_of_prefix (hz : F.Codes x z) (hw : F.Codes y w) (hzs : z <+: s) (hws : w <+: s) :
    z = w ∧ x = y := by
  rcases List.prefix_or_prefix_of_prefix hzs hws with h | h
  · exact F.unique hz hw h
  · obtain ⟨hwz, hyx⟩ := F.unique hw hz h
    exact ⟨hwz.symm, hyx.symm⟩

/-- Whether data begins with a word. -/
def Begins (F : Encoding β) (s : List β) : Prop := ∃ x w, F.Codes x w ∧ w <+: s

theorem not_begins_nil (F : Encoding β) : ¬F.Begins [] := by
  intro h
  obtain ⟨x, w, hw, hp⟩ := h
  exact F.proper hw (List.prefix_nil.mp hp)

end Encoding

/-- `step` writes words of the format. `Has e t x z inp`: in the state `t` it has taken `x` and
given `z`, and `inp` is at hand; with `e` the data at hand is the end of what is to be written.
`load` bounds what it can still give before it is shown more. -/
structure Encodes (F : Encoding β) (verdict : κ → Verdict)
    (step : Bool → τ → List β → Nat → Turn τ β κ)
    (Has : Bool → τ → List β → List β → List β → Prop) (load : Bool → τ → List β → Nat) :
    Prop where
  feed : ∀ {t x z} e inp, Has false t x z [] → Has e t x z inp
  out_le : ∀ {e t x z inp} room, Has e t x z inp → (step e t inp room).out.length ≤ room
  keeps : ∀ {e t x z inp} room, Has e t x z inp → Has e (step e t inp room).state
    (x ++ inp.take (step e t inp room).used) (z ++ (step e t inp room).out)
    (inp.drop (step e t inp room).used)
  sane : ∀ {e t x z inp} room, Has e t x z inp → verdict (step e t inp room).code ≠ .misuse
  drained : ∀ {e t x z inp} room, Has e t x z inp → (step e t inp room).out.length < room →
    (step e t inp room).used = inp.length
  ends : ∀ {t x z inp} room, Has true t x z inp → (step true t inp room).out.length < room →
    verdict (step true t inp room).code = .last ∧
      F.Codes (x ++ inp) (z ++ (step true t inp room).out)
  load_le : ∀ {e t x z inp} room, Has e t x z inp → (step e t inp room).out.length +
    load e (step e t inp room).state (inp.drop (step e t inp room).used) ≤ load e t inp

/-- `step` reads words of the format. `Has t z x inp`: in the state `t` it has taken `z` and given
`x`, and `inp` is at hand. `Done` holds when the word has ended. -/
structure Decodes (F : Encoding β) (verdict : κ → Verdict) (step : τ → List β → Nat → Turn τ β κ)
    (Has : τ → List β → List β → List β → Prop) (Done : τ → Prop) (load : τ → List β → Nat) :
    Prop where
  feed : ∀ {t z x} inp, Has t z x [] → Has t z x inp
  out_le : ∀ {t z x inp} room, Has t z x inp → (step t inp room).out.length ≤ room
  sane : ∀ {t z x inp} room, Has t z x inp → verdict (step t inp room).code ≠ .misuse
  more : ∀ {t z x inp} room, Has t z x inp → verdict (step t inp room).code = .more →
    Has (step t inp room).state (z ++ inp.take (step t inp room).used)
      (x ++ (step t inp room).out) (inp.drop (step t inp room).used)
  drained : ∀ {t z x inp} room, Has t z x inp → verdict (step t inp room).code = .more →
    (step t inp room).out.length < room →
      (step t inp room).used = inp.length ∧ ¬F.Begins (z ++ inp)
  last : ∀ {t z x inp} room, Has t z x inp → verdict (step t inp room).code = .last →
    F.Codes (x ++ (step t inp room).out) (z ++ inp.take (step t inp room).used) ∧
      Done (step t inp room).state
  again : ∀ {t} inp room, Done t → verdict (step t inp room).code = .last ∧
    (step t inp room).out = []
  corrupt : ∀ {t z x inp} room, Has t z x inp → verdict (step t inp room).code = .corrupt →
    ∀ y w, F.Codes y w → ¬z ++ inp <+: w ∧ ¬w <+: z ++ inp
  load_le : ∀ {t z x inp} room, Has t z x inp → verdict (step t inp room).code = .more →
    (step t inp room).out.length +
      load (step t inp room).state (inp.drop (step t inp room).used) ≤ load t inp

/-- Words that can be read without knowing where they end. -/
structure PrefixCode (β : Type) where
  code : List β → List β
  value : List β → List β
  value_append : ∀ x rest, value (code x ++ rest) = x
  proper : ∀ x, code x ≠ []

namespace PrefixCode

variable (C : PrefixCode β)

theorem value_code (x : List β) : C.value (C.code x) = x := by
  have h := C.value_append x []
  rwa [List.append_nil] at h

def encoding : Encoding β where
  Codes x z := z = C.code x
  unique := by
    intro x y z w hz hw hp
    subst hz hw
    obtain ⟨rest, hrest⟩ := hp
    have hy := C.value_code y
    rw [← hrest, C.value_append] at hy
    exact ⟨congrArg C.code hy, hy⟩
  proper := by
    intro x z hz
    rw [hz]
    exact C.proper x

/-- The next piece of what is to be given. -/
def giveNext (go fin : κ) (f : List β → τ) (used : Nat) (out : List β) (room : Nat) :
    Turn τ β κ :=
  ⟨f (out.drop room), used, out.take room, if out.length ≤ room then fin else go⟩

section Give

variable {go fin : κ} {verdict : κ → Verdict} {f : List β → τ} {used room : Nat} {out : List β}

theorem giveNext_out_le : (giveNext go fin f used out room).out.length ≤ room :=
  List.length_take_le ..

theorem giveNext_out (h : (giveNext go fin f used out room).out.length < room) :
    out.length ≤ room ∧ (giveNext go fin f used out room).out = out := by
  have hlen : (out.take room).length < room := h
  rw [List.length_take] at hlen
  have hle : out.length ≤ room := by omega
  exact ⟨hle, List.take_of_length_le hle⟩

theorem giveNext_load : (giveNext go fin f used out room).out.length + (out.drop room).length =
    out.length := by
  rw [giveNext, List.length_take, List.length_drop]
  omega

theorem giveNext_last (hfin : verdict fin = .last) (h : out.length ≤ room) :
    verdict (giveNext go fin f used out room).code = .last := by
  rw [giveNext, if_pos h]
  exact hfin

theorem giveNext_more (hgo : verdict go = .more) (h : ¬out.length ≤ room) :
    verdict (giveNext go fin f used out room).code = .more := by
  rw [giveNext, if_neg h]
  exact hgo

theorem giveNext_cases (hgo : verdict go = .more) (hfin : verdict fin = .last)
    (f : List β → τ) (used : Nat) (out : List β) (room : Nat) :
    verdict (giveNext go fin f used out room).code = .last ∧ out.length ≤ room ∨
      verdict (giveNext go fin f used out room).code = .more ∧ ¬out.length ≤ room := by
  by_cases h : out.length ≤ room
  · exact .inl ⟨giveNext_last hfin h, h⟩
  · exact .inr ⟨giveNext_more hgo h, h⟩

theorem giveNext_ne_misuse (hgo : verdict go = .more) (hfin : verdict fin = .last) :
    verdict (giveNext go fin f used out room).code ≠ .misuse := by
  cases giveNext_cases hgo hfin f used out room with
  | inl h => rw [h.1]; decide
  | inr h => rw [h.1]; decide

end Give

section Writer

variable {go fin : κ}

/-- The state of a coder that keeps all data until its end is known, and then gives the word. -/
inductive Writer (β : Type)
  | taking (x : List β)
  | giving (out : List β)

def writeStep (go fin : κ) (e : Bool) (t : Writer β) (inp : List β) (room : Nat) :
    Turn (Writer β) β κ :=
  match t with
  | .taking x =>
    if e then giveNext go fin .giving inp.length (C.code (x ++ inp)) room
    else ⟨.taking (x ++ inp), inp.length, [], go⟩
  | .giving out => giveNext go fin .giving 0 out room

/-- What the coder has taken and given. -/
def WriterHas (e : Bool) (t : Writer β) (x z inp : List β) : Prop :=
  match t with
  | .taking y => y = x ∧ z = []
  | .giving out => e = true ∧ inp = [] ∧ z ++ out = C.code x

def writerLoad (e : Bool) (t : Writer β) (inp : List β) : Nat :=
  match t with
  | .taking x => if e then (C.code (x ++ inp)).length else 0
  | .giving out => out.length

theorem writes_words {verdict : κ → Verdict} (hgo : verdict go = .more)
    (hfin : verdict fin = .last) :
    Encodes C.encoding verdict (C.writeStep go fin) C.WriterHas C.writerLoad where
  feed := by
    intro t x z e inp h
    cases t with
    | taking y => exact h
    | giving out => cases h.1
  out_le := by
    intro e t x z inp room _
    cases t with
    | taking y =>
      cases e with
      | false => exact Nat.zero_le _
      | true => exact giveNext_out_le
    | giving out => exact giveNext_out_le
  keeps := by
    intro e t x z inp room h
    cases t with
    | taking y =>
      obtain ⟨rfl, rfl⟩ := h
      cases e with
      | false => exact ⟨by simp [writeStep], rfl⟩
      | true =>
        refine ⟨rfl, by simp [writeStep, giveNext], ?_⟩
        simp [writeStep, giveNext]
    | giving out =>
      obtain ⟨he, rfl, hc⟩ := h
      refine ⟨he, rfl, ?_⟩
      simpa [writeStep, giveNext] using hc
  sane := by
    intro e t x z inp room _
    cases t with
    | taking y =>
      cases e with
      | false =>
        show verdict go ≠ .misuse
        rw [hgo]
        decide
      | true => exact giveNext_ne_misuse hgo hfin
    | giving out => exact giveNext_ne_misuse hgo hfin
  drained := by
    intro e t x z inp room h hlt
    cases t with
    | taking y => cases e <;> rfl
    | giving out =>
      rw [h.2.1]
      rfl
  ends := by
    intro t x z inp room h hlt
    cases t with
    | taking y =>
      obtain ⟨rfl, rfl⟩ := h
      obtain ⟨hle, hout⟩ := giveNext_out hlt
      exact ⟨giveNext_last hfin hle, hout⟩
    | giving out =>
      obtain ⟨-, rfl, hc⟩ := h
      obtain ⟨hle, hout⟩ := giveNext_out hlt
      refine ⟨giveNext_last hfin hle, ?_⟩
      show z ++ (giveNext go fin Writer.giving 0 out room).out = C.code (x ++ [])
      rw [hout, List.append_nil]
      exact hc
  load_le := by
    intro e t x z inp room _
    cases t with
    | taking y =>
      cases e with
      | false => exact le_rfl
      | true => exact giveNext_load.le
    | giving out => exact giveNext_load.le

end Writer

section Reader

variable {go fin : κ} [DecidableEq β]

/-- The state of a coder that keeps all data until it has a word, and then gives its value. -/
inductive Reader (β : Type)
  | taking (z : List β)
  | giving (out : List β)

/-- The word that data begins with. -/
def firstWord (z : List β) : Option (List β) :=
  z.inits.find? fun w => C.code (C.value w) = w

theorem firstWord_some {z w : List β} (h : C.firstWord z = some w) :
    C.encoding.Codes (C.value w) w ∧ w <+: z := by
  have hp := List.find?_some h
  exact ⟨(of_decide_eq_true hp).symm, (List.mem_inits _ _).mp (List.mem_of_find?_eq_some h)⟩

theorem firstWord_none {z : List β} (h : C.firstWord z = none) : ¬C.encoding.Begins z := by
  intro hb
  obtain ⟨x, w, hw, hp⟩ := hb
  have hno := List.find?_eq_none.mp h w ((List.mem_inits _ _).mpr hp)
  apply hno
  rw [show w = C.code x from hw, C.value_code]
  exact decide_eq_true rfl

def readStep (go fin : κ) (t : Reader β) (inp : List β) (room : Nat) : Turn (Reader β) β κ :=
  match t with
  | .taking z =>
    match C.firstWord (z ++ inp) with
    | none => ⟨.taking (z ++ inp), inp.length, [], go⟩
    | some w => giveNext go fin .giving (w.length - z.length) (C.value w) room
  | .giving out => giveNext go fin .giving 0 out room

theorem readStep_code (go fin : κ) (t : Reader β) (inp : List β) (room : Nat) :
    (C.readStep go fin t inp room).code = go ∨ (C.readStep go fin t inp room).code = fin := by
  have hgive : ∀ used out,
      (giveNext (β := β) go fin .giving used out room : Turn (Reader β) β κ).code = go ∨
      (giveNext go fin .giving used out room : Turn (Reader β) β κ).code = fin := by
    intro used out
    rw [giveNext]
    split
    · exact .inr rfl
    · exact .inl rfl
  cases t with
  | giving out => exact hgive 0 out
  | taking y =>
    rw [readStep]
    split
    · exact .inl rfl
    · exact hgive _ _

/-- What the coder has taken and given before the word has ended. -/
def ReaderGot (t : Reader β) (z x _inp : List β) : Prop :=
  match t with
  | .taking y => y = z ∧ x = [] ∧ ¬C.encoding.Begins z
  | .giving out => out ≠ [] ∧ z = C.code (x ++ out)

def readerLoad (t : Reader β) (inp : List β) : Nat :=
  match t with
  | .taking z =>
    match C.firstWord (z ++ inp) with
    | none => 0
    | some w => (C.value w).length
  | .giving out => out.length

/-- The part of the data that belongs to the word. -/
theorem take_word {z inp w : List β} (hz : ¬C.encoding.Begins z)
    (hw : C.firstWord (z ++ inp) = some w) :
    z ++ inp.take (w.length - z.length) = w := by
  obtain ⟨hc, hp⟩ := C.firstWord_some hw
  rcases List.prefix_or_prefix_of_prefix hp (List.prefix_append z inp) with h | h
  · exact (hz ⟨_, _, hc, h⟩).elim
  · obtain ⟨rest, rfl⟩ := h
    obtain ⟨more, hmore⟩ := hp
    rw [List.append_assoc] at hmore
    rw [← List.append_cancel_left hmore, List.length_append, Nat.add_sub_cancel_left,
      List.take_left']
    rfl

/-- A call waits for more data, or gives a piece of the value of the word. -/
theorem readStep_cases {t : Reader β} {z x inp : List β} (h : C.ReaderGot t z x inp)
    (go fin : κ) (room : Nat) :
    (C.readStep go fin t inp room = ⟨.taking (z ++ inp), inp.length, [], go⟩ ∧ x = [] ∧
        C.firstWord (z ++ inp) = none) ∨
      ∃ used out, C.readStep go fin t inp room = giveNext go fin .giving used out room ∧
        z ++ inp.take used = C.code (x ++ out) ∧ C.readerLoad t inp = out.length := by
  cases t with
  | giving out =>
    refine .inr ⟨0, out, rfl, ?_, rfl⟩
    rw [List.take_zero, List.append_nil]
    exact h.2
  | taking y =>
    obtain ⟨rfl, rfl, hb⟩ := h
    cases hw : C.firstWord (y ++ inp) with
    | none => exact .inl ⟨by simp only [readStep, hw], rfl, rfl⟩
    | some w =>
      refine .inr ⟨w.length - y.length, C.value w, by simp only [readStep, hw], ?_, ?_⟩
      · rw [C.take_word hb hw, List.nil_append]
        exact (C.firstWord_some hw).1
      · simp only [readerLoad, hw]

theorem reads_words {verdict : κ → Verdict} (hgo : verdict go = .more)
    (hfin : verdict fin = .last) :
    Decodes C.encoding verdict (C.readStep go fin) C.ReaderGot (fun t => t = .giving [])
      C.readerLoad where
  feed := by
    intro t z x inp h
    cases t with
    | taking y => exact h
    | giving out => exact h
  out_le := by
    intro t z x inp room h
    rcases C.readStep_cases h go fin room with ⟨hr, -, -⟩ | ⟨used, out, hr, -, -⟩
    · rw [hr]
      exact Nat.zero_le _
    · rw [hr]
      exact giveNext_out_le
  sane := by
    intro t z x inp room h
    rcases C.readStep_cases h go fin room with ⟨hr, -, -⟩ | ⟨used, out, hr, -, -⟩
    · rw [hr, hgo]
      decide
    · rw [hr]
      exact giveNext_ne_misuse hgo hfin
  more := by
    intro t z x inp room h hv
    rcases C.readStep_cases h go fin room with ⟨hr, rfl, hno⟩ | ⟨used, out, hr, hw, -⟩
    · rw [hr, List.take_length]
      exact ⟨rfl, rfl, C.firstWord_none hno⟩
    · rw [hr] at hv ⊢
      rcases giveNext_cases hgo hfin Reader.giving used out room with ⟨hc, -⟩ | ⟨-, hlong⟩
      · rw [hc] at hv
        cases hv
      · refine ⟨?_, ?_⟩
        · intro hnil
          exact hlong (List.drop_eq_nil_iff.mp hnil)
        · show z ++ inp.take used = C.code (x ++ out.take room ++ out.drop room)
          rw [hw, List.append_assoc, List.take_append_drop]
  drained := by
    intro t z x inp room h hv hlt
    rcases C.readStep_cases h go fin room with ⟨hr, rfl, hno⟩ | ⟨used, out, hr, -, -⟩
    · rw [hr]
      exact ⟨rfl, C.firstWord_none hno⟩
    · rw [hr] at hv hlt
      rw [giveNext_last hfin (giveNext_out hlt).1] at hv
      cases hv
  last := by
    intro t z x inp room h hv
    rcases C.readStep_cases h go fin room with ⟨hr, -, -⟩ | ⟨used, out, hr, hw, -⟩
    · rw [hr, hgo] at hv
      cases hv
    · rw [hr] at hv ⊢
      rcases giveNext_cases hgo hfin Reader.giving used out room with ⟨-, hshort⟩ | ⟨hc, -⟩
      · refine ⟨?_, congrArg Reader.giving (List.drop_eq_nil_iff.mpr hshort)⟩
        show z ++ inp.take used = C.code (x ++ out.take room)
        rw [hw, List.take_of_length_le hshort]
      · rw [hc] at hv
        cases hv
  again := by
    intro t inp room ht
    rw [ht]
    exact ⟨giveNext_last hfin (Nat.zero_le _), List.take_nil⟩
  corrupt := by
    intro t z x inp room h hv
    rcases C.readStep_cases h go fin room with ⟨hr, -, -⟩ | ⟨used, out, hr, -, -⟩
    · rw [hr, hgo] at hv
      cases hv
    · rw [hr] at hv
      rcases giveNext_cases hgo hfin Reader.giving used out room with ⟨hc, -⟩ | ⟨hc, -⟩
      · rw [hc] at hv
        cases hv
      · rw [hc] at hv
        cases hv
  load_le := by
    intro t z x inp room h hv
    rcases C.readStep_cases h go fin room with ⟨hr, rfl, hno⟩ | ⟨used, out, hr, -, hl⟩
    · rw [hr, List.drop_length]
      show 0 + C.readerLoad (.taking (z ++ inp)) [] ≤ _
      rw [readerLoad, List.append_nil, hno]
      exact Nat.zero_le _
    · rw [hr, hl]
      exact giveNext_load.le

end Reader

end PrefixCode

end Stream
