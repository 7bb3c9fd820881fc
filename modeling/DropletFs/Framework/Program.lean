import DropletFs.Framework.Run

/-! Programs that make calls and go on with the replies, and many of them side by side on one
shared state. -/

/-- A program ends with a result, stops on an error, or makes a call and continues with the
reply. -/
inductive Program (κ ρ φ α : Type) : Type
  | ret (a : α)
  | fail (x : φ)
  | call (c : κ) (k : ρ → Program κ ρ φ α)

namespace Program

variable {κ ρ φ α β : Type}

def bind : Program κ ρ φ α → (α → Program κ ρ φ β) → Program κ ρ φ β
  | ret a, f => f a
  | fail x, _ => fail x
  | call c k, f => call c fun r => (k r).bind f

instance : Monad (Program κ ρ φ) where
  pure := ret
  bind := bind

@[simp] theorem bind_eq (p : Program κ ρ φ α) (f : α → Program κ ρ φ β) : p >>= f = p.bind f := rfl

@[simp] theorem pure_eq (a : α) : (pure a : Program κ ρ φ α) = ret a := rfl

/-- One call; its reply is the result. -/
def ask (c : κ) : Program κ ρ φ ρ := call c ret

/-- The call is made again until its reply is one that stops, at most `budget` more times. -/
def retry (stops : ρ → Bool) (c : κ) : Nat → Program κ ρ φ ρ
  | 0 => ask c
  | budget + 1 => call c fun r => if stops r then ret r else retry stops c budget

/-- The call a program makes next. -/
def next? : Program κ ρ φ α → Option κ
  | call c _ => some c
  | _ => none

theorem next?_some {p : Program κ ρ φ α} {c : κ} : p.next? = some c ↔ ∃ k, p = call c k := by
  cases p with
  | ret a => simp [next?]
  | fail x => simp [next?]
  | call d k => simp [next?]

end Program

/-- A discipline for calls: what is allowed depends on a state that calls and replies change. -/
structure Protocol (τ κ ρ : Type) where
  allowed : τ → κ → Prop
  after : τ → κ → ρ → τ

namespace Program

variable {κ ρ φ α β τ : Type} {P : Protocol τ κ ρ}

/-- Every call is allowed whatever the replies, and `Q` holds at the end. -/
def Obeys (P : Protocol τ κ ρ) (Q : τ → α → Prop) : τ → Program κ ρ φ α → Prop
  | t, ret a => Q t a
  | _, fail _ => True
  | t, call c k => P.allowed t c ∧ ∀ r, Obeys P Q (P.after t c r) (k r)

theorem Obeys.bind {Q : τ → α → Prop} {R : τ → β → Prop} {f : α → Program κ ρ φ β}
    (hf : ∀ t a, Q t a → Obeys P R t (f a)) {t : τ} {p : Program κ ρ φ α} (hp : Obeys P Q t p) :
    Obeys P R t (p.bind f) := by
  induction p generalizing t with
  | ret a => exact hf t a hp
  | fail x => trivial
  | call c k ih => exact ⟨hp.1, fun r => ih r (hp.2 r)⟩

theorem Obeys.mono {Q R : τ → α → Prop} (hq : ∀ t a, Q t a → R t a) {t : τ}
    {p : Program κ ρ φ α} (hp : Obeys P Q t p) : Obeys P R t p := by
  induction p generalizing t with
  | ret a => exact hq t a hp
  | fail x => trivial
  | call c k ih => exact ⟨hp.1, fun r => ih r (hp.2 r)⟩

/-- A call that may be repeated: it is allowed in every state of `S`, and a reply that does not
stop it leads back there. -/
theorem Obeys.retry {stops : ρ → Bool} {c : κ} {S : τ → Prop} {Q : τ → ρ → Prop}
    (ha : ∀ t, S t → P.allowed t c) (hq : ∀ t r, S t → Q (P.after t c r) r)
    (hback : ∀ t r, S t → stops r = false → S (P.after t c r)) (budget : Nat) {t : τ} (ht : S t) :
    Obeys P Q t (retry (φ := φ) stops c budget) := by
  induction budget generalizing t with
  | zero => exact ⟨ha t ht, fun r => hq t r ht⟩
  | succ budget ih =>
    refine ⟨ha t ht, fun r => ?_⟩
    cases hs : stops r with
    | true => simpa [hs, Obeys] using hq t r ht
    | false => simpa [hs] using ih (hback t r ht hs)

end Program

/-- Programs side by side, with the state they share. -/
structure Parties (σ ι κ ρ φ α : Type) where
  shared : σ
  progs : ι → Program κ ρ φ α

namespace Parties

variable {σ ι ε κ ρ φ α τ : Type} [DecidableEq ι]

/-- A party makes its next call; the outcome is picked by the event. -/
def step (handle : ι → ε → σ → κ → ρ × σ) (s : Parties σ ι κ ρ φ α) (e : ι × ε) :
    Except φ (Parties σ ι κ ρ φ α) :=
  match s.progs e.1 with
  | .call c k =>
    let res := handle e.1 e.2 s.shared c
    .ok ⟨res.2, Function.update s.progs e.1 (k res.1)⟩
  | _ => .ok s

variable {handle : ι → ε → σ → κ → ρ × σ} {P : Protocol τ κ ρ}

theorem step_call {s : Parties σ ι κ ρ φ α} {i : ι} {c : κ} {k : ρ → Program κ ρ φ α}
    (h : s.progs i = .call c k) (e : ε) :
    step handle s (i, e) = .ok ⟨(handle i e s.shared c).2,
      Function.update s.progs i (k (handle i e s.shared c).1)⟩ := by
  simp [step, h]

/-- Every party obeys the protocol from where it is. -/
def Obeys (P : Protocol τ κ ρ) (Q : ι → τ → α → Prop) (s : Parties σ ι κ ρ φ α) (t : ι → τ) :
    Prop := ∀ i, (s.progs i).Obeys P (Q i) (t i)

/-- What holds of the shared state and the protocol states of the parties is kept by a run when
every call keeps it. -/
theorem run_invariant {Q : ι → τ → α → Prop} {J : Parties σ ι κ ρ φ α → (ι → τ) → Prop}
    {G : Parties σ ι κ ρ φ α → ι × ε → Prop}
    (keep : ∀ s t i e c k, s.Obeys P Q t → J s t → s.progs i = .call c k → G s (i, e) →
      P.allowed (t i) c →
      J ⟨(handle i e s.shared c).2, Function.update s.progs i (k (handle i e s.shared c).1)⟩
        (Function.update t i (P.after (t i) c (handle i e s.shared c).1)))
    {s u : Parties σ ι κ ρ φ α} {es : List (ι × ε)} {t : ι → τ} (h0 : s.Obeys P Q t) (hj : J s t)
    (hm : Transition.Meets (step handle) G s es) (hu : Transition.exec (step handle) s es = .ok u) :
    ∃ t, u.Obeys P Q t ∧ J u t := by
  refine Transition.exec_invariant (I := fun s => ∃ t, s.Obeys P Q t ∧ J s t) ?_ ⟨t, h0, hj⟩ hm hu
  intro s e s' hi hg he
  obtain ⟨t, ho, hj⟩ := hi
  obtain ⟨i, e⟩ := e
  unfold step at he
  cases hp : s.progs i with
  | call c k =>
    have hob : (Program.call c k).Obeys P (Q i) (t i) := hp ▸ ho i
    simp only [hp, Except.ok.injEq] at he
    subst he
    refine ⟨_, ?_, keep s t i e c k ho hj hp hg hob.1⟩
    intro j
    by_cases hij : j = i
    · subst hij
      simpa using hob.2 _
    · simpa [hij] using ho j
  | ret a =>
    simp only [hp, Except.ok.injEq] at he
    exact he ▸ ⟨t, ho, hj⟩
  | fail x =>
    simp only [hp, Except.ok.injEq] at he
    exact he ▸ ⟨t, ho, hj⟩

end Parties
