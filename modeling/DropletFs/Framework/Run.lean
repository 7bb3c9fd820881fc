import Mathlib.Data.List.Basic
import Mathlib.Logic.Function.Basic

/-! Runs of a deterministic system whose steps may stop it: a step reads an event
and either yields the next state or an error that ends the run. -/

namespace Transition

variable {σ ε φ : Type*}

/-- Execute the events in order; the first error ends the run. -/
def exec (step : σ → ε → Except φ σ) : σ → List ε → Except φ σ
  | s, [] => .ok s
  | s, e :: es =>
    match step s e with
    | .ok t => exec step t es
    | .error x => .error x

/-- Every step of the run is taken from a state and an event that satisfy `G`. -/
def Meets (step : σ → ε → Except φ σ) (G : σ → ε → Prop) : σ → List ε → Prop
  | _, [] => True
  | s, e :: es => G s e ∧
    match step s e with
    | .ok t => Meets step G t es
    | .error _ => True

variable {step : σ → ε → Except φ σ}

@[simp] theorem exec_nil (s : σ) : exec step s [] = .ok s := rfl

theorem exec_cons_ok {s u : σ} {e : ε} {es : List ε} :
    exec step s (e :: es) = .ok u ↔ ∃ t, step s e = .ok t ∧ exec step t es = .ok u := by
  cases h : step s e <;> simp [exec, h]

theorem exec_append_ok {s u : σ} {es fs : List ε} :
    exec step s (es ++ fs) = .ok u ↔
      ∃ t, exec step s es = .ok t ∧ exec step t fs = .ok u := by
  induction es generalizing s with
  | nil => simp
  | cons e es ih =>
    simp only [List.cons_append, exec_cons_ok, ih]
    constructor
    · rintro ⟨t, ht, v, hv, hu⟩
      exact ⟨v, ⟨t, ht, hv⟩, hu⟩
    · rintro ⟨v, ⟨t, ht, hv⟩, hu⟩
      exact ⟨t, ht, v, hv, hu⟩

theorem meets_cons {G : σ → ε → Prop} {s t : σ} {e : ε} {es : List ε}
    (h : Meets step G s (e :: es)) (ht : step s e = .ok t) :
    G s e ∧ Meets step G t es := by
  obtain ⟨hg, hm⟩ := h
  rw [ht] at hm
  exact ⟨hg, hm⟩

/-- A run in two parts meets the guard in each of them. -/
theorem meets_append {G : σ → ε → Prop} {s t : σ} {es fs : List ε}
    (h : Meets step G s (es ++ fs)) (ht : exec step s es = .ok t) :
    Meets step G s es ∧ Meets step G t fs := by
  induction es generalizing s with
  | nil =>
    cases ht
    exact ⟨trivial, h⟩
  | cons e es ih =>
    obtain ⟨u, hu, hrest⟩ := exec_cons_ok.mp ht
    obtain ⟨hg, hm⟩ := meets_cons h hu
    obtain ⟨hes, hfs⟩ := ih hm hrest
    refine ⟨⟨hg, ?_⟩, hfs⟩
    rw [hu]
    exact hes

theorem meets_and_forall {G : σ → ε → Prop} {P : ε → Prop} {s : σ} {es : List ε}
    (h : Meets step G s es) (hP : ∀ e ∈ es, P e) :
    Meets step (fun s e => G s e ∧ P e) s es := by
  induction es generalizing s with
  | nil => trivial
  | cons e es ih =>
    obtain ⟨hg, hm⟩ := h
    obtain ⟨he, hes⟩ := List.forall_mem_cons.mp hP
    refine ⟨⟨hg, he⟩, ?_⟩
    cases ht : step s e with
    | error x => trivial
    | ok t =>
      rw [ht] at hm
      exact ih hm hes

theorem meets_of_forall {P : ε → Prop} {es : List ε} (h : ∀ e ∈ es, P e) (s : σ) :
    Meets step (fun _ e => P e) s es := by
  induction es generalizing s with
  | nil => trivial
  | cons e es ih =>
    obtain ⟨he, hes⟩ := List.forall_mem_cons.mp h
    refine ⟨he, ?_⟩
    cases step s e with
    | ok t => exact ih hes t
    | error x => trivial

theorem meets_trivial (s : σ) (es : List ε) : Meets step (fun _ _ => True) s es :=
  meets_of_forall (fun _ _ => trivial) s

/-- A property kept by every step taken under the guard holds at the end of
every run whose steps meet the guard. -/
theorem exec_invariant {I : σ → Prop} {G : σ → ε → Prop}
    (keep : ∀ s e t, I s → G s e → step s e = .ok t → I t)
    {s u : σ} {es : List ε} (h0 : I s) (hm : Meets step G s es)
    (hu : exec step s es = .ok u) : I u := by
  induction es generalizing s with
  | nil => cases hu; exact h0
  | cons e es ih =>
    obtain ⟨t, ht, hr⟩ := exec_cons_ok.mp hu
    obtain ⟨hg, hm'⟩ := meets_cons hm ht
    exact ih (keep s e t h0 hg ht) hm' hr

/-- What is observed of the last state of a run was there at the start, or is what the last event
that reaches it has left. -/
theorem exec_attributed {α : Type*} {f : σ → α} {I : σ → Prop} {G R : σ → ε → Prop}
    (keep : ∀ s e t, I s → G s e → step s e = .ok t → I t)
    (still : ∀ s e t, I s → G s e → ¬R s e → step s e = .ok t → f t = f s)
    {s u : σ} {es : List ε} (h0 : I s) (hm : Meets step G s es) (hu : exec step s es = .ok u) :
    f u = f s ∨ ∃ before e after v w, es = before ++ e :: after ∧
      exec step s before = .ok v ∧ step v e = .ok w ∧ R v e ∧ f u = f w := by
  induction es generalizing s with
  | nil =>
    cases hu
    exact .inl rfl
  | cons e es ih =>
    obtain ⟨t, ht, hrest⟩ := exec_cons_ok.mp hu
    obtain ⟨hg, hm'⟩ := meets_cons hm ht
    rcases ih (keep s e t h0 hg ht) hm' hrest with hsame | ⟨before, e', after, v, w, hes, hv, h⟩
    · by_cases hr : R s e
      · exact .inr ⟨[], e, es, s, t, rfl, rfl, ht, hr, hsame⟩
      · exact .inl (hsame.trans (still s e t h0 hg hr ht))
    · refine .inr ⟨e :: before, e', after, v, w, ?_, exec_cons_ok.mpr ⟨t, ht, hv⟩, h⟩
      rw [hes, List.cons_append]

/-- The property holds of every state the run goes through. -/
def Always (step : σ → ε → Except φ σ) (P : σ → Prop) : σ → List ε → Prop
  | s, [] => P s
  | s, e :: es => P s ∧
    match step s e with
    | .ok t => Always step P t es
    | .error _ => True

theorem always_cons {P : σ → Prop} {s t : σ} {e : ε} {es : List ε} (ht : step s e = .ok t) :
    Always step P s (e :: es) ↔ P s ∧ Always step P t es := by
  simp only [Always, ht]

/-- Along a run whose steps meet the guard, what the invariant implies holds throughout. -/
theorem always_of_meets {I P : σ → Prop} {G : σ → ε → Prop} (holds : ∀ s, I s → P s)
    (keep : ∀ s e t, I s → G s e → step s e = .ok t → I t) {s : σ} {es : List ε} (h0 : I s)
    (hm : Meets step G s es) : Always step P s es := by
  induction es generalizing s with
  | nil => exact holds s h0
  | cons e es ih =>
    obtain ⟨hg, hrest⟩ := hm
    refine ⟨holds s h0, ?_⟩
    cases ht : step s e with
    | error x => trivial
    | ok t =>
      rw [ht] at hrest
      exact ih (keep s e t h0 hg ht) hrest

/-- Along such a run each step also meets what the invariant and the guard imply of it. -/
theorem meets_of_meets {I : σ → Prop} {G H : σ → ε → Prop}
    (implies : ∀ s e, I s → G s e → H s e)
    (keep : ∀ s e t, I s → G s e → step s e = .ok t → I t) {s : σ} {es : List ε} (h0 : I s)
    (hm : Meets step G s es) : Meets step H s es := by
  induction es generalizing s with
  | nil => trivial
  | cons e es ih =>
    obtain ⟨hg, hrest⟩ := hm
    refine ⟨implies s e h0 hg, ?_⟩
    cases ht : step s e with
    | error x => trivial
    | ok t =>
      rw [ht] at hrest
      exact ih (keep s e t h0 hg ht) hrest

/-- Two guards that agree wherever the invariant holds, which steps under the first one keep. -/
theorem meets_iff_meets {I : σ → Prop} {G H : σ → ε → Prop}
    (same : ∀ s e, I s → (G s e ↔ H s e))
    (keep : ∀ s e t, I s → G s e → step s e = .ok t → I t) {s : σ} {es : List ε} (h0 : I s) :
    Meets step G s es ↔ Meets step H s es := by
  constructor
  · exact meets_of_meets (fun s e hi hg => (same s e hi).mp hg) keep h0
  · apply meets_of_meets (fun s e hi hh => (same s e hi).mpr hh) ?_ h0
    exact fun s e t hi hh ht => keep s e t hi ((same s e hi).mpr hh) ht

/-- When the guard of a step decides whether the property outlives it, the runs that keep the
property throughout are those that meet the guard. -/
theorem always_iff_meets {I P : σ → Prop} {E : ε → Prop} {G : σ → ε → Prop}
    (keep : ∀ s e t, I s → E e → step s e = .ok t → I t)
    (decides : ∀ s e t, I s → E e → P s → step s e = .ok t → (P t ↔ G s e))
    {s u : σ} {es : List ε} (h0 : I s) (hp : P s) (he : ∀ e ∈ es, E e)
    (hu : exec step s es = .ok u) : Always step P s es ↔ Meets step G s es := by
  induction es generalizing s with
  | nil => exact iff_of_true hp trivial
  | cons e es ih =>
    obtain ⟨t, ht, hr⟩ := exec_cons_ok.mp hu
    obtain ⟨he1, hes⟩ := List.forall_mem_cons.mp he
    have hdec := decides s e t h0 he1 hp ht
    have hmeets : Meets step G s (e :: es) ↔ G s e ∧ Meets step G t es := by
      simp only [Meets, ht]
    rw [always_cons ht, hmeets]
    constructor
    · rintro ⟨-, ha⟩
      have hpt : P t := by
        cases es with
        | nil => exact ha
        | cons e' es' => exact ha.1
      exact ⟨hdec.mp hpt, (ih (keep s e t h0 he1 ht) hpt hes hr).mp ha⟩
    · rintro ⟨hg, hm⟩
      have hpt : P t := hdec.mpr hg
      exact ⟨hp, (ih (keep s e t h0 he1 ht) hpt hes hr).mpr hm⟩

/-- The states some run from `s₀` ends in. -/
def Reachable (step : σ → ε → Except φ σ) (s₀ s : σ) : Prop :=
  ∃ es, exec step s₀ es = .ok s

theorem Reachable.refl (s₀ : σ) : Reachable step s₀ s₀ := ⟨[], rfl⟩

theorem Reachable.next {s₀ s t : σ} {e : ε} (h : Reachable step s₀ s)
    (ht : step s e = .ok t) : Reachable step s₀ t := by
  obtain ⟨es, hs⟩ := h
  exact ⟨es ++ [e], exec_append_ok.mpr ⟨s, hs, exec_cons_ok.mpr ⟨t, ht, rfl⟩⟩⟩

theorem Reachable.invariant {I : σ → Prop} {s₀ s : σ} (h : Reachable step s₀ s)
    (h0 : I s₀) (keep : ∀ s e t, I s → step s e = .ok t → I t) : I s := by
  obtain ⟨es, hs⟩ := h
  exact exec_invariant (G := fun _ _ => True) (fun s e t hi _ ht => keep s e t hi ht) h0
    (meets_trivial s₀ es) hs

/-- What is observed of each step of a run. -/
def labels {τ : Type*} (step : σ → ε → Except φ σ) (label : σ → ε → τ) : σ → List ε → List τ
  | _, [] => []
  | s, e :: es => label s e ::
    match step s e with
    | .ok t => labels step label t es
    | .error _ => []

/-- The moves of a labelled relation, one after the other. -/
inductive Follows {α τ : Type*} (R : α → τ → α → Prop) : α → List τ → α → Prop
  | nil {a} : Follows R a [] a
  | cons {a b c l ls} (h : R a l b) (hs : Follows R b ls c) : Follows R a (l :: ls) c

theorem follows_cons {α τ : Type*} {R : α → τ → α → Prop} {a c : α} {l : τ} {ls : List τ} :
    Follows R a (l :: ls) c ↔ ∃ b, R a l b ∧ Follows R b ls c := by
  constructor
  · intro h
    cases h with
    | cons h hs => exact ⟨_, h, hs⟩
  · intro h
    obtain ⟨_, h, hs⟩ := h
    exact .cons h hs

theorem follows_append {α τ : Type*} {R : α → τ → α → Prop} {a c : α} {ls ls' : List τ} :
    Follows R a (ls ++ ls') c ↔ ∃ b, Follows R a ls b ∧ Follows R b ls' c := by
  induction ls generalizing a with
  | nil =>
    constructor
    · exact fun h => ⟨a, .nil, h⟩
    · intro h
      obtain ⟨b, h, h'⟩ := h
      cases h
      exact h'
  | cons l ls ih =>
    rw [List.cons_append, follows_cons]
    constructor
    · intro h
      obtain ⟨b, h, hs⟩ := h
      obtain ⟨b', hb, hb'⟩ := ih.mp hs
      exact ⟨b', .cons h hb, hb'⟩
    · intro h
      obtain ⟨b', hb, hb'⟩ := h
      obtain ⟨b, h, hs⟩ := follows_cons.mp hb
      exact ⟨b, h, ih.mpr ⟨b', hs, hb'⟩⟩

/-- A run whose steps, seen through `f`, are moves of the relation is a run of the relation. -/
theorem exec_simulates {α τ : Type*} {R : α → τ → α → Prop} {f : σ → α} {label : σ → ε → τ}
    {I : σ → Prop} {G : σ → ε → Prop}
    (keep : ∀ s e t, I s → G s e → step s e = .ok t → I t)
    (moves : ∀ s e t, I s → G s e → step s e = .ok t → R (f s) (label s e) (f t))
    {s u : σ} {es : List ε} (h0 : I s) (hm : Meets step G s es) (hu : exec step s es = .ok u) :
    Follows R (f s) (labels step label s es) (f u) := by
  induction es generalizing s with
  | nil =>
    cases hu
    exact .nil
  | cons e es ih =>
    obtain ⟨t, ht, hrest⟩ := exec_cons_ok.mp hu
    obtain ⟨hg, hm'⟩ := meets_cons hm ht
    have htail := ih (keep s e t h0 hg ht) hm' hrest
    have hlabels : labels step label s (e :: es) = label s e :: labels step label t es := by
      simp only [labels, ht]
    rw [hlabels]
    exact .cons (moves s e t h0 hg ht) htail

end Transition
