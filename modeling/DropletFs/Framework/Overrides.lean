import Mathlib.Data.List.Basic

/-! Values set over and over: the last one counts. -/

namespace Overrides

variable {ε β γ σ : Type}

/-- The last value a log gives. -/
def last (gives : ε → Option β) (log : List ε) : Option β := (log.filterMap gives).getLast?

@[simp] theorem last_nil (gives : ε → Option β) : last gives [] = none := rfl

theorem last_append (gives : ε → Option β) (log later : List ε) :
    last gives (log ++ later) = (last gives later).or (last gives log) := by
  simp [last, List.filterMap_append, List.getLast?_append]

theorem last_cons (gives : ε → Option β) (e : ε) (log : List ε) :
    last gives (e :: log) = (last gives log).or (gives e) := by
  have h := last_append gives [e] log
  rw [List.singleton_append] at h
  rw [h]
  cases he : gives e <;> simp [last, he]

theorem last_map (gives : ε → Option β) (f : β → γ) (log : List ε) :
    last (fun e => (gives e).map f) log = (last gives log).map f := by
  induction log with
  | nil => rfl
  | cons e log ih =>
    rw [last_cons, last_cons, ih]
    cases last gives log <;> rfl

/-- A field that each entry sets or leaves holds the last value the log gives it. -/
theorem foldl_last {gives : ε → Option β} {step : σ → ε → σ} (get : σ → β)
    (h : ∀ s e, get (step s e) = (gives e).getD (get s)) (log : List ε) (s : σ) :
    get (log.foldl step s) = (last gives log).getD (get s) := by
  induction log generalizing s with
  | nil => rfl
  | cons e log ih =>
    rw [List.foldl_cons, ih, h, last_cons]
    cases last gives log <;> rfl

end Overrides
