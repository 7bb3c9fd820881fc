import Mathlib.Order.Nat

/-! An operation tried again until it answers or its tries are used up, over a connection
that may lose the request or the reply. -/

namespace Retry

variable {σ ρ τ : Type*}

/-- One try: the request is lost, the reply is lost, or the answer comes back. A lost
message is noticed as `t`. -/
inductive Attempt (τ : Type*)
  | lostRequest (t : τ)
  | lostReply (t : τ)
  | completes
  deriving DecidableEq

def Attempt.replyLost : Attempt τ → Bool
  | lostReply _ => true
  | _ => false

variable (report : τ → ρ) (op : σ → ρ × σ)

def Attempt.run : Attempt τ → σ → ρ × σ
  | lostRequest t, s => (report t, s)
  | lostReply t, s => (report t, (op s).2)
  | completes, s => op s

/-- What is reported when the operation answers `r`. -/
def Attempt.reported : Attempt τ → ρ → ρ
  | lostRequest t, _ => report t
  | lostReply t, _ => report t
  | completes, r => r

variable (stops : ρ → Bool) (pattern : Nat → Attempt τ)

/-- Try number `tries` and those after it; `budget` further ones are allowed. -/
def loop : Nat → Nat → σ → ρ × σ
  | 0, tries, s => (pattern tries).run report op s
  | budget + 1, tries, s =>
    let r := (pattern tries).run report op s
    if stops r.1 then r else loop budget (tries + 1) r.2

variable {report op stops pattern}

variable (op) in
/-- Losses are not answers. -/
theorem run_not_stops (hlost : ∀ t, stops (report t) = false) {a : Attempt τ}
    (ha : a ≠ .completes) (s : σ) : stops (a.run report op s).1 = false := by
  cases a with
  | lostRequest t => exact hlost t
  | lostReply t => exact hlost t
  | completes => exact (ha rfl).elim

/-- An operation that fails for good, and leaves the state alone, is tried to the end; the
last try decides what is reported. -/
theorem loop_of_refused (hlost : ∀ t, stops (report t) = false) {s : σ} {r : ρ}
    (ho : op s = (r, s)) (hr : stops r = false) (budget tries : Nat) :
    loop report op stops pattern budget tries s =
      ((pattern (tries + budget)).reported report r, s) := by
  have hrun : ∀ a : Attempt τ, a.run report op s = (a.reported report r, s) := by
    intro a
    cases a <;> simp [Attempt.run, Attempt.reported, ho]
  have hgo : ∀ a : Attempt τ, stops (a.reported report r) = false := by
    intro a
    cases a with
    | lostRequest t => exact hlost t
    | lostReply t => exact hlost t
    | completes => exact hr
  induction budget generalizing tries with
  | zero => exact hrun _
  | succ budget ih =>
    have hnext : tries + 1 + budget = tries + (budget + 1) := by omega
    rw [loop, hrun, if_neg (by simp [hgo]), ih (tries + 1), hnext]

/-- The first answer ends the loop, if it is one that stops it. -/
theorem loop_of_answer {s : σ} {k budget tries : Nat}
    (hlost : ∀ t, stops (report t) = false) (hk : tries ≤ k) (hb : k ≤ tries + budget)
    (hc : pattern k = .completes) (hno : ∀ j, tries ≤ j → j < k → pattern j ≠ .completes)
    {P : σ → Prop} (hs : P s)
    (hkeep : ∀ j s, tries ≤ j → j < k → P s → P ((pattern j).run report op s).2)
    {r : ρ × σ} (hans : ∀ s, P s → op s = r) (hstop : stops r.1 = true) :
    loop report op stops pattern budget tries s = r := by
  induction budget generalizing tries s with
  | zero =>
    obtain rfl : k = tries := by omega
    rw [loop, hc]
    exact hans s hs
  | succ budget ih =>
    rcases Nat.eq_or_lt_of_le hk with rfl | hlt
    · have hrun : (pattern tries).run report op s = r := by
        rw [hc]
        exact hans s hs
      rw [loop, hrun]
      simp [hstop]
    · have hgo := run_not_stops op hlost (hno tries (Nat.le_refl tries) hlt) s
      rw [loop]
      simp only [hgo, Bool.false_eq_true, if_false]
      apply ih hlt (by omega)
      · exact fun j hj => hno j (by omega)
      · exact hkeep tries s (Nat.le_refl tries) hlt hs
      · exact fun j s hj => hkeep j s (by omega)

/-- Once the operation can only be refused, it is never reported as answered with `r`. -/
theorem loop_ne_of_refused {s : σ} {r r' : ρ} (ho : op s = (r', s)) (hr : r' ≠ r)
    (hlost : ∀ t, report t ≠ r) (budget tries : Nat) :
    (loop report op stops pattern budget tries s).1 ≠ r := by
  have hrun : ∀ a : Attempt τ, (a.run report op s).1 ≠ r ∧ (a.run report op s).2 = s := by
    intro a
    cases a with
    | lostRequest t => exact ⟨hlost t, rfl⟩
    | lostReply t => exact ⟨hlost t, by simp [Attempt.run, ho]⟩
    | completes => exact ⟨by simpa [Attempt.run, ho] using hr, by simp [Attempt.run, ho]⟩
  induction budget generalizing tries with
  | zero => exact (hrun _).1
  | succ budget ih =>
    rw [loop]
    split_ifs
    · exact (hrun _).1
    · rw [(hrun _).2]
      exact ih (tries + 1)

/-- A lost reply is followed by tries of an operation that has already taken effect. -/
theorem loop_after_lostReply {s : σ} {r : ρ × σ} {r' : ρ} {i budget tries : Nat}
    (ho : op s = r) (hdone : op r.2 = (r', r.2)) (hr : r' ≠ r.1)
    (hlost : ∀ t, stops (report t) = false) (hne : ∀ t, report t ≠ r.1) (hi : tries ≤ i)
    (hb : i < tries + budget) (hl : (pattern i).replyLost = true)
    (hno : ∀ j, tries ≤ j → j ≤ i → pattern j ≠ .completes) :
    (loop report op stops pattern budget tries s).1 ≠ r.1 := by
  induction budget generalizing tries with
  | zero => omega
  | succ budget ih =>
    have hgo := run_not_stops op hlost (hno tries (Nat.le_refl tries) hi) s
    rw [loop]
    simp only [hgo, Bool.false_eq_true, if_false]
    cases ha : pattern tries with
    | lostRequest t =>
      have hlt : tries < i := by
        rcases Nat.eq_or_lt_of_le hi with rfl | h
        · simp [ha, Attempt.replyLost] at hl
        · exact h
      apply ih hlt (by omega)
      exact fun j hj => hno j (by omega)
    | lostReply t =>
      have he : (Attempt.lostReply t).run report op s = (report t, r.2) := by
        simp [Attempt.run, ho]
      rw [he]
      exact loop_ne_of_refused hdone hr hne budget (tries + 1)
    | completes => exact (hno tries (Nat.le_refl tries) hi ha).elim

end Retry
