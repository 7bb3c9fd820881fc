import DropletFs.Model.Sample
import DropletFs.Model.Timeout
import DropletFs.Remote.Calls

/-! What a retried call returns and leaves, against one call that goes through. -/

namespace DropletFs

open CText Retry

/-- `reported` of the status a call would give is that status. -/
def Answers (a : Attempt Loss) (rc : Status) : Prop := a.reported Subtype.val rc = rc

section Masking

variable {σ : Type}

/-- When retrying hides the losses: a call that would be carried out loses no reply before its first
answer, or is answered the same way again once it has been carried out; and a refusal that the
wrapper does not know is what the last try reports. -/
structure Masks (dpl : Mutations σ) (m : Mutation) (maxRetry : Int) (pattern : Nat → Attempt Loss)
    (st : σ) (k : Nat) : Prop where
  repeated : m.carriedOut (m.call dpl st).1 = true →
    (∀ j < k, (pattern j).replyLost = false) ∨ m.call dpl (m.call dpl st).2 = m.call dpl st
  refused : m.stops (m.call dpl st).1 = false →
    Answers (pattern maxRetry.toNat) (m.call dpl st).1

namespace Mutation

/-- A call that has been carried out is returned at once. -/
theorem stops_carriedOut (m : Mutation) {rc : Status} (h : m.carriedOut rc = true) :
    m.stops rc = true := by
  cases m with
  | setattr path metadata => exact h
  | mknod path => exact h
  | _ =>
    have hs : rc = .success := of_decide_eq_true h
    rw [hs]
    rfl

/-- No loss is an answer. -/
theorem stops_loss (m : Mutation) (t : Loss) : m.stops t.1 = false := by
  obtain ⟨rc, h1, h2, h3⟩ := t
  cases m <;> simp [stops, successOrEnoent, h1, h2, h3]

theorem loss_ne (m : Mutation) {rc : Status} (h : m.stops rc = true) (t : Loss) : t.1 ≠ rc := by
  rintro rfl
  rw [m.stops_loss] at h
  cases h

end Mutation

variable {dpl : Mutations σ} {m : Mutation} {maxRetry : Int} {pattern : Nat → Attempt Loss}
  {st : σ} {k : Nat}

/-- What a wrapper returns and leaves is what one call that goes through gives, exactly when
the losses are ones it can hide. -/
theorem retries_mask_iff (dpl : Mutations σ) (hdpl : dpl.Lawful) (m : Mutation) (maxRetry : Int)
    (pattern : Nat → Attempt Loss) (st : σ) (k : Nat) (hk : k ≤ maxRetry)
    (hc : pattern k = .completes) (hlost : ∀ j < k, pattern j ≠ .completes) :
    m.timeout dpl maxRetry pattern st = m.call dpl st ↔ Masks dpl m maxRetry pattern st k := by
  have hbudget : k ≤ 0 + maxRetry.toNat := by omega
  have hno : ∀ j, 0 ≤ j → j < k → pattern j ≠ .completes := fun j _ hj => hlost j hj
  have hloss := m.stops_loss
  rw [m.timeout_eq, retryTimeout]
  by_cases hdone : m.carriedOut (m.call dpl st).1 = true
  · have hstop := m.stops_carriedOut hdone
    have hnot : m.stops (m.call dpl st).1 ≠ false := by simp [hstop]
    by_cases hsame : m.call dpl (m.call dpl st).2 = m.call dpl st
    · -- whether or not a reply was lost, the answer is the same
      refine iff_of_true ?_ ⟨fun _ => .inr hsame, fun hr => (hnot hr).elim⟩
      refine loop_of_answer hloss (Nat.zero_le k) hbudget hc hno
        (P := fun s => s = st ∨ s = (m.call dpl st).2) (.inl rfl) ?_ ?_ hstop
      · rintro j s _ _ (rfl | rfl) <;> cases pattern j <;> simp [Attempt.run, hsame]
      · rintro s (rfl | rfl)
        · rfl
        · exact hsame
    · -- once it has been carried out, the call is refused
      have hrefused : m.carriedOut (m.call dpl (m.call dpl st).2).1 = false := by
        by_contra hagain
        exact hsame (hdpl.again m st hdone (by simpa using hagain))
      have hone : m.call dpl st = m.call dpl st := rfl
      have hans : m.call dpl (m.call dpl st).2 =
          ((m.call dpl (m.call dpl st).2).1, (m.call dpl st).2) :=
        Prod.ext rfl (hdpl.refused m _ hrefused)
      have hne : (m.call dpl (m.call dpl st).2).1 ≠ (m.call dpl st).1 := by
        intro he
        rw [he, hdone] at hrefused
        cases hrefused
      constructor
      · intro h
        refine ⟨fun _ => .inl fun j hj => ?_, fun hr => (hnot hr).elim⟩
        by_contra hl
        have hafter : (Retry.loop Subtype.val (m.call dpl) m.stops pattern maxRetry.toNat 0 st).1 ≠
            (m.call dpl st).1 := by
          apply loop_after_lostReply (i := j) hone hans hne hloss (m.loss_ne hstop) (Nat.zero_le j)
          · omega
          · simpa using hl
          · exact fun i _ hi => hlost i (by omega)
        exact hafter (by rw [h])
      · intro h
        have hreq := (h.repeated hdone).resolve_right hsame
        refine loop_of_answer hloss (Nat.zero_le k) hbudget hc hno (P := fun s => s = st) rfl ?_
          ?_ hstop
        · rintro j s _ hj rfl
          have hj' := hreq j hj
          cases ha : pattern j with
          | lostRequest t => rfl
          | lostReply t => simp [ha, Attempt.replyLost] at hj'
          | completes => exact (hlost j hj ha).elim
        · rintro s rfl
          rfl
  · -- a refused call leaves the store, however often it is made
    have hkeep := hdpl.refused m st (by simpa using hdone)
    have hcall : m.call dpl st = ((m.call dpl st).1, st) := Prod.ext rfl hkeep
    by_cases hstop : m.stops (m.call dpl st).1 = true
    · refine iff_of_true ?_ ⟨fun h => (hdone h).elim, fun hr => by simp [hr] at hstop⟩
      refine loop_of_answer hloss (Nat.zero_le k) hbudget hc hno (P := fun s => s = st) rfl ?_
        ?_ hstop
      · rintro j s _ _ rfl
        cases pattern j <;> simp [Attempt.run, hkeep]
      · rintro s rfl
        rfl
    · have hstop' : m.stops (m.call dpl st).1 = false := by simpa using hstop
      rw [loop_of_refused hloss hcall hstop', Nat.zero_add]
      constructor
      · intro h
        exact ⟨fun h2 => (hdone h2).elim, fun _ => congrArg Prod.fst h⟩
      · intro h
        rw [h.refused hstop']
        exact hcall.symm

end Masking

section Store

variable {m : Mutation} {st : Store}

theorem dplMutations_refused (h : m.carriedOut (m.call dplMutations st).1 = false) :
    (m.call dplMutations st).2 = st := by
  cases m with
  | setattr path metadata =>
    cases hl : st.lookup path with
    | none => simp [Mutation.call, dplMutations, dplSetattr, Env.quiet, hl]
    | some o =>
      by_cases hd : o.ftype = .dir
      · simp [Mutation.carriedOut, Mutation.call, dplMutations, dplSetattr, Env.quiet, hl, hd] at h
      · simp [Mutation.carriedOut, Mutation.call, dplMutations, dplSetattr, Env.quiet, hl, hd] at h
  | mknod path =>
    rcases dplMknod_cases Env.quiet st path with hok | ⟨_, hsame⟩
    · exact absurd (congrArg Prod.fst hok) (of_decide_eq_false h)
    · exact hsame
  | mkdir path =>
    rcases dplMkdir_cases Env.quiet st path with ⟨_, hsame⟩ | ⟨_, _, _, hok⟩
    · exact hsame
    · exact absurd (congrArg Prod.fst hok) (of_decide_eq_false h)
  | unlink path =>
    rcases dplUnlink_cases Env.quiet st path with ⟨_, hsame⟩ | ⟨_, _, _, hok⟩
    · exact hsame
    · exact absurd (congrArg Prod.fst hok) (of_decide_eq_false h)
  | rmdir path =>
    rcases dplRmdir_cases Env.quiet st path with ⟨_, hsame⟩ | ⟨_, _, _, _, hok⟩
    · exact hsame
    · exact absurd (congrArg Prod.fst hok) (of_decide_eq_false h)
  | fcopy oldpath newpath =>
    rcases dplFcopy_cases Env.quiet st oldpath newpath with ⟨_, hsame⟩ | ⟨_, _, _, o, _, _, hok⟩
    · exact hsame
    · exact absurd (congrArg Prod.fst hok) (of_decide_eq_false h)

/-- A call that makes or removes a name is refused once it has been carried out; any other repeats
itself. -/
theorem dplMutations_again (h : m.carriedOut (m.call dplMutations st).1 = true)
    (h' : m.carriedOut (m.call dplMutations (m.call dplMutations st).2).1 = true) :
    m.call dplMutations (m.call dplMutations st).2 = m.call dplMutations st := by
  cases m with
  | setattr path metadata =>
    cases hl : st.lookup path with
    | none => simp [Mutation.carriedOut, Mutation.call, dplMutations, dplSetattr, Env.quiet, hl] at h
    | some o => simp [Mutation.call, dplMutations, dplSetattr, Env.quiet, hl]
  | mknod path =>
    change dplMknod Env.quiet (dplMknod Env.quiet st path).2 path = dplMknod Env.quiet st path
    rcases dplMknod_cases Env.quiet st path with hok | ⟨hno, _⟩
    · rcases dplMknod_cases Env.quiet (dplMknod Env.quiet st path).2 path with hok' | ⟨hno', _⟩
      · rw [hok', hok, AList.insert_insert]
      · exact absurd (of_decide_eq_true h') hno'
    · exact absurd (of_decide_eq_true h) hno
  | mkdir path =>
    rcases dplMkdir_cases Env.quiet st path with ⟨hno, _⟩ | ⟨_, _, _, hok⟩
    · exact absurd (of_decide_eq_true h) hno
    rcases dplMkdir_cases Env.quiet (dplMkdir Env.quiet st path).2 path with
      ⟨hno', _⟩ | ⟨_, _, hnone, _⟩
    · exact absurd (of_decide_eq_true h') hno'
    · rw [hok, AList.lookup_insert] at hnone
      cases hnone
  | unlink path =>
    rcases dplUnlink_cases Env.quiet st path with ⟨hno, _⟩ | ⟨_, _, _, hok⟩
    · exact absurd (of_decide_eq_true h) hno
    rcases dplUnlink_cases Env.quiet (dplUnlink Env.quiet st path).2 path with
      ⟨hno', _⟩ | ⟨_, _, ⟨o, ho, _⟩, _⟩
    · exact absurd (of_decide_eq_true h') hno'
    · rw [hok, AList.lookup_erase] at ho
      cases ho
  | rmdir path =>
    rcases dplRmdir_cases Env.quiet st path with ⟨hno, _⟩ | ⟨_, hroot, _, _, hok⟩
    · exact absurd (of_decide_eq_true h) hno
    rcases dplRmdir_cases Env.quiet (dplRmdir Env.quiet st path).2 path with
      ⟨hno', _⟩ | ⟨_, _, hdir, _⟩
    · exact absurd (of_decide_eq_true h') hno'
    · rw [hok, Store.ftype?_of_ne hroot, AList.lookup_erase] at hdir
      cases hdir
  | fcopy oldpath newpath =>
    change dplFcopy Env.quiet (dplFcopy Env.quiet st oldpath newpath).2 oldpath newpath =
      dplFcopy Env.quiet st oldpath newpath
    rcases dplFcopy_cases Env.quiet st oldpath newpath with ⟨hno, _⟩ | ⟨_, _, _, o, hl, _, hok⟩
    · exact absurd (of_decide_eq_true h) hno
    rcases dplFcopy_cases Env.quiet (dplFcopy Env.quiet st oldpath newpath).2 oldpath newpath with
      ⟨hno', _⟩ | ⟨_, _, _, o', hl', _, hok'⟩
    · exact absurd (of_decide_eq_true h') hno'
    · have hcopy : AList.lookup oldpath (AList.insert newpath o st) = some o := by
        by_cases he : oldpath = newpath
        · rw [he]
          exact AList.lookup_insert st
        · rw [AList.lookup_insert_ne he]
          exact hl
      rw [hok] at hl'
      obtain rfl := Option.some.inj (hcopy.symm.trans hl')
      rw [hok', hok, AList.insert_insert]

theorem dplMutations_lawful : dplMutations.Lawful :=
  ⟨fun _ _ h => dplMutations_refused h, fun _ _ h h' => dplMutations_again h h'⟩

end Store

/-- The reply of the first unlink is lost; the second finds nothing. -/
def replyLostOnce (n : Nat) : Attempt Loss :=
  if n = 0 then .lostReply ⟨.failure, by decide, by decide, by decide⟩ else .completes

theorem retries_mask_request :
    (Mutation.unlink ['/', 'f']).timeout dplMutations 3
        (fun n => if n = 0 then .lostRequest ⟨.failure, by decide, by decide, by decide⟩
          else .completes) (Sample.store [(['/', 'f'], Sample.file [1])]) =
      (Mutation.unlink ['/', 'f']).call dplMutations
        (Sample.store [(['/', 'f'], Sample.file [1])]) := by
  refine (retries_mask_iff dplMutations dplMutations_lawful _ 3 _ _ 1 (by decide) rfl
    (by decide)).mpr ⟨fun _ => .inl (by decide), ?_⟩
  intro h
  cases h

theorem lost_reply_shows :
    ((Mutation.unlink ['/', 'f']).call dplMutations
        (Sample.store [(['/', 'f'], Sample.file [1])])).1 = .success ∧
      ((Mutation.unlink ['/', 'f']).timeout dplMutations 3 replyLostOnce
        (Sample.store [(['/', 'f'], Sample.file [1])])).1 = .enoent := ⟨rfl, rfl⟩

end DropletFs
