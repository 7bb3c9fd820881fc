import Mathlib.Data.List.Perm.Basic
import DropletFs.Model.Cachedir

/-! The paths `root_dir_preload` queues, and those the threads of its pool look up. -/

namespace DropletFs

open CText RingBuffer

namespace Preload

variable {listing : List CStr} {ring : Ring} {p : Preload} {steps : List PreloadStep}

/-- The path of an entry of the root directory. -/
def fullPath (name : CStr) : Path := rootPath ++ name

/-- A path looked up for the entry at an index is the entry's own. -/
def Own (listing : List CStr) (e : Nat × CStr) : Prop := (listing[e.1]?).map fullPath = some e.2

/-- Every call gets and looks up the path of its own entry, and once all is done the paths looked
up are those of the listing. -/
structure Visits (p : Preload) : Prop where
  received : ∀ e ∈ p.received, Own p.listing e
  stated : ∀ e ∈ p.stated, Own p.listing e
  each : p.Done → (p.stated.map (·.2)).Perm (p.listing.map fullPath)

/-- The path of the entry fits its slot, and no more than 31 entries were queued after it; or the
last entry to come to the slot happens to leave the same text. -/
def Fresh (p : Preload) (index : Nat) : Prop :=
  if p.queued ≤ index + tmpstrNb then ∀ name, p.listing[index]? = some name →
    (fullPath name).length < tmpstrMax
  else (p.listing[latest tmpstrNb index p.queued]?).map (fun name => tmpstr (fullPath name)) =
    (p.listing[index]?).map fullPath

/-- The item a step reads is fresh. -/
def InTime (p : Preload) : PreloadStep → Prop
  | .push => True
  | .take => p.running.length < poolThreads → ∀ item, p.queue.head? = some item → p.Fresh item.index
  | .stat k => ∀ item, p.running[k]? = some item → p.Fresh item.index

/-- Every step of a schedule reads in time. -/
def AllInTime : Preload → List PreloadStep → Prop
  | _, [] => True
  | p, e :: steps => p.InTime e ∧ AllInTime (p.step e) steps

/-- Where the items stand. -/
structure Inv (listing : List CStr) (ring : Ring) (p : Preload) : Prop where
  same : p.listing = listing
  queued : p.queued ≤ listing.length
  items : ∀ item ∈ p.queue ++ p.running,
    item.index < p.queued ∧ item.slot = ring.slotAt item.index
  indices : ((p.queue ++ p.running).map (·.index) ++ p.stated.map (·.1)).Perm
    (List.range p.queued)
  ring : p.ring = ring.pushAll ((listing.take p.queued).map fun name => tmpstr (fullPath name))

theorem Inv.start (listing : List CStr) (ring : Ring) : Inv listing ring (start listing ring) where
  same := rfl
  queued := Nat.zero_le _
  items := by simp [Preload.start]
  indices := by simp [Preload.start]
  ring := by simp [Preload.start]

/-- What an item reads is the path of the last entry to come to its slot. -/
theorem Inv.read (h : Inv listing ring p) {item : PoolItem} (hm : item ∈ p.queue ++ p.running) :
    some (p.read item) =
      (listing[latest tmpstrNb item.index p.queued]?).map fun name => tmpstr (fullPath name) := by
  obtain ⟨hlt, hslot⟩ := h.items item hm
  have hlen : ((listing.take p.queued).map fun name => tmpstr (fullPath name)).length =
      p.queued := by
    rw [List.length_map, List.length_take, Nat.min_eq_left h.queued]
  have hlast := pushAll_latest ring ((listing.take p.queued).map
    fun name => tmpstr (fullPath name)) (i := item.index) (by rw [hlen]; exact hlt)
  rw [hlen, ← h.ring, ← hslot] at hlast
  rw [Preload.read, ← hlast, List.getElem?_map, List.getElem?_take_of_lt (latest_lt hlt)]

/-- An item reads the path of its own entry exactly when it is fresh. -/
theorem Inv.fresh_iff (h : Inv listing ring p) {item : PoolItem}
    (hm : item ∈ p.queue ++ p.running) :
    Own listing (item.index, p.read item) ↔ p.Fresh item.index := by
  have hlt := (h.items item hm).1
  have hread := h.read hm
  unfold Own Fresh
  rw [hread, h.same]
  split
  · rename_i hle
    have hlatest : latest tmpstrNb item.index p.queued = item.index := by
      have hzero : (p.queued - 1 - item.index) / tmpstrNb = 0 := Nat.div_eq_of_lt (by omega)
      rw [latest, hzero, Nat.mul_zero, Nat.add_zero]
    obtain ⟨name, hname⟩ : ∃ name, listing[item.index]? = some name :=
      ⟨_, List.getElem?_eq_getElem (lt_of_lt_of_le hlt h.queued)⟩
    rw [hlatest, hname]
    simp only [Option.map_some, Option.some.injEq, forall_eq']
    rw [eq_comm]
    exact snprintf_eq_self_iff (by decide)
  · exact eq_comm

theorem Inv.push (h : Inv listing ring p) : Inv listing ring (p.step .push) := by
  unfold Preload.step
  cases hname : p.listing[p.queued]? with
  | none => exact h
  | some name =>
    have hlt : p.queued < listing.length := by
      rw [← h.same]
      exact (List.getElem?_eq_some_iff.mp hname).1
    have hnext : p.ring.next = ring.slotAt p.queued := by
      rw [h.ring, pushAll_next, List.length_map, List.length_take, Nat.min_eq_left h.queued]
    refine ⟨h.same, hlt, ?_, ?_, ?_⟩
    · intro item hm
      simp only [List.mem_append, List.mem_singleton] at hm
      rcases hm with (hq | rfl) | hr
      · obtain ⟨hi, hs⟩ := h.items item (List.mem_append_left _ hq)
        exact ⟨Nat.lt_succ_of_lt hi, hs⟩
      · exact ⟨Nat.lt_succ_self _, hnext⟩
      · obtain ⟨hi, hs⟩ := h.items item (List.mem_append_right _ hr)
        exact ⟨Nat.lt_succ_of_lt hi, hs⟩
    · have hperm := (h.indices.append_right [p.queued])
      rw [← List.range_succ] at hperm
      refine List.Perm.trans ?_ hperm
      simp only [List.map_append, List.map_singleton, List.append_assoc]
      refine List.Perm.append_left _ ?_
      exact List.perm_append_comm.trans (by rw [List.append_assoc])
    · dsimp only
      rw [h.ring, List.take_add_one, ← h.same, hname, Option.toList_some, List.map_append,
        pushAll_append]
      rfl

theorem Inv.take (h : Inv listing ring p) : Inv listing ring (p.step .take) := by
  unfold Preload.step
  cases hq : p.queue with
  | nil => exact h
  | cons item rest =>
    dsimp only
    split
    · refine ⟨h.same, h.queued, ?_, ?_, h.ring⟩
      · intro item' hm
        apply h.items
        simp only [hq, List.mem_append, List.mem_cons] at hm ⊢
        tauto
      · refine List.Perm.trans ?_ h.indices
        rw [hq]
        refine List.Perm.append_right _ (List.Perm.map _ ?_)
        rw [← List.append_assoc]
        exact List.perm_append_comm
    · exact h

theorem Inv.stat (h : Inv listing ring p) (k : Nat) : Inv listing ring (p.step (.stat k)) := by
  cases hk : p.running[k]? with
  | none =>
    simp only [Preload.step, hk]
    exact h
  | some item =>
    simp only [Preload.step, hk]
    refine ⟨h.same, h.queued, ?_, ?_, h.ring⟩
    · intro item' hm
      apply h.items
      rcases List.mem_append.mp hm with hq | hr
      · exact List.mem_append_left _ hq
      · exact List.mem_append_right _ (List.mem_of_mem_eraseIdx hr)
    · refine List.Perm.trans ?_ h.indices
      obtain ⟨hlt, hget⟩ := List.getElem?_eq_some_iff.mp hk
      have hperm := (List.getElem_cons_eraseIdx_perm hlt).map (·.index)
      rw [hget, List.map_cons] at hperm
      simp only [List.map_append, List.map_singleton, List.append_assoc]
      refine List.Perm.append_left _ ?_
      refine List.Perm.trans ?_ (hperm.append_right _)
      rw [← List.append_assoc]
      exact List.perm_append_comm

theorem Inv.step (h : Inv listing ring p) (e : PreloadStep) : Inv listing ring (p.step e) := by
  cases e with
  | push => exact h.push
  | take => exact h.take
  | stat k => exact h.stat k

/-- What a schedule has read so far, and whether all of it was the right path. -/
def AllOwn (p : Preload) : Prop :=
  (∀ e ∈ p.received, Own p.listing e) ∧ ∀ e ∈ p.stated, Own p.listing e

/-- A step adds a wrong path exactly when it is not in time. -/
theorem Inv.step_own (h : Inv listing ring p) (e : PreloadStep) :
    (p.step e).AllOwn ↔ p.AllOwn ∧ p.InTime e := by
  cases e with
  | push =>
    unfold Preload.step
    cases p.listing[p.queued]? with
    | none => simp [InTime]
    | some name => simp [InTime, AllOwn]
  | take =>
    unfold Preload.step InTime
    cases hq : p.queue with
    | nil => simp
    | cons item rest =>
      have hmem : item ∈ p.queue ++ p.running := by simp [hq]
      have hown := h.fresh_iff hmem
      dsimp only
      split
      · rename_i hroom
        simp only [AllOwn, List.mem_append, List.mem_singleton, or_imp, forall_and, forall_eq,
          hroom, forall_const, List.head?_cons, Option.some.injEq, forall_eq', h.same, hown]
        tauto
      · rename_i hroom
        simp [hroom]
  | stat k =>
    cases hk : p.running[k]? with
    | none => simp [Preload.step, InTime, hk]
    | some item =>
      have hmem : item ∈ p.queue ++ p.running :=
        List.mem_append_right _ (List.mem_of_getElem? hk)
      have hown := h.fresh_iff hmem
      simp only [Preload.step, InTime, hk, AllOwn, List.mem_append, List.mem_singleton, or_imp,
        forall_and, forall_eq, Option.some.injEq, forall_eq', h.same, hown]
      tauto

theorem Inv.run_own (h : Inv listing ring p) (steps : List PreloadStep) :
    (p.run steps).AllOwn ↔ p.AllOwn ∧ AllInTime p steps := by
  induction steps generalizing p with
  | nil => simp [Preload.run, AllInTime]
  | cons e steps ih =>
    have hrun : p.run (e :: steps) = (p.step e).run steps := rfl
    rw [hrun, ih (h.step e), h.step_own e, AllInTime, and_assoc]

theorem Inv.run (h : Inv listing ring p) (steps : List PreloadStep) :
    Inv listing ring (p.run steps) := by
  induction steps generalizing p with
  | nil => exact h
  | cons e steps ih => exact ih (h.step e)

/-- Once all is done, right paths are the paths of the listing. -/
theorem Inv.each (h : Inv listing ring p) (hown : ∀ e ∈ p.stated, Own p.listing e)
    (hdone : p.Done) : (p.stated.map (·.2)).Perm (p.listing.map fullPath) := by
  obtain ⟨hall, hq, hr⟩ := hdone
  have hqueued : p.queued = p.listing.length :=
    Nat.le_antisymm (by rw [h.same]; exact h.queued) hall
  have hindices := h.indices
  rw [hq, hr, hqueued] at hindices
  simp only [List.append_nil, List.map_nil, List.nil_append] at hindices
  have hpaths : p.stated.map (fun e => some e.2) =
      (p.stated.map (·.1)).map fun i => (p.listing[i]?).map fullPath := by
    rw [List.map_map]
    apply List.map_congr_left
    intro e he
    exact (hown e he).symm
  have hlist : (List.range p.listing.length).map (fun i => (p.listing[i]?).map fullPath) =
      p.listing.map fun name => some (fullPath name) := by
    apply List.ext_getElem?
    intro i
    by_cases hi : i < p.listing.length
    · simp [hi]
    · simp [Nat.not_lt.mp hi]
  have hperm : ((p.stated.map (·.2)).map some).Perm ((p.listing.map fullPath).map some) := by
    rw [List.map_map, List.map_map]
    show (p.stated.map fun e => some e.2).Perm (p.listing.map fun name => some (fullPath name))
    rw [hpaths, ← hlist]
    exact hindices.map _
  exact (List.map_perm_map_iff (Option.some_injective _)).mp hperm

end Preload

/-- The entries of the root directory are looked up once each, under their own paths, exactly when
no slot is read too late. -/
theorem preload_visits_iff (listing : List CStr) (ring : Ring) (steps : List PreloadStep) :
    ((Preload.start listing ring).run steps).Visits ↔
      Preload.AllInTime (.start listing ring) steps := by
  have hinv := Preload.Inv.start listing ring
  have hown := hinv.run_own steps
  have hstart : (Preload.start listing ring).AllOwn := by simp [Preload.AllOwn, Preload.start]
  rw [and_iff_right hstart] at hown
  rw [← hown]
  constructor
  · intro h
    exact ⟨h.received, h.stated⟩
  · intro h
    exact ⟨h.1, h.2, (hinv.run steps).each h.2⟩

/-- One entry more than the ring has slots. -/
def Preload.crowded : List CStr := (List.range (tmpstrNb + 1)).map fun i =>
    List.replicate (i + 1) 'a'

/-- The first call comes when everything is queued, and gets the path of the last entry. -/
theorem preload_overwritten :
    ¬((Preload.start Preload.crowded ⟨fun _ => [], 0⟩).run
      (List.replicate (tmpstrNb + 1) .push ++ [.take])).Visits := by
  intro h
  have hown := h.received (0, '/' :: List.replicate (tmpstrNb + 1) 'a') (by decide)
  exact absurd hown (by unfold Preload.Own; decide)

end DropletFs
