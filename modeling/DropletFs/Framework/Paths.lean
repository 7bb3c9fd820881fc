import Mathlib.Data.List.Infix
import DropletFs.Framework.Text

/-! Paths as texts with components between slashes, and which lies within which. -/

namespace CText

/-- An entry of a directory. -/
def child (p x : CStr) : CStr := p ++ '/' :: x

/-- `q` is `p` or lies below it. -/
def Within (p q : CStr) : Prop := (p ++ ['/']) <+: (q ++ ['/'])

instance (p q : CStr) : Decidable (Within p q) :=
  inferInstanceAs (Decidable ((p ++ ['/']) <+: (q ++ ['/'])))

/-- Neither path lies within the other. -/
def Separate (p q : CStr) : Prop := ¬Within p q ∧ ¬Within q p

instance (p q : CStr) : Decidable (Separate p q) := inferInstanceAs (Decidable (_ ∧ _))

theorem child_length (p x : CStr) : (child p x).length = p.length + 1 + x.length := by
  simp [child]
  omega

theorem child_child (p x r : CStr) : child (child p x) r = child p (child x r) := by
  simp [child]

theorem child_injective {p x y : CStr} (h : child p x = child p y) : x = y := by
  simpa [child] using h

namespace Within

variable {p q r x : CStr}

theorem refl (p : CStr) : Within p p := List.prefix_refl _

theorem trans (h : Within p q) (h' : Within q r) : Within p r := List.IsPrefix.trans h h'

theorem iff_append : Within p q ↔ q = p ∨ ∃ x, q = child p x := by
  constructor
  · rintro ⟨t, ht⟩
    rcases List.eq_nil_or_concat t with rfl | ⟨t, c, rfl⟩
    · exact .inl (by simpa using ht.symm)
    · have he : q ++ ['/'] = child p t ++ [c] := by simp [← ht, child]
      exact .inr ⟨t, (List.append_inj' he rfl).1⟩
  · rintro (rfl | ⟨x, rfl⟩)
    · exact refl _
    · exact ⟨x ++ ['/'], by simp [child]⟩

theorem child_self (p x : CStr) : Within p (child p x) := iff_append.mpr (.inr ⟨x, rfl⟩)

theorem child (h : Within p q) (x : CStr) : Within p (child q x) := h.trans (child_self q x)

theorem length_le (h : Within p q) : p.length ≤ q.length := by
  have hl := List.IsPrefix.length_le h
  simpa using hl

/-- Two paths that some path lies within are comparable. -/
theorem comparable (h : Within p r) (h' : Within q r) : Within p q ∨ Within q p :=
  List.prefix_or_prefix_of_prefix h h'

/-- Nothing lies within another path without having a slash. -/
theorem eq_of_notMem (h : Within p q) (hq : '/' ∉ q) : q = p := by
  rcases iff_append.mp h with h | ⟨x, rfl⟩
  · exact h
  · exact (hq (by simp [CText.child])).elim

/-- What lies below one path has a counterpart below any other. -/
theorem relocate {w : CStr} (h : Within p (p ++ w)) (q : CStr) : Within q (q ++ w) := by
  unfold Within at h ⊢
  rw [List.append_assoc] at h ⊢
  exact (List.prefix_append_right_inj q).mpr ((List.prefix_append_right_inj p).mp h)

theorem not_child_self (p x : CStr) : ¬Within (CText.child p x) p := by
  intro h
  have hl := h.length_le
  rw [child_length] at hl
  omega

end Within

namespace Separate

variable {p q p' q' r x y : CStr}

theorem symm (h : Separate p q) : Separate q p := ⟨h.2, h.1⟩

theorem not_both (h : Separate p q) (hp : Within p r) : ¬Within q r := fun hq =>
  (hp.comparable hq).elim h.1 h.2

theorem mono (h : Separate p q) (hp : Within p p') (hq : Within q q') : Separate p' q' :=
  ⟨fun h' => h.not_both (hp.trans h') hq, fun h' => h.not_both hp (hq.trans h')⟩

theorem ne (h : Separate p q) : p ≠ q := by
  rintro rfl
  exact h.1 (Within.refl p)

theorem ne_of_within (h : Separate p q) (hp : Within p p') (hq : Within q q') : p' ≠ q' :=
  (h.mono hp hq).ne

theorem child_ne (h : Separate p q) (x y : CStr) : child p x ≠ child q y :=
  h.ne_of_within (Within.child_self p x) (Within.child_self q y)

/-- Distinct entries of one directory. -/
theorem siblings (hx : '/' ∉ x) (hy : '/' ∉ y) (hne : x ≠ y) (p : CStr) :
    Separate (child p x) (child p y) := by
  have key : ∀ {a b : CStr}, '/' ∉ b → a ≠ b → ¬Within (child p a) (child p b) := by
    intro a b hb hab h
    rcases Within.iff_append.mp h with he | ⟨z, he⟩
    · exact hab (child_injective he).symm
    · have hs : b = a ++ '/' :: z := by simpa [child] using he
      exact hb (by simp [hs])
  exact ⟨key hy hne, key hx (Ne.symm hne)⟩

end Separate

/-- The components of a path that has been read, and the part read of the next one. -/
structure Scan where
  done : List CStr
  cur : CStr

/-- All components, the last one included. -/
def Scan.close (sc : Scan) : List CStr := if sc.cur = [] then sc.done else sc.done ++ [sc.cur]

def Scan.read (sc : Scan) (c : Char) : Scan :=
  if c = '/' then ⟨sc.close, []⟩ else ⟨sc.done, sc.cur ++ [c]⟩

def scan (p : CStr) : Scan := p.foldl Scan.read ⟨[], []⟩

/-- The components of a path; slashes in a row count as one. -/
def segments (p : CStr) : List CStr := (scan p).close

section Segments

variable {p q x : CStr}

theorem scan_append (p q : CStr) : scan (p ++ q) = q.foldl Scan.read (scan p) := by
  rw [scan, List.foldl_append]
  rfl

theorem scan_slash (p : CStr) : scan (p ++ ['/']) = ⟨segments p, []⟩ := by
  rw [scan_append]
  rfl

theorem scan_concat {c : Char} (hc : c ≠ '/') (p : CStr) :
    scan (p ++ [c]) = ⟨(scan p).done, (scan p).cur ++ [c]⟩ := by
  rw [scan_append]
  exact if_neg hc

/-- A last slash makes no difference. -/
theorem segments_slash (p : CStr) : segments (p ++ ['/']) = segments p := by
  rw [segments, scan_slash]
  exact if_pos rfl

theorem foldl_read (sc : Scan) (hx : '/' ∉ x) :
    x.foldl Scan.read sc = ⟨sc.done, sc.cur ++ x⟩ := by
  induction x generalizing sc with
  | nil => rw [List.append_nil, List.foldl_nil]
  | cons c cs ih =>
    rw [List.mem_cons, not_or] at hx
    rw [List.foldl_cons, ih _ hx.2, Scan.read, if_neg (Ne.symm hx.1)]
    simp

theorem segments_of_notMem (hx : '/' ∉ x) (hne : x ≠ []) : segments x = [x] := by
  rw [segments, scan, foldl_read _ hx]
  exact if_neg hne

theorem segments_child (hx : '/' ∉ x) (hne : x ≠ []) (p : CStr) :
    segments (p ++ '/' :: x) = segments p ++ [x] := by
  have hsplit : p ++ '/' :: x = (p ++ ['/']) ++ x := by simp
  rw [segments, hsplit, scan_append, scan_slash, foldl_read _ hx]
  exact if_neg hne

/-- The component that is being read is at most one more. -/
theorem segments_cases (p : CStr) :
    segments p = (scan p).done ∨ ∃ x, segments p = (scan p).done ++ [x] := by
  rw [segments, Scan.close]
  split_ifs
  · exact .inl rfl
  · exact .inr ⟨_, rfl⟩

theorem done_prefix_segments (p : CStr) : (scan p).done <+: segments p := by
  rcases segments_cases p with h | ⟨x, h⟩
  · rw [h]
  · rw [h]
    exact List.prefix_append _ _

/-- A component read stays. -/
theorem done_prefix_append (p q : CStr) : (scan p).done <+: (scan (p ++ q)).done := by
  induction q using List.reverseRecOn with
  | nil => rw [List.append_nil]
  | append_singleton q c ih =>
    apply ih.trans
    rw [← List.append_assoc]
    by_cases hc : c = '/'
    · rw [hc, scan_slash]
      exact done_prefix_segments _
    · rw [scan_concat hc]

theorem segments_prefix_slash (p q : CStr) : segments p <+: segments (p ++ '/' :: q) := by
  have hdone := done_prefix_append (p ++ ['/']) q
  rw [scan_slash, List.append_assoc, List.singleton_append] at hdone
  exact hdone.trans (done_prefix_segments _)

end Segments

end CText
