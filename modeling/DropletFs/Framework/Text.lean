import Mathlib.Data.List.Basic
import Mathlib.Data.List.TakeDrop

/-! C strings as lists of characters: bounded formatting, the last slash, repeated
slashes. -/

namespace CText

abbrev CStr := List Char

/-- `vsnprintf` into a buffer of `max` bytes keeps what fits before the final NUL. -/
def snprintf (max : Nat) (text : CStr) : CStr := text.take (max - 1)

theorem snprintf_of_lt {max : Nat} {text : CStr} (h : text.length < max) :
    snprintf max text = text := List.take_of_length_le (by omega)

theorem snprintf_eq_self_iff {max : Nat} (hm : 0 < max) {text : CStr} :
    snprintf max text = text ↔ text.length < max := by
  rw [snprintf, List.take_eq_self_iff]
  omega

theorem snprintf_length_lt {max : Nat} (hm : 0 < max) (text : CStr) :
    (snprintf max text).length < max := by
  rw [snprintf, List.length_take]
  omega

/-- The byte that ends a string. -/
def nul : Char := Char.ofNat 0

/-- The string a buffer starts with, when it ends within the buffer. -/
def stringAt (buf : List Char) : Option CStr :=
  if nul ∈ buf then some (buf.takeWhile (· ≠ nul)) else none

/-- `strncpy` of `n` bytes into a buffer that has room for them. -/
def strncpy (buf : List Char) (src : CStr) (n : Nat) : List Char :=
  src.take n ++ List.replicate (n - src.length) nul ++ buf.drop n

@[simp] theorem strncpy_length {buf : List Char} {src : CStr} {n : Nat} (h : n ≤ buf.length) :
    (strncpy buf src n).length = buf.length := by
  simp only [strncpy, List.length_append, List.length_take, List.length_replicate,
    List.length_drop]
  omega

/-- `strncpy` of as many bytes as the string has writes no terminator. -/
theorem strncpy_self (buf : List Char) (src : CStr) :
    strncpy buf src src.length = src ++ buf.drop src.length := by
  simp [strncpy]

/-- The string goes on after a part without the byte that ends it. -/
theorem stringAt_append {text : CStr} (h : nul ∉ text) (rest : List Char) :
    stringAt (text ++ rest) = (stringAt rest).map (text ++ ·) := by
  have htake : (text ++ rest).takeWhile (· ≠ nul) = text ++ rest.takeWhile (· ≠ nul) := by
    apply List.takeWhile_append_of_pos
    intro c hc
    simp only [ne_eq, decide_not, Bool.not_eq_eq_eq_not, Bool.not_true, decide_eq_false_iff_not]
    intro he
    exact h (he ▸ hc)
  unfold stringAt
  by_cases hr : nul ∈ rest
  · rw [if_pos (List.mem_append_right text hr), if_pos hr, htake]
    rfl
  · rw [if_neg (by simp [h, hr]), if_neg hr]
    rfl

theorem stringAt_eq_nil {buf : List Char} : stringAt buf = some [] ↔ buf[0]? = some nul := by
  cases buf with
  | nil => simp [stringAt]
  | cons c cs =>
    by_cases hc : c = nul
    · simp [stringAt, hc]
    · simp [stringAt, hc]

/-- `fgets` with a buffer of `size` bytes: what it reads, up to a newline, and the rest. -/
def fgets (size : Nat) (stream : CStr) : CStr × CStr :=
  let n := min (size - 1) ((stream.takeWhile (· ≠ '\n')).length + 1)
  (stream.take n, stream.drop n)

/-- What call after call of `fgets` reads. The fuel is the length of the stream. -/
def fgetsAll (size : Nat) : Nat → CStr → List CStr
  | 0, _ => []
  | _ + 1, [] => []
  | n + 1, c :: cs => (fgets size (c :: cs)).1 :: fgetsAll size n (fgets size (c :: cs)).2

/-- `strrchr(p, '/')`: the text before the last slash, if there is one. -/
def beforeLastSlash : CStr → Option CStr
  | [] => none
  | c :: cs =>
    match beforeLastSlash cs with
    | some d => some (c :: d)
    | none => if c = '/' then some [] else none

theorem beforeLastSlash_none {p : CStr} : beforeLastSlash p = none ↔ '/' ∉ p := by
  induction p with
  | nil => simp [beforeLastSlash]
  | cons c cs ih =>
    cases h : beforeLastSlash cs with
    | some d =>
      have hm : '/' ∈ cs := by
        by_contra hn
        rw [ih.mpr hn] at h
        cases h
      simp [beforeLastSlash, h, hm]
    | none =>
      have hm := ih.mp h
      by_cases hc : c = '/'
      · simp [beforeLastSlash, h, hc]
      · simp [beforeLastSlash, h, hc, hm, Ne.symm hc]

theorem beforeLastSlash_append {d x : CStr} (hx : '/' ∉ x) :
    beforeLastSlash (d ++ '/' :: x) = some d := by
  induction d with
  | nil => simp [beforeLastSlash, beforeLastSlash_none.mpr hx]
  | cons c d ih => simp [beforeLastSlash, ih]

theorem beforeLastSlash_some {p d : CStr} (h : beforeLastSlash p = some d) :
    ∃ x, p = d ++ '/' :: x ∧ '/' ∉ x := by
  induction p generalizing d with
  | nil => cases h
  | cons c cs ih =>
    rw [beforeLastSlash] at h
    cases hb : beforeLastSlash cs with
    | some e =>
      simp only [hb, Option.some.injEq] at h
      obtain ⟨x, hx, hn⟩ := ih hb
      exact ⟨x, by rw [← h, List.cons_append, ← hx], hn⟩
    | none =>
      simp only [hb, Option.ite_none_right_eq_some, Option.some.injEq] at h
      obtain ⟨rfl, rfl⟩ := h
      exact ⟨cs, rfl, beforeLastSlash_none.mp hb⟩

/-- `strrchr(p, '/')` as an offset. -/
def strrchr (p : CStr) : Option Nat := (beforeLastSlash p).map List.length

/-- The string a buffer holds up to its first NUL, or to its end. -/
def cstr (buf : List Char) : CStr := buf.takeWhile (· ≠ nul)

theorem set_at_length (d x : CStr) (a b : Char) : (d ++ a :: x).set d.length b = d ++ b :: x := by
  simp

theorem cstr_append {d : CStr} (h : nul ∉ d) (x : CStr) : cstr (d ++ x) = d ++ cstr x := by
  apply List.takeWhile_append_of_pos
  intro c hc
  simpa using fun he : c = nul => h (he ▸ hc)

theorem cstr_of_notMem {p : CStr} (h : nul ∉ p) : cstr p = p := by
  have happ := cstr_append h []
  rwa [List.append_nil, show cstr [] = [] from rfl, List.append_nil] at happ

theorem nul_notMem_cstr (buf : List Char) : nul ∉ cstr buf := by
  intro hm
  have hne := List.all_eq_true.mp List.all_takeWhile nul hm
  simp at hne

theorem cstr_stop (a rest : List Char) : cstr (a ++ nul :: rest) = cstr a := by
  induction a with
  | nil => simp [cstr]
  | cons c cs ih =>
    by_cases hc : c = nul
    · simp [cstr, hc]
    · unfold cstr at ih ⊢
      rw [List.cons_append, List.takeWhile_cons_of_pos (by simpa using hc),
        List.takeWhile_cons_of_pos (by simpa using hc), ih]

/-- A string cut short in place reads as the part before the cut. -/
theorem cstr_cut {d : CStr} (h : nul ∉ d) (x : CStr) : cstr (d ++ nul :: x) = d := by
  rw [cstr_stop, cstr_of_notMem h]

/-- The name a system call resolves: runs of slashes count as one. -/
def collapse : CStr → CStr
  | [] => []
  | c :: cs =>
    match cs with
    | [] => [c]
    | d :: ds => if c = '/' ∧ d = '/' then collapse (d :: ds) else c :: collapse (d :: ds)

theorem collapse_cons_cons (c d : Char) (ds : CStr) :
    collapse (c :: d :: ds) =
      if c = '/' ∧ d = '/' then collapse (d :: ds) else c :: collapse (d :: ds) := by
  rw [collapse]

/-- Two slashes in a row are the same as one, wherever they stand. -/
theorem collapse_slashes (a b : CStr) :
    collapse (a ++ '/' :: '/' :: b) = collapse (a ++ '/' :: b) := by
  induction a with
  | nil => simp [collapse_cons_cons]
  | cons c a ih =>
    cases a with
    | nil => simp [collapse_cons_cons]
    | cons d a => simp only [List.cons_append, collapse_cons_cons] at ih ⊢; rw [ih]

/-- No slash follows another. -/
def NoDoubleSlash : CStr → Prop
  | [] => True
  | c :: cs => (c = '/' → cs.head? ≠ some '/') ∧ NoDoubleSlash cs

theorem NoDoubleSlash.left {p q : CStr} (h : NoDoubleSlash (p ++ q)) : NoDoubleSlash p := by
  induction p with
  | nil => trivial
  | cons c cs ih =>
    refine ⟨fun hc hd => h.1 hc ?_, ih h.2⟩
    cases cs with
    | nil => cases hd
    | cons d ds => exact hd

theorem collapse_of_noDoubleSlash {p : CStr} (h : NoDoubleSlash p) : collapse p = p := by
  induction p with
  | nil => rfl
  | cons c cs ih =>
    cases cs with
    | nil => rfl
    | cons d ds =>
      have hn : ¬(c = '/' ∧ d = '/') := fun e => h.1 e.1 (by simp [e.2])
      rw [collapse_cons_cons, if_neg hn, ih h.2]

/-- Below a directory name, names without a double slash keep their text. -/
theorem collapse_append {a p : CStr} (h : NoDoubleSlash ('/' :: p)) :
    collapse (a ++ '/' :: p) = collapse (a ++ ['/']) ++ p := by
  induction a with
  | nil =>
    have h1 : collapse ('/' :: p) = '/' :: p := collapse_of_noDoubleSlash h
    simpa [collapse] using h1
  | cons c a ih =>
    cases a with
    | nil =>
      have h1 : collapse ('/' :: p) = '/' :: p := collapse_of_noDoubleSlash h
      by_cases hc : c = '/'
      · simp [collapse_cons_cons, hc, h1, collapse]
      · simp [collapse_cons_cons, hc, h1, collapse]
    | cons d a =>
      simp only [List.cons_append, collapse_cons_cons] at ih ⊢
      rw [ih]
      split_ifs <;> simp

/-- Distinct names below one directory stay distinct. -/
theorem collapse_injective {a p q : CStr} (hp : NoDoubleSlash ('/' :: p))
    (hq : NoDoubleSlash ('/' :: q)) (h : collapse (a ++ '/' :: p) = collapse (a ++ '/' :: q)) :
    p = q := by
  rw [collapse_append hp, collapse_append hq] at h
  exact List.append_cancel_left h

theorem collapse_slash (b : CStr) : collapse ('/' :: b) = '/' :: (collapse ('/' :: b)).tail := by
  induction b with
  | nil => rfl
  | cons d ds ih =>
    by_cases hd : d = '/'
    · rw [collapse_cons_cons, if_pos ⟨rfl, hd⟩, hd]
      exact ih
    · rw [collapse_cons_cons, if_neg fun h => hd h.2]
      rfl

/-- What comes before a slash and what comes after it collapse apart. -/
theorem collapse_split (a b : CStr) :
    collapse (a ++ '/' :: b) = collapse (a ++ ['/']) ++ (collapse ('/' :: b)).tail := by
  induction a with
  | nil => exact collapse_slash b
  | cons c a ih =>
    cases a with
    | nil =>
      simp only [List.cons_append, List.nil_append, collapse_cons_cons]
      split
      · exact collapse_slash b
      · rw [collapse_slash b]
        rfl
    | cons d a =>
      simp only [List.cons_append, collapse_cons_cons] at ih ⊢
      rw [ih]
      split_ifs <;> simp

/-- Below one directory, names denote the same file exactly when they collapse alike. -/
theorem collapse_below_iff {a p q : CStr} :
    collapse (a ++ '/' :: p) = collapse (a ++ '/' :: q) ↔
      collapse ('/' :: p) = collapse ('/' :: q) := by
  rw [collapse_split a p, collapse_split a q, List.append_right_inj, collapse_slash p,
    collapse_slash q, List.tail_cons, List.tail_cons, List.cons.injEq, and_iff_right rfl]

/-- Slashes after a slash do not count. -/
theorem collapse_replicate (k : Nat) (b : CStr) :
    collapse ('/' :: (List.replicate k '/' ++ b)) = collapse ('/' :: b) := by
  induction k with
  | zero => rfl
  | succ k ih =>
    rw [List.replicate_succ, List.cons_append]
    exact (collapse_slashes [] _).trans ih

theorem collapse_ne_nil {c : Char} {cs : CStr} : collapse (c :: cs) ≠ [] := by
  induction cs generalizing c with
  | nil => simp [collapse]
  | cons d ds ih =>
    rw [collapse_cons_cons]
    split
    · exact ih
    · simp

/-- Cutting a name cuts the name it denotes. -/
theorem collapse_prefix (p x : CStr) : collapse p <+: collapse (p ++ x) := by
  induction p with
  | nil => exact List.nil_prefix
  | cons c p ih =>
    cases p with
    | nil =>
      cases x with
      | nil => exact List.prefix_rfl
      | cons d ds =>
        show [c] <+: collapse (c :: d :: ds)
        rw [collapse_cons_cons]
        split
        · rename_i h
          rw [h.2, h.1, collapse_slash]
          simp
        · simp
    | cons d p =>
      show collapse (c :: d :: p) <+: collapse (c :: d :: (p ++ x))
      rw [collapse_cons_cons, collapse_cons_cons]
      split
      · exact ih
      · exact List.cons_prefix_cons.mpr ⟨rfl, ih⟩

theorem collapse_slash_eq_iff (ds : CStr) : collapse ('/' :: ds) = ['/'] ↔ ∀ d ∈ ds, d = '/' := by
  induction ds with
  | nil => simp [collapse]
  | cons d ds ih =>
    rw [collapse_cons_cons]
    by_cases hd : d = '/'
    · rw [if_pos ⟨rfl, hd⟩, hd, ih]
      simp
    · rw [if_neg fun h => hd h.2]
      simp [hd, collapse_ne_nil]

/-- The end of a name counts for nothing exactly when it is slashes after a slash. -/
theorem collapse_append_eq_iff {kept : CStr} {c : Char} (lost : CStr)
    (hk : kept.getLast? = some c) :
    collapse (kept ++ lost) = collapse kept ↔ lost = [] ∨ c = '/' ∧ ∀ d ∈ lost, d = '/' := by
  induction kept with
  | nil => cases hk
  | cons a kept ih =>
    cases kept with
    | nil =>
      obtain rfl : a = c := by simpa using hk
      cases lost with
      | nil => simp
      | cons d ds =>
        show collapse (a :: d :: ds) = [a] ↔ _
        rw [collapse_cons_cons]
        by_cases h : a = '/' ∧ d = '/'
        · rw [if_pos h, h.2, h.1, collapse_slash_eq_iff]
          simp
        · rw [if_neg h]
          constructor
          · intro e
            exact absurd (List.cons.inj e).2 collapse_ne_nil
          · intro e
            rcases e with e | e
            · cases e
            · exact absurd ⟨e.1, e.2 d (by simp)⟩ h
    | cons b kept =>
      have ih := ih (by simpa [List.getLast?_cons_cons] using hk)
      show collapse (a :: b :: (kept ++ lost)) = collapse (a :: b :: kept) ↔ _
      rw [collapse_cons_cons, collapse_cons_cons, ← ih]
      split
      · rfl
      · rw [List.cons.injEq, and_iff_right rfl]
        rfl

/-- The lines of a text, without their newlines. -/
def textLines : CStr → List CStr
  | [] => []
  | c :: cs =>
    if c = '\n' then [] :: textLines cs
    else
      match textLines cs with
      | [] => [[c]]
      | line :: lines => (c :: line) :: lines

/-- Lines with their newlines. -/
def joinLines (lines : List CStr) : CStr := (lines.map (· ++ ['\n'])).flatten

section Lines

variable {line rest s : CStr} {size : Nat}

theorem textLines_line (h : '\n' ∉ line) (rest : CStr) :
    textLines (line ++ '\n' :: rest) = line :: textLines rest := by
  induction line with
  | nil => rfl
  | cons c cs ih =>
    rw [List.mem_cons, not_or] at h
    rw [List.cons_append, textLines, if_neg (Ne.symm h.1), ih h.2]

/-- The first line ends at the first newline, or with the text. -/
theorem textLines_head (h : s ≠ []) :
    (textLines s).head? = some (s.takeWhile (· ≠ '\n')) := by
  induction s with
  | nil => exact absurd rfl h
  | cons c cs ih =>
    rw [textLines]
    by_cases hc : c = '\n'
    · rw [if_pos hc, hc]
      rfl
    · rw [if_neg hc, List.takeWhile_cons_of_pos (by simpa using hc)]
      cases cs with
      | nil => rfl
      | cons d ds =>
        have hd := ih (by simp)
        cases hl : textLines (d :: ds) with
        | nil =>
          rw [hl] at hd
          cases hd
        | cons line lines =>
          rw [hl] at hd
          simp only [List.head?_cons, Option.some.injEq] at hd ⊢
          rw [hd]

theorem joinLines_cons (line : CStr) (lines : List CStr) :
    joinLines (line :: lines) = line ++ '\n' :: joinLines lines := by
  simp [joinLines]

theorem subset_joinLines {lines : List CStr} (h : line ∈ lines) : line ⊆ joinLines lines := by
  intro c hc
  apply List.mem_flatten.mpr
  exact ⟨line ++ ['\n'], List.mem_map_of_mem h, List.mem_append_left _ hc⟩

theorem textLines_join {lines : List CStr} (h : ∀ line ∈ lines, '\n' ∉ line) (rest : CStr) :
    textLines (joinLines lines ++ rest) = lines ++ textLines rest := by
  induction lines with
  | nil => rfl
  | cons line lines ih =>
    rw [joinLines_cons, List.append_assoc, List.cons_append,
      textLines_line (h line (List.mem_cons_self ..)),
      ih fun other ho => h other (List.mem_cons_of_mem line ho), List.cons_append]

/-- A line that fits is read with its newline. -/
theorem fgets_line (h : '\n' ∉ line) (hsize : line.length + 2 ≤ size) (rest : CStr) :
    fgets size (line ++ '\n' :: rest) = (line ++ ['\n'], rest) := by
  have htake : (line ++ '\n' :: rest).takeWhile (· ≠ '\n') = line := by
    rw [List.takeWhile_append_of_pos (by
      intro c hc
      simp only [ne_eq, decide_eq_true_eq]
      rintro rfl
      exact h hc)]
    simp
  have hmin : min (size - 1) (line.length + 1) = line.length + 1 := by omega
  unfold fgets
  simp only [htake, hmin]
  apply Prod.ext
  · simp [List.take_append]
  · simp [List.drop_append]

/-- Any other string is read short of its newline. -/
theorem fgets_short (hsize : 2 ≤ size) (hs : s ≠ [])
    (h : ¬∃ line rest, s = line ++ '\n' :: rest ∧ '\n' ∉ line ∧ line.length + 2 ≤ size) :
    (fgets size s).1 ≠ [] ∧ (fgets size s).1 <+: s.takeWhile (· ≠ '\n') := by
  have hpos : 0 < s.length := List.length_pos_iff.mpr hs
  have hne : (fgets size s).1 ≠ [] := by
    intro he
    have hlen := congrArg List.length he
    simp only [fgets, List.length_take, List.length_nil] at hlen
    omega
  refine ⟨hne, ?_⟩
  -- the first line, and what stands behind it
  have hsplit := List.takeWhile_append_dropWhile (p := fun c => decide (c ≠ '\n')) (l := s)
  have hline : '\n' ∉ s.takeWhile (· ≠ '\n') := by
    intro hm
    have hno := List.all_takeWhile (p := fun c => decide (c ≠ '\n')) (l := s)
    simpa using List.all_eq_true.mp hno _ hm
  unfold fgets
  cases hrest : s.dropWhile (· ≠ '\n') with
  | nil =>
    rw [hrest, List.append_nil] at hsplit
    rw [hsplit]
    exact List.take_prefix _ _
  | cons c rest =>
    have hc : c = '\n' := by
      have hhead := List.head?_dropWhile_not (fun c => decide (c ≠ '\n')) s
      rw [hrest] at hhead
      simpa using hhead
    rw [hrest, hc] at hsplit
    have hlong : size < (s.takeWhile (· ≠ '\n')).length + 2 := by
      by_contra hfit
      exact h ⟨_, rest, hsplit.symm, hline, by omega⟩
    have hmin : min (size - 1) ((s.takeWhile (· ≠ '\n')).length + 1) = size - 1 := by omega
    rw [hmin]
    apply List.prefix_of_prefix_length_le (List.take_prefix _ s)
    · exact List.takeWhile_prefix _
    · rw [List.length_take]
      omega

theorem fgets_length_lt (hsize : 2 ≤ size) (hs : s ≠ []) : (fgets size s).2.length < s.length := by
  have hpos : 0 < s.length := List.length_pos_iff.mpr hs
  unfold fgets
  simp only [List.length_drop]
  omega

/-- More fuel than the text is long makes no difference. -/
theorem fgetsAll_fuel (hsize : 2 ≤ size) (s : CStr) (n : Nat) (hn : s.length ≤ n) :
    fgetsAll size n s = fgetsAll size s.length s := by
  induction hlen : s.length using Nat.strongRecOn generalizing s n with
  | ind k ih =>
    cases s with
    | nil => cases n <;> cases k <;> rfl
    | cons c cs =>
      have hlt := fgets_length_lt hsize (List.cons_ne_nil c cs)
      obtain ⟨m, rfl⟩ : ∃ m, n = m + 1 := ⟨n - 1, by simp at hn; omega⟩
      obtain ⟨j, rfl⟩ : ∃ j, k = j + 1 := ⟨k - 1, by simp at hlen; omega⟩
      rw [fgetsAll, fgetsAll, ih _ (by omega) _ m (by omega) rfl,
        ih _ (by omega) _ j (by omega) rfl]

theorem fgetsAll_cons (hsize : 2 ≤ size) (hs : s ≠ []) : fgetsAll size s.length s =
    (fgets size s).1 :: fgetsAll size (fgets size s).2.length (fgets size s).2 := by
  cases s with
  | nil => exact absurd rfl hs
  | cons c cs =>
    have hlt := fgets_length_lt hsize hs
    rw [List.length_cons] at hlt ⊢
    rw [fgetsAll, fgetsAll_fuel hsize _ _ (by omega)]

/-- The text is read line by line as long as the lines fit. -/
theorem fgetsAll_join {lines : List CStr}
    (h : ∀ line ∈ lines, '\n' ∉ line ∧ line.length + 2 ≤ size) (rest : CStr) :
    fgetsAll size (joinLines lines ++ rest).length (joinLines lines ++ rest) =
      lines.map (· ++ ['\n']) ++ fgetsAll size rest.length rest := by
  induction lines with
  | nil => rfl
  | cons line lines ih =>
    obtain ⟨hline, hsize⟩ := h line (List.mem_cons_self ..)
    have hstream : joinLines (line :: lines) ++ rest =
        line ++ '\n' :: (joinLines lines ++ rest) := by
      rw [joinLines_cons, List.append_assoc, List.cons_append]
    rw [hstream, fgetsAll_cons (by omega) (by simp), fgets_line hline hsize,
      ih fun other ho => h other (List.mem_cons_of_mem line ho)]
    rfl

/-- A text is made of lines that fit, and of a rest that does not start with such a line. -/
theorem exists_lines (size : Nat) (s : CStr) : ∃ lines rest, s = joinLines lines ++ rest ∧
    (∀ line ∈ lines, '\n' ∉ line ∧ line.length + 2 ≤ size) ∧
    ¬∃ line rest', rest = line ++ '\n' :: rest' ∧ '\n' ∉ line ∧ line.length + 2 ≤ size := by
  induction hlen : s.length using Nat.strongRecOn generalizing s with
  | ind k ih =>
    by_cases hfirst : ∃ line rest, s = line ++ '\n' :: rest ∧ '\n' ∉ line ∧ line.length + 2 ≤ size
    · obtain ⟨line, s', rfl, hline⟩ := hfirst
      have hlt : s'.length < k := by
        simp only [List.length_append, List.length_cons] at hlen
        omega
      obtain ⟨lines, rest, rfl, hall, hrest⟩ := ih s'.length hlt s' rfl
      refine ⟨line :: lines, rest, ?_, ?_, hrest⟩
      · rw [joinLines_cons, List.append_assoc, List.cons_append]
      · intro other ho
        rcases List.mem_cons.mp ho with rfl | h
        · exact hline
        · exact hall other h
    · refine ⟨[], s, rfl, ?_, hfirst⟩
      intro other ho
      cases ho

end Lines

end CText
