import DropletFs.Settings.Independence

/-! Which lines of the configuration file reach `parse_line`. Every string that `fgets` has read
loses its last byte, so only a line that was read to its newline arrives whole. -/

namespace DropletFs

open CText

/-- The strings that the loop of `parse_file` passes to `parse_line`. -/
def passedLines (u : Startup) : List CStr → Parser → List CStr
  | [], _ => []
  | chunk :: chunks, p =>
    (p.readLine chunk).token 0 ::
      match parseLine u (p.readLine chunk) with
      | .ok (true, q) => passedLines u chunks q
      | _ => []

/-- What `fgets` reads from the file. -/
def chunksRead (stream : CStr) : List CStr := fgetsAll tmpstrMax stream.length stream

/-- `parse_line` takes every string of the list. -/
def AllTaken (u : Startup) (strings : List CStr) (p : Parser) : Prop :=
  ∃ q, parseLines u strings p = .ok (true, q)

/-- The strings passed are the lines of the file, up to the first one that `parse_line` does not
take. -/
def LinesPassed (u : Startup) (p : Parser) (stream : CStr) : Prop :=
  passedLines u (chunksRead stream) p <+: textLines stream ∧
    (AllTaken u (chunksRead stream) p → passedLines u (chunksRead stream) p = textLines stream)

/-- The file starts with lines that fit in the buffer with their newlines, and ends there or has
one among them that `parse_line` does not take. -/
def LinesFit (u : Startup) (p : Parser) (stream : CStr) : Prop :=
  ∃ lines rest, stream = joinLines lines ++ rest ∧
    (∀ line ∈ lines, '\n' ∉ line ∧ line.length + 2 ≤ tmpstrMax) ∧
    (rest = [] ∨ ¬AllTaken u (lines.map (· ++ ['\n'])) p)

/-- The state in which `parse_file` enters the loop. -/
def Parser.start (conf : Settings) : Parser :=
  ⟨conf, List.replicate tmpstrMax nul, tmpstrNb - 1⟩

section Loop

variable {u : Startup} {p q : Parser} {line chunk rest stream : CStr}
  {lines strings more : List CStr}

/-- What is passed for a string that has been read: all of it but the last byte. -/
theorem readLine_cut (p : Parser) (chunk : CStr) :
    (p.readLine chunk).token 0 = (cstr chunk).dropLast := by
  have hread : (chunk ++ nul :: p.buf.drop (chunk.length + 1)).takeWhile (· ≠ nul) = cstr chunk :=
    cstr_stop _ _
  unfold Parser.readLine Parser.token
  simp only [hread, List.drop_zero]
  split_ifs with hlen
  · rw [hread, List.eq_nil_of_length_eq_zero hlen]
    rfl
  · have hne : cstr chunk ≠ [] := fun he => hlen (by rw [he]; rfl)
    have hbuf := List.takeWhile_append_dropWhile (p := (· ≠ nul))
      (l := chunk ++ nul :: p.buf.drop (chunk.length + 1))
    have hinit : nul ∉ (cstr chunk).dropLast := fun hm =>
      nul_notMem_cstr chunk (List.dropLast_subset _ hm)
    rw [hread] at hbuf
    have hsplit := List.dropLast_append_getLast hne
    rw [← hbuf]
    conv_lhs => rw [← hsplit]
    rw [List.append_assoc, List.singleton_append, List.length_append, List.length_singleton,
      Nat.add_sub_cancel, set_at_length]
    exact cstr_cut hinit _

theorem readLine_token (hnul : nul ∉ chunk) : (p.readLine chunk).token 0 = chunk.dropLast := by
  rw [readLine_cut, cstr_of_notMem hnul]

theorem readLine_line (hnul : nul ∉ line) : (p.readLine (line ++ ['\n'])).token 0 = line := by
  have hends : nul ∉ line ++ ['\n'] := by
    rw [List.mem_append, not_or]
    exact ⟨hnul, by decide⟩
  rw [readLine_token hends, List.dropLast_concat]

theorem allTaken_cons : AllTaken u (chunk :: strings) p ↔
    ∃ q, parseLine u (p.readLine chunk) = .ok (true, q) ∧ AllTaken u strings q := by
  unfold AllTaken
  rw [parseLines]
  cases hres : parseLine u (p.readLine chunk) with
  | error e => simp [bind, Except.bind]
  | ok r =>
    obtain ⟨ok, q⟩ := r
    cases ok <;> simp [bind, Except.bind]

/-- A string that is not taken ends the loop. -/
theorem passedLines_append_of_not (h : ¬AllTaken u strings p) (more : List CStr) :
    passedLines u (strings ++ more) p = passedLines u strings p := by
  induction strings generalizing p with
  | nil => exact absurd ⟨p, rfl⟩ h
  | cons chunk strings ih =>
    rw [List.cons_append, passedLines, passedLines]
    split
    · next q hq =>
      rw [ih fun ht => h (allTaken_cons.mpr ⟨q, hq, ht⟩)]
    · rfl

theorem allTaken_append : AllTaken u (strings ++ more) p ↔
    ∃ q, parseLines u strings p = .ok (true, q) ∧ AllTaken u more q := by
  induction strings generalizing p with
  | nil => simp [parseLines]
  | cons chunk strings ih =>
    rw [List.cons_append, allTaken_cons]
    constructor
    · intro h
      obtain ⟨r, hr, ht⟩ := h
      obtain ⟨q, hq, hm⟩ := ih.mp ht
      refine ⟨q, ?_, hm⟩
      rw [parseLines, hr]
      exact hq
    · intro h
      obtain ⟨q, hq, hm⟩ := h
      rw [parseLines] at hq
      obtain ⟨⟨ok, r⟩, hr, hq⟩ := Except.bind_ok.mp hq
      cases ok with
      | false => cases hq
      | true => exact ⟨r, hr, ih.mpr ⟨q, hq, hm⟩⟩

theorem passedLines_append (h : parseLines u strings p = .ok (true, q)) (more : List CStr) :
    passedLines u (strings ++ more) p = passedLines u strings p ++ passedLines u more q := by
  induction strings generalizing p with
  | nil =>
    simp only [parseLines, Except.ok.injEq, Prod.mk.injEq, true_and] at h
    rw [h]
    rfl
  | cons chunk strings ih =>
    rw [parseLines] at h
    obtain ⟨⟨ok, r⟩, hr, hq⟩ := Except.bind_ok.mp h
    cases ok with
    | false => cases hq
    | true =>
      rw [List.cons_append, passedLines, passedLines, hr]
      dsimp only
      rw [ih hq, List.cons_append]

/-- Lines that were read to their newlines arrive whole. -/
theorem passedLines_lines (hnul : ∀ line ∈ lines, nul ∉ line) :
    passedLines u (lines.map (· ++ ['\n'])) p <+: lines ∧
      (AllTaken u (lines.map (· ++ ['\n'])) p →
        passedLines u (lines.map (· ++ ['\n'])) p = lines) := by
  induction lines generalizing p with
  | nil => exact ⟨List.prefix_rfl, fun _ => rfl⟩
  | cons line lines ih =>
    rw [List.map_cons, passedLines, readLine_line (hnul line (List.mem_cons_self ..)),
      allTaken_cons]
    have hrest := fun q => ih (p := q) fun other ho => hnul other (List.mem_cons_of_mem line ho)
    constructor
    · split
      · next q _ => exact List.cons_prefix_cons.mpr ⟨rfl, (hrest q).1⟩
      · exact List.cons_prefix_cons.mpr ⟨rfl, List.nil_prefix⟩
    · intro ⟨q, hq, ht⟩
      rw [hq]
      dsimp only
      rw [(hrest q).2 ht]

/-- The loop is the one of `parse_file`. -/
theorem parseFile_chunksRead {conf : Settings} {path : Path} (h : u.fopen path = some stream) :
    parseFile u conf path = (parseLines u (chunksRead stream) (.start conf)).map
      fun res => (res.1, res.2.conf) := by
  rw [parseFile, h]
  dsimp only
  rw [chunksRead, Parser.start]
  cases parseLines u (fgetsAll tmpstrMax stream.length stream)
    ⟨conf, List.replicate tmpstrMax nul, tmpstrNb - 1⟩ with
  | error e => rfl
  | ok res => rfl

end Loop

/-- The loop of `parse_file` passes the lines of the file exactly when those that it reaches fit in
the buffer and end with a newline. -/
theorem lines_passed_iff (u : Startup) (p : Parser) (stream : CStr) (hnul : nul ∉ stream) :
    LinesPassed u p stream ↔ LinesFit u p stream := by
  constructor
  · intro ⟨hstart, _⟩
    obtain ⟨lines, rest, rfl, hfit, hrest⟩ := exists_lines tmpstrMax stream
    refine ⟨lines, rest, rfl, hfit, ?_⟩
    by_cases hne : rest = []
    · exact .inl hne
    refine .inr fun ⟨q, hq⟩ => ?_
    -- the next string read is short of its newline, and loses a byte of the line
    obtain ⟨hchunk, hshort⟩ := fgets_short (by decide) hne hrest
    have hnul' : nul ∉ (fgets tmpstrMax rest).1 := by
      intro hm
      have hin : nul ∈ rest := (List.takeWhile_prefix _).subset (hshort.subset hm)
      exact hnul (List.mem_append_right _ hin)
    rw [chunksRead, fgetsAll_join hfit, textLines_join fun line hl => (hfit line hl).1,
      passedLines_append hq] at hstart
    have hlines : ∀ line ∈ lines, nul ∉ line :=
      fun line hl hm => hnul (List.mem_append_left rest (subset_joinLines hl hm))
    rw [(passedLines_lines hlines).2 ⟨q, hq⟩, List.prefix_append_right_inj,
      fgetsAll_cons (by decide) hne, passedLines, readLine_token hnul'] at hstart
    have hhead := textLines_head hne
    cases htext : textLines rest with
    | nil =>
      rw [htext] at hhead
      cases hhead
    | cons line more =>
      rw [htext] at hstart hhead
      have hsame := (List.cons_prefix_cons.mp hstart).1
      rw [List.head?_cons, Option.some.injEq] at hhead
      have hlen := hshort.length_le
      rw [← hhead, ← hsame, List.length_dropLast] at hlen
      have hpos := List.length_pos_iff.mpr hchunk
      omega
  · intro ⟨lines, rest, hstream, hfit, hend⟩
    subst hstream
    have hlines : ∀ line ∈ lines, nul ∉ line :=
      fun line hl hm => hnul (List.mem_append_left rest (subset_joinLines hl hm))
    obtain ⟨hstart, hall⟩ := passedLines_lines (u := u) (p := p) hlines
    rw [LinesPassed, chunksRead, fgetsAll_join hfit, textLines_join fun line hl => (hfit line hl).1]
    rcases hend with rfl | hnot
    · have hempty : fgetsAll tmpstrMax ([] : CStr).length [] = [] := rfl
      rw [hempty, List.append_nil]
      have hnil : textLines [] = [] := rfl
      rw [hnil, List.append_nil]
      exact ⟨hstart, hall⟩
    · rw [passedLines_append_of_not hnot]
      refine ⟨hstart.trans (List.prefix_append _ _), fun ht => ?_⟩
      obtain ⟨q, hq, _⟩ := allTaken_append.mp ht
      exact absurd ⟨q, hq⟩ hnot

theorem lines_passed_sample :
    LinesPassed Startup.bare (.start (confCtorDefault Startup.bare none))
      (ConfKey.maxRetry.text ++ ['=', '9', '\n']) := by
  apply (lines_passed_iff Startup.bare (.start (confCtorDefault Startup.bare none))
    (ConfKey.maxRetry.text ++ ['=', '9', '\n']) (by decide)).mpr
  refine ⟨[ConfKey.maxRetry.text ++ ['=', '9']], [], rfl, ?_, .inl rfl⟩
  intro line hl
  rw [List.mem_singleton.mp hl]
  decide

/-- A last line without a newline loses its last digit. -/
theorem last_line_cut :
    passedLines Startup.bare (chunksRead (ConfKey.maxRetry.text ++ ['=', '1', '0']))
      (.start (confCtorDefault Startup.bare none)) = [ConfKey.maxRetry.text ++ ['=', '1']] ∧
    ¬LinesPassed Startup.bare (.start (confCtorDefault Startup.bare none))
      (ConfKey.maxRetry.text ++ ['=', '1', '0']) := by
  have hrun : passedLines Startup.bare (chunksRead (ConfKey.maxRetry.text ++ ['=', '1', '0']))
      (.start (confCtorDefault Startup.bare none)) = [ConfKey.maxRetry.text ++ ['=', '1']] := rfl
  refine ⟨hrun, ?_⟩
  intro ⟨hstart, _⟩
  rw [hrun] at hstart
  exact absurd hstart (by decide)

end DropletFs
