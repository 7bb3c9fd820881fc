import DropletFs.Settings.Lines
import DropletFs.Settings.Order

/-! What a configuration file assigns, line by line: the key that starts a line, the text behind
its `=`, and the lines where reading ends. -/

namespace DropletFs

open CText

/-- The lines as they are read: each string loses its last byte, a newline or not. -/
def readLines (stream : CStr) : List CStr :=
  (chunksRead stream).map fun chunk => (cstr chunk).dropLast

/-- What an entry assigns when it is tried for some keys, and whether reading goes on. It ends at an
entry of a key without `=`, and at a level without a text. -/
def entryTakes (keys : List ConfKey) (entry : CStr) : List Assignment × Bool :=
  match keys.find? (Names entry ·) with
  | none => ([], true)
  | some key =>
    match assignedText entry with
    | none => ([], false)
    | some text => ([(key, text)], (key, text) ≠ noLevel)

/-- What stands behind the blanks of a line when a path has been printed over it. -/
def printedOver (line path : CStr) : CStr :=
  let blanks := (line.takeWhile isSpace).length
  if blanks ≤ path.length then cstr (path.drop blanks) else line.dropWhile isSpace

/-- What the keys behind `cache_dir` assign once its path has been printed, which comes to the slot
of the line when no string of the ring is left. -/
def lateTakes (left : Nat) (line path : CStr) : List Assignment × Bool :=
  if left = 0 then entryTakes lateKeys (printedOver line path) else ([], true)

/-- What a line assigns; and where reading goes on, the strings left in the ring and the cache
directory. It does not go on at a line of `cache_dir` whose directory cannot be made. -/
def oneTakes (u : Startup) (left : Nat) (dir line : CStr) : List Assignment × Option (Nat × CStr) :=
  let entry := line.dropWhile isSpace
  if Names entry .cacheDir then
    match assignedText entry with
    | none => ([], none)
    | some text =>
      let chosen := if text = [] then dir else text
      let path := tmpstr (chosen ++ '/' :: u.curBucket)
      if u.mkdir path then
        let late := lateTakes left line path
        ((.cacheDir, text) :: late.1,
          if late.2 then some (leftNext left, u.fullPath chosen) else none)
      else ([(.cacheDir, text)], none)
  else
    let now := entryTakes confKeys entry
    (now.1, if now.2 then some (left, dir) else none)

/-- What the lines assign, to the one where reading ends. -/
def linesTake (u : Startup) (left : Nat) (dir : CStr) : List CStr → List Assignment
  | [] => []
  | line :: lines =>
    let now := oneTakes u left dir line
    now.1 ++
      match now.2 with
      | some (left, dir) => linesTake u left dir lines
      | none => []

/-- The parser stands where reading goes on. -/
def Continues (next : Option (Nat × CStr)) (res : Except Fault (Bool × Parser)) : Prop :=
  ∀ left dir, next = some (left, dir) ↔
    ∃ q, res = .ok (true, q) ∧ q.left = left ∧ q.conf.cacheDir = dir

theorem Continues.stop {res : Except Fault (Bool × Parser)} (h : ∀ q, res ≠ .ok (true, q)) :
    Continues none res := by
  intro left dir
  constructor
  · intro hn
    cases hn
  · intro hq
    obtain ⟨q, hres, _⟩ := hq
    exact (h q hres).elim

theorem Continues.go {q : Parser} {left : Nat} {dir : CStr} (hl : q.left = left)
    (hd : q.conf.cacheDir = dir) : Continues (some (left, dir)) (.ok (true, q)) := by
  intro left' dir'
  constructor
  · intro h
    obtain ⟨rfl, rfl⟩ := Prod.mk.inj (Option.some.inj h)
    exact ⟨q, rfl, hl, hd⟩
  · intro h
    obtain ⟨r, hr, hl', hd'⟩ := h
    obtain ⟨-, rfl⟩ := Prod.mk.inj (Except.ok.inj hr)
    rw [← hl, ← hd, hl', hd']

section Entry

variable {u : Startup} {p : Parser} {line : Nat} {keys : List ConfKey} {key : ConfKey}
  {entry text : CStr}

theorem assign_cacheDir (conf : Settings) (e : Assignment) : (conf.assign u e).cacheDir =
    if e.1 = .cacheDir then u.fullPath (if e.2 = [] then conf.cacheDir else e.2)
    else conf.cacheDir := by
  obtain ⟨key, text⟩ := e
  cases key with
  | exclusionPattern =>
    by_cases htext : text = []
    · simp [Settings.assign, htext]
    · simp [Settings.assign, htext]
  | _ => rfl

theorem entryTakes_none (h : ∀ key ∈ keys, ¬Names entry key) :
    entryTakes keys entry = ([], true) := by
  have hfind : keys.find? (Names entry ·) = none := by
    apply List.find?_eq_none.mpr
    intro key hk
    simpa using h key hk
  rw [entryTakes, hfind]

theorem entryTakes_one (hmem : key ∈ keys) (hn : Names entry key) :
    entryTakes keys entry = match assignedText entry with
      | none => ([], false)
      | some text => ([(key, text)], (key, text) ≠ noLevel) := by
  cases hfind : keys.find? (Names entry ·) with
  | none =>
    have hno := List.find?_eq_none.mp hfind key hmem
    simp [hn] at hno
  | some other =>
    have hother : Names entry other := by simpa using List.find?_some hfind
    obtain rfl := hother.unique hn
    rw [entryTakes, hfind]

theorem tokenTakes_skip {before after : List ConfKey}
    (h : ∀ key ∈ before, ¬Names (p.token line) key) :
    tokenTakes u line (before ++ after) p = tokenTakes u line after p := by
  induction before with
  | nil => rfl
  | cons key before ih =>
    rw [List.cons_append, tokenTakes, if_neg (h key (List.mem_cons_self ..))]
    exact ih fun other ho => h other (List.mem_cons_of_mem key ho)

theorem tokenTakes_none (h : ∀ key ∈ keys, ¬Names (p.token line) key) :
    tokenTakes u line keys p = [] := by
  have hskip : tokenTakes u line (keys ++ []) p = tokenTakes u line [] p := tokenTakes_skip h
  rwa [List.append_nil] at hskip

/-- Without a directory among them, the keys take what stands in the token. -/
theorem parseFields_taken (hnd : keys.Nodup)
    (hdir : .cacheDir ∈ keys → ¬Names (p.token line) .cacheDir) :
    tokenTakes u line keys p = (entryTakes keys (p.token line)).1 ∧
    Continues (if (entryTakes keys (p.token line)).2 then some (p.left, p.conf.cacheDir) else none)
      (parseFields u line keys p) := by
  by_cases hany : ∃ key ∈ keys, Names (p.token line) key
  · obtain ⟨key, hmem, hn⟩ := hany
    have hkey : key ≠ .cacheDir := by
      rintro rfl
      exact hdir hmem hn
    rw [parseFields_one hmem hnd hkey hn, entryTakes_one hmem hn]
    obtain ⟨before, after, rfl⟩ := List.append_of_mem hmem
    have hother : ∀ other ∈ before ++ after, ¬Names (p.token line) other := by
      intro other ho hno
      obtain rfl := hno.unique hn
      exact (List.nodup_cons.mp (List.nodup_middle.mp hnd)).1 ho
    rw [tokenTakes_skip fun other ho => hother other (List.mem_append_left after ho), tokenTakes,
      if_pos hn]
    cases htext : assignedText (p.token line) with
    | none =>
      refine ⟨rfl, .stop fun q hq => ?_⟩
      rw [Parser.take] at hq
      cases hq
    | some text =>
      have hgo : Assignment.goesOn u p.conf (key, text) = true := if_neg hkey
      have hrest : tokenTakes u line after (p.assign u (key, text)) = [] := by
        apply tokenTakes_none
        intro other ho
        rw [Parser.assign_token hkey]
        exact hother other (List.mem_append_right before ho)
      dsimp only
      rw [hgo, hrest, ite_self, Parser.take]
      by_cases hno : (key, text) = noLevel
      · rw [if_pos hno, if_neg (by simp [hno])]
        exact ⟨rfl, .stop fun q hq => by cases hq⟩
      · rw [if_neg hno, if_pos (by simp [hno]), hgo]
        refine ⟨rfl, .go ?_ ?_⟩
        · rw [Parser.assign]
          dsimp only
          rw [if_neg hkey]
        · rw [assign_conf, assign_cacheDir, if_neg hkey]
  · have hnone : ∀ key ∈ keys, ¬Names (p.token line) key := fun key hk hn => hany ⟨key, hk, hn⟩
    rw [parseFields_none hnone, tokenTakes_none hnone, entryTakes_none hnone]
    exact ⟨rfl, .go rfl rfl⟩

end Entry

section Line

variable {u : Startup} {p : Parser}

theorem takeWhile_drop {α : Type} {f : α → Bool} {n : Nat} {l : List α}
    (h : n ≤ (l.takeWhile f).length) : (l.drop n).takeWhile f = (l.takeWhile f).drop n := by
  induction n generalizing l with
  | zero => rfl
  | succ n ih =>
    cases l with
    | nil => rfl
    | cons a l =>
      by_cases ha : f a = true
      · rw [List.takeWhile_cons_of_pos ha, List.length_cons] at h
        rw [List.takeWhile_cons_of_pos ha, List.drop_succ_cons, List.drop_succ_cons]
        exact ih (Nat.le_of_succ_le_succ h)
      · rw [List.takeWhile_cons_of_neg ha] at h
        cases h

/-- `parse_line` hands on the line from its first character that is no blank. -/
theorem lineStart_token (p : Parser) : p.token p.lineStart = (p.token 0).dropWhile isSpace := by
  have hle : p.lineStart ≤ (p.buf.takeWhile (· ≠ nul)).length :=
    (List.takeWhile_prefix _).length_le
  have hdrop : (p.token 0).drop p.lineStart = (p.token 0).dropWhile isSpace := by
    conv_lhs => rw [← List.takeWhile_append_dropWhile (p := isSpace) (l := p.token 0)]
    exact List.drop_left
  rw [← hdrop]
  exact takeWhile_drop hle

/-- A string printed over the buffer leaves what is behind its end. -/
theorem drop_printed {path buf : List Char} {n : Nat} (h : path.length < n) :
    (path ++ nul :: buf.drop (path.length + 1)).drop n = buf.drop n := by
  obtain ⟨k, rfl⟩ : ∃ k, n = path.length + (k + 1) := ⟨n - path.length - 1, by omega⟩
  rw [List.drop_length_add_append, List.drop_succ_cons, List.drop_drop]
  congr 1
  omega

/-- What the keys behind `cache_dir` are tried on. -/
theorem assign_late_token (p : Parser) (text : CStr) :
    (p.assign u (.cacheDir, text)).token p.lineStart =
      if p.left = 0 then printedOver (p.token 0)
        (tmpstr ((if text = [] then p.conf.cacheDir else text) ++ '/' :: u.curBucket))
      else p.token p.lineStart := by
  obtain ⟨conf, buf, left⟩ := p
  cases left with
  | succ n => rfl
  | zero =>
    rw [if_pos rfl]
    simp only [Parser.assign, if_true, Parser.tmpstrPrintf]
    generalize tmpstr ((if text = [] then conf.cacheDir else text) ++ '/' :: u.curBucket) = path
    generalize hp : (⟨conf, buf, 0⟩ : Parser) = p
    have hbuf : buf = p.buf := by rw [← hp]
    change cstr ((path ++ nul :: buf.drop (path.length + 1)).drop p.lineStart) =
      if p.lineStart ≤ path.length then cstr (path.drop p.lineStart)
      else (p.token 0).dropWhile isSpace
    split_ifs with hle
    · rw [List.drop_append_of_le_length hle]
      exact cstr_stop _ _
    · rw [drop_printed (Nat.lt_of_not_le hle), hbuf]
      exact lineStart_token p

theorem assign_left (p : Parser) (text : CStr) :
    (p.assign u (.cacheDir, text)).left = leftNext p.left := by
  obtain ⟨conf, buf, left⟩ := p
  cases left <;> rfl

/-- No key starts a note. -/
theorem not_names_note {entry : CStr} (h : entry.head? = some '#') (key : ConfKey) :
    ¬Names entry key := by
  cases entry with
  | nil => cases h
  | cons c cs =>
    obtain rfl := Option.some.inj h
    cases key <;> simp [Names, startsWithNoCase, ConfKey.text]

theorem oneTakes_unnamed {left : Nat} {dir line : CStr}
    (h : ∀ key, ¬Names (line.dropWhile isSpace) key) :
    oneTakes u left dir line = ([], some (left, dir)) := by
  unfold oneTakes
  dsimp only
  rw [if_neg (h .cacheDir), entryTakes_none fun key _ => h key]
  rfl

/-- The directory takes its text, and then the keys behind it what is in the buffer. -/
theorem tokenTakes_cacheDir {line : Nat} (hn : Names (p.token line) .cacheDir) :
    tokenTakes u line confKeys p = match assignedText (p.token line) with
      | none => []
      | some text => (.cacheDir, text) ::
          if Assignment.goesOn u p.conf (.cacheDir, text)
          then tokenTakes u line lateKeys (p.assign u (.cacheDir, text)) else [] := by
  have hkeys : confKeys = [.compressionMethod, .zlibLevel, .maxRetry, .gcLoopDelay,
      .gcAgeThreshold, .scLoopDelay, .scAgeThreshold] ++ .cacheDir :: lateKeys := rfl
  rw [hkeys, tokenTakes_skip, tokenTakes, if_pos hn]
  · cases assignedText (p.token line) with
    | none => rfl
    | some text =>
      have hlevel : (ConfKey.cacheDir, text) ≠ noLevel := by simp [noLevel]
      dsimp only
      split_ifs with hboth hgo hgo
      · rfl
      · exact (hgo hboth.2).elim
      · exact (hboth ⟨hlevel, hgo⟩).elim
      · rfl
  · intro other ho hno
    obtain rfl := hno.unique hn
    revert ho
    decide

/-- The line of a directory. -/
theorem parseToken_dirTaken (hn : Names (p.token p.lineStart) .cacheDir) :
    tokenTakes u p.lineStart confKeys p = (oneTakes u p.left p.conf.cacheDir (p.token 0)).1 ∧
    Continues (oneTakes u p.left p.conf.cacheDir (p.token 0)).2 (parseToken u p p.lineStart) := by
  have hdir : Names ((p.token 0).dropWhile isSpace) .cacheDir := by rwa [← lineStart_token]
  rw [tokenTakes_cacheDir hn, parseToken_cacheDir hn]
  unfold oneTakes
  dsimp only
  rw [if_pos hdir, ← lineStart_token]
  cases htext : assignedText (p.token p.lineStart) with
  | none => exact ⟨rfl, .stop fun q hq => by cases hq⟩
  | some text =>
    have hlevel : (ConfKey.cacheDir, text) ≠ noLevel := by simp [noLevel]
    have hgoes : Assignment.goesOn u p.conf (.cacheDir, text) =
      u.mkdir (tmpstr ((if text = [] then p.conf.cacheDir else text) ++ '/' :: u.curBucket)) := rfl
    rw [Parser.take, if_neg hlevel]
    dsimp only [bind, Except.bind]
    rw [← hgoes]
    cases hgo : Assignment.goesOn u p.conf (.cacheDir, text) with
    | false => exact ⟨rfl, .stop fun q hq => by cases hq⟩
    | true =>
      have hnone : .cacheDir ∈ lateKeys → ¬Names ((p.assign u (.cacheDir, text)).token p.lineStart)
          .cacheDir := fun hm => absurd hm (by decide)
      obtain ⟨hlate, hnext⟩ := parseFields_taken (u := u) (by decide) hnone
      have hprinted : entryTakes lateKeys ((p.assign u (.cacheDir, text)).token p.lineStart) =
          lateTakes p.left (p.token 0)
            (tmpstr ((if text = [] then p.conf.cacheDir else text) ++ '/' :: u.curBucket)) := by
        rw [assign_late_token, lateTakes]
        by_cases hleft : p.left = 0
        · rw [if_pos hleft, if_pos hleft]
        · -- the line itself starts with another key
          rw [if_neg hleft, if_neg hleft]
          apply entryTakes_none
          intro other ho hno
          obtain rfl := hno.unique hn
          exact absurd ho (by decide)
      rw [hprinted, assign_left, assign_conf, assign_cacheDir, if_pos rfl] at hnext
      rw [if_pos rfl, if_pos rfl, if_pos rfl, hlate, hprinted]
      exact ⟨rfl, hnext⟩

/-- A line takes what stands on it. -/
theorem parseLine_taken (u : Startup) (p : Parser) :
    lineTakes u p = (oneTakes u p.left p.conf.cacheDir (p.token 0)).1 ∧
    Continues (oneTakes u p.left p.conf.cacheDir (p.token 0)).2 (parseLine u p) := by
  have hstart := lineStart_token p
  unfold lineTakes parseLine
  by_cases hempty : p.token 0 = []
  · have hno : ∀ key, ¬Names ((p.token 0).dropWhile isSpace) key := by
      intro key
      rw [hempty]
      cases key <;> decide
    rw [if_pos hempty, if_pos hempty, oneTakes_unnamed hno]
    exact ⟨rfl, .go rfl rfl⟩
  rw [if_neg hempty, if_neg hempty]
  dsimp only
  rw [show ((p.token 0).takeWhile isSpace).length = p.lineStart from rfl]
  by_cases hnote : (p.token p.lineStart).head? = some '#'
  · have hno : ∀ key, ¬Names ((p.token 0).dropWhile isSpace) key :=
      not_names_note (by rwa [← hstart])
    rw [if_pos hnote, if_pos hnote, oneTakes_unnamed hno]
    exact ⟨rfl, .go rfl rfl⟩
  rw [if_neg hnote, if_neg hnote]
  by_cases hn : Names (p.token p.lineStart) .cacheDir
  · exact parseToken_dirTaken hn
  · unfold oneTakes
    dsimp only
    rw [← hstart, if_neg hn]
    exact parseFields_taken confKeys_nodup fun _ => hn

/-- The parser takes from a file what its lines assign. -/
theorem fileTakes_eq (u : Startup) (chunks : List CStr) (p : Parser) :
    fileTakes u chunks p = linesTake u p.left p.conf.cacheDir
      (chunks.map fun chunk => (cstr chunk).dropLast) := by
  induction chunks generalizing p with
  | nil => rfl
  | cons chunk chunks ih =>
    obtain ⟨htakes, hnext⟩ := parseLine_taken u (p.readLine chunk)
    rw [readLine_cut] at htakes hnext
    rw [fileTakes, List.map_cons, linesTake, htakes]
    change Continues (oneTakes u p.left p.conf.cacheDir (cstr chunk).dropLast).2 _ at hnext
    change (oneTakes u p.left p.conf.cacheDir (cstr chunk).dropLast).1 ++ _ = _
    congr 1
    cases hgo : (oneTakes u p.left p.conf.cacheDir (cstr chunk).dropLast).2 with
    | some next =>
      obtain ⟨left, dir⟩ := next
      obtain ⟨q, hq, rfl, rfl⟩ := (hnext left dir).mp hgo
      rw [hq]
      exact ih q
    | none =>
      split
      · next q hq =>
        have hsome := (hnext q.left q.conf.cacheDir).mpr ⟨q, hq, rfl, rfl⟩
        rw [hgo] at hsome
        cases hsome
      · rfl

end Line

end DropletFs
