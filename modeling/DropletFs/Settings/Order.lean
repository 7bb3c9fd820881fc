import DropletFs.Settings.Independence

/-! Lines of different keys in any order. Each line sets the field of its key and no other, unless
the string that the cache directory takes from the ring is the line itself: then the names after
`cache_dir` are tried on that string. -/

namespace DropletFs

open CText

/-- The line has an `=` with more than blanks behind it. -/
def Assigns (line : CStr) : Prop := ∃ text, assignedText line = some text ∧ text ≠ []

/-- The line in the buffer. -/
def Parser.hold (p : Parser) (line : CStr) : Parser :=
  { p with buf := line ++ nul :: p.buf.drop (line.length + 1) }

/-- `parse_token` on line after line. -/
def parseTokens (u : Startup) : List CStr → Parser → Except Fault Parser
  | [], p => .ok p
  | line :: lines, p => do
    let res ← parseToken u (p.hold line) 0
    parseTokens u lines res.2

/-- Lines with the same key keep their order. -/
def SameOrder (lines lines' : List CStr) : Prop :=
  lines.Perm lines' ∧
    ∀ key, lines.filter (Names · key) = lines'.filter (Names · key)

/-- The lines do not disturb each other: whatever the configuration, in any order that is allowed,
each changes at most the field it names, and all orders end in the same configuration. -/
structure Independent (u : Startup) (left : Nat) (lines : List CStr) : Prop where
  steps : ∀ conf buf lines', SameOrder lines lines' → ∀ before line after q,
    lines' = before ++ line :: after → parseTokens u before ⟨conf, buf, left⟩ = .ok q →
    ∃ ok r, parseToken u (q.hold line) 0 = .ok (ok, r) ∧ q.conf.SameBut (Names line) r.conf
  order : ∀ conf buf lines', SameOrder lines lines' → ∃ q q',
    parseTokens u lines ⟨conf, buf, left⟩ = .ok q ∧
    parseTokens u lines' ⟨conf, buf, left⟩ = .ok q' ∧ q.conf = q'.conf

/-- What `conf_set_full_cache_dir` prints for the directory of the line. -/
def printedDir (u : Startup) (line : CStr) : CStr :=
  cstr (tmpstr ((assignedText line).getD [] ++ '/' :: u.curBucket))

/-- Read as a line, that text sets another field. -/
def Disturbs (u : Startup) (line : CStr) : Prop :=
  ∃ key ∈ lateKeys, Names (printedDir u line) key ∧
    ∃ text, assignedText (printedDir u line) = some text ∧
      (text ≠ [] ∨ key = .cacheMaxSize ∨ key = .logLevel)

/-- How many strings are left before the ring comes round, once the directory has taken one. -/
def leftNext : Nat → Nat
  | 0 => tmpstrNb - 1
  | n + 1 => n

/-- No directory whose string comes to the slot of the line sets another field. -/
def LinesUndisturbed (u : Startup) : Nat → List CStr → Prop
  | _, [] => True
  | left, line :: lines =>
    if Names line .cacheDir then
      (left = 0 → ¬Disturbs u line) ∧ LinesUndisturbed u (leftNext left) lines
    else LinesUndisturbed u left lines

/-- The field a line sets. -/
def Settings.applyLine (u : Startup) (conf : Settings) (line : CStr) : Settings :=
  match confKeys.find? (Names line ·) with
  | none => conf
  | some key => conf.assign u (key, (assignedText line).getD [])

section Line

variable {u : Startup} {conf conf' : Settings} {line : CStr} {key : ConfKey}

theorem Settings.applyLine_named (hn : Names line key) :
    conf.applyLine u line = conf.assign u (key, (assignedText line).getD []) := by
  cases hfind : confKeys.find? (Names line ·) with
  | none =>
    have hno := List.find?_eq_none.mp hfind key (mem_confKeys key)
    simp [hn] at hno
  | some other =>
    have hother : Names line other := by simpa using List.find?_some hfind
    obtain rfl := hother.unique hn
    rw [Settings.applyLine, hfind]

theorem Settings.applyLine_unnamed (hn : ∀ key, ¬Names line key) :
    conf.applyLine u line = conf := by
  have hfind : confKeys.find? (Names line ·) = none := by
    apply List.find?_eq_none.mpr
    intro key _
    simpa using hn key
  rw [Settings.applyLine, hfind]

theorem Settings.applyLine_sameBut (u : Startup) (conf : Settings) (line : CStr) :
    conf.SameBut (Names line) (conf.applyLine u line) := by
  by_cases hany : ∃ key, Names line key
  · obtain ⟨key, hn⟩ := hany
    rw [Settings.applyLine_named hn]
    apply (Settings.assign_sameBut u conf _).mono
    rintro other rfl
    exact hn
  · rw [Settings.applyLine_unnamed fun key hn => hany ⟨key, hn⟩]
    exact .refl _ conf

/-- What a line sets depends on the field of its key only. -/
theorem Settings.assign_congr (text : CStr) (h : key.Agrees conf conf') :
    key.Agrees (conf.assign u (key, text)) (conf'.assign u (key, text)) := by
  cases key with
  | compressionMethod =>
    have hc : conf.compressionMethod = conf'.compressionMethod := h
    simp only [Settings.assign, ConfKey.Agrees, hc]
  | encryptionMethod =>
    have hc : conf.encryptionMethod = conf'.encryptionMethod := h
    simp only [Settings.assign, ConfKey.Agrees, hc]
  | cacheDir =>
    have hc : conf.cacheDir = conf'.cacheDir := h
    simp only [Settings.assign, ConfKey.Agrees, hc]
  | exclusionPattern =>
    have hc : conf.regex = conf'.regex := h
    simp only [Settings.assign, ConfKey.Agrees]
    split_ifs
    · exact hc
    · rw [hc]
  | _ => rfl

/-- The field of a key after all lines is its field after the lines of that key. -/
theorem foldl_applyLine_agrees (lines : List CStr) (h : key.Agrees conf conf') :
    key.Agrees (lines.foldl (Settings.applyLine u) conf)
      ((lines.filter (Names · key)).foldl (Settings.applyLine u) conf') := by
  induction lines generalizing conf conf' with
  | nil => exact h
  | cons line lines ih =>
    by_cases hn : Names line key
    · rw [List.filter_cons_of_pos (by simpa using hn), List.foldl_cons, List.foldl_cons]
      apply ih
      rw [Settings.applyLine_named hn, Settings.applyLine_named hn]
      exact Settings.assign_congr _ h
    · rw [List.filter_cons_of_neg (by simpa using hn), List.foldl_cons]
      apply ih
      have hsame := (Settings.applyLine_sameBut u conf line).field key hn
      cases key <;> exact (Eq.symm hsame).trans h

theorem foldl_applyLine_fixed (u : Startup) (conf : Settings) (lines : List CStr) :
    (lines.foldl (Settings.applyLine u) conf).rootDir = conf.rootDir ∧
    (lines.foldl (Settings.applyLine u) conf).debug = conf.debug := by
  induction lines generalizing conf with
  | nil => exact ⟨rfl, rfl⟩
  | cons line lines ih =>
    obtain ⟨hroot, hdebug⟩ := ih (conf.applyLine u line)
    have hsame := Settings.applyLine_sameBut u conf line
    exact ⟨hroot.trans hsame.rootDir.symm, hdebug.trans hsame.debug.symm⟩

/-- Lines that keep the order within each key end in the same configuration. -/
theorem foldl_applyLine_eq {lines lines' : List CStr}
    (h : ∀ key, lines.filter (Names · key) = lines'.filter (Names · key)) :
    lines.foldl (Settings.applyLine u) conf = lines'.foldl (Settings.applyLine u) conf := by
  obtain ⟨hroot, hdebug⟩ := foldl_applyLine_fixed u conf lines
  obtain ⟨hroot', hdebug'⟩ := foldl_applyLine_fixed u conf lines'
  have hsame : Settings.SameBut (fun _ => False) (lines.foldl (Settings.applyLine u) conf)
      (lines'.foldl (Settings.applyLine u) conf) := by
    refine ⟨hroot.trans hroot'.symm, hdebug.trans hdebug'.symm, fun key _ => ?_⟩
    have h1 := foldl_applyLine_agrees (u := u) lines (ConfKey.agrees_refl conf key)
    have h2 := foldl_applyLine_agrees (u := u) lines' (ConfKey.agrees_refl conf key)
    rw [h key] at h1
    cases key <;> exact Eq.trans h1 (Eq.symm h2)
  exact hsame.eq fun _ h => h

end Line

section Step

variable {u : Startup} {p : Parser} {line text : CStr} {key : ConfKey}

theorem hold_token (hl : nul ∉ line) : (p.hold line).token 0 = line := cstr_cut hl _

/-- What the names after `cache_dir` are tried on. -/
theorem hold_printed_token (hl : nul ∉ line) (htext : assignedText line = some text)
    (hne : text ≠ []) : ((p.hold line).assign u (.cacheDir, text)).token 0 =
      if p.left = 0 then printedDir u line else line := by
  have hprint : printedDir u line = cstr (tmpstr (text ++ '/' :: u.curBucket)) := by
    rw [printedDir, htext, Option.getD_some]
  have hdir : (if text = [] then p.conf.cacheDir else text) = text := if_neg hne
  obtain ⟨conf, buf, left⟩ := p
  cases left with
  | zero =>
    rw [if_pos rfl, hprint]
    simp only [Parser.assign, if_true, Parser.hold, Parser.tmpstrPrintf, Parser.token, if_neg hne]
    exact cstr_stop _ _
  | succ n =>
    rw [if_neg (Nat.succ_ne_zero n)]
    exact hold_token hl

theorem hold_assign_left : ((p.hold line).assign u (key, text)).left =
    if key = .cacheDir then leftNext p.left else p.left := by
  obtain ⟨conf, buf, left⟩ := p
  simp only [Parser.assign]
  split_ifs
  · cases left <;> rfl
  · cases left <;> rfl
  · rfl

theorem assign_conf : (p.assign u (key, text)).conf = p.conf.assign u (key, text) := rfl

/-- The late names leave the configuration when the printed directory does not disturb it. -/
theorem parseFields_late (hcalm : ∀ key ∈ lateKeys, Names (p.token 0) key → ∀ text,
      assignedText (p.token 0) = some text →
        text = [] ∧ key ≠ .cacheMaxSize ∧ key ≠ .logLevel) :
    ∃ ok q, parseFields u 0 lateKeys p = .ok (ok, q) ∧ q.conf = p.conf ∧ q.left = p.left := by
  by_cases hany : ∃ key ∈ lateKeys, Names (p.token 0) key
  · obtain ⟨key, hmem, hn⟩ := hany
    have hkey : key ≠ .cacheDir := by
      rintro rfl
      revert hmem
      decide
    rw [parseFields_one hmem (by decide) hkey hn]
    cases htext : assignedText (p.token 0) with
    | none => exact ⟨false, p, rfl, rfl, rfl⟩
    | some text =>
      obtain ⟨rfl, hsize, hlevel⟩ := hcalm key hmem hn text htext
      have hno : (key, ([] : CStr)) ≠ noLevel := fun he => hlevel (congrArg Prod.fst he)
      rw [Parser.take, if_neg hno]
      have hleft : (p.assign u (key, [])).left = p.left := by
        rw [Parser.assign]
        dsimp only
        rw [if_neg hkey]
      refine ⟨_, _, rfl, ?_, hleft⟩
      rw [assign_conf]
      have hcases : key = .exclusionPattern ∨ key = .encryptionMethod := by
        revert hmem hsize hlevel
        cases key <;> decide
      rcases hcases with rfl | rfl
      · rfl
      · rfl
  · rw [parseFields_none fun key hk hn => hany ⟨key, hk, hn⟩]
    exact ⟨true, p, rfl, rfl, rfl⟩

/-- A line that is not disturbed sets the field of its key. -/
theorem parseToken_undisturbed (hmk : ∀ path, u.mkdir path = true) (ha : Assigns line)
    (hl : nul ∉ line) (h : Names line .cacheDir → p.left = 0 → ¬Disturbs u line) :
    ∃ ok q, parseToken u (p.hold line) 0 = .ok (ok, q) ∧ q.conf = p.conf.applyLine u line ∧
      q.left = if Names line .cacheDir then leftNext p.left else p.left := by
  obtain ⟨text, htext, hne⟩ := ha
  have htok : (p.hold line).token 0 = line := hold_token hl
  have hset : ∀ {key}, Names line key →
      ((p.hold line).assign u (key, text)).conf = p.conf.applyLine u line := by
    intro key hn
    rw [Settings.applyLine_named hn, htext, Option.getD_some]
    rfl
  by_cases hc : Names line .cacheDir
  · have hgo : Assignment.goesOn u (p.hold line).conf (.cacheDir, text) = true := by
      rw [Assignment.goesOn, if_pos rfl]
      exact hmk _
    rw [parseToken_cacheDir (by rw [htok]; exact hc), htok, htext, Parser.take,
      if_neg (by simp [noLevel]), hgo]
    simp only [bind, Except.bind, if_true]
    have hprinted := hold_printed_token (u := u) (p := p) hl htext hne
    have hlate := parseFields_late (u := u) (p := (p.hold line).assign u (.cacheDir, text)) ?_
    · obtain ⟨ok, q, hq, hconf, hleft⟩ := hlate
      refine ⟨ok, q, hq, hconf.trans (hset hc), ?_⟩
      rw [hleft, hold_assign_left, if_pos rfl, if_pos hc]
    · intro key hk hn text' ht'
      rw [hprinted] at hn ht'
      split_ifs at hn ht' with h0
      · by_contra hbad
        refine h hc h0 ⟨key, hk, hn, text', ht', ?_⟩
        by_contra hno
        rw [not_or, not_or, not_not] at hno
        exact hbad hno
      · obtain rfl := hn.unique hc
        exact absurd hk (by decide)
  · by_cases hany : ∃ key, Names line key
    · obtain ⟨key, hn⟩ := hany
      have hkey : key ≠ .cacheDir := by
        rintro rfl
        exact hc hn
      have hno : (key, text) ≠ noLevel := fun he => hne (congrArg Prod.snd he)
      have hn' : Names ((p.hold line).token 0) key := by
        rw [htok]
        exact hn
      rw [parseToken, parseFields_one (mem_confKeys key) confKeys_nodup hkey hn', htok, htext,
        Parser.take, if_neg hno]
      refine ⟨_, _, rfl, hset hn, ?_⟩
      rw [hold_assign_left, if_neg hkey, if_neg hc]
    · have hnone : ∀ key, ¬Names line key := fun key hn => hany ⟨key, hn⟩
      rw [parseToken, parseFields_none fun key _ => by rw [htok]; exact hnone key,
        Settings.applyLine_unnamed hnone]
      exact ⟨true, _, rfl, rfl, by rw [if_neg hc]; rfl⟩

/-- A disturbed line sets a second field, if it does not crash. -/
theorem parseToken_disturbed (hmk : ∀ path, u.mkdir path = true) (ha : Assigns line)
    (hl : nul ∉ line) (hc : Names line .cacheDir) (h0 : p.left = 0)
    (hn : Names (printedDir u line) key) (hk : key ∈ lateKeys)
    (ht : assignedText (printedDir u line) = some text) {ok : Bool} {q : Parser}
    (hq : parseToken u (p.hold line) 0 = .ok (ok, q)) :
    q.conf = (p.conf.applyLine u line).assign u (key, text) := by
  obtain ⟨dir, hdir, hne⟩ := ha
  have htok : (p.hold line).token 0 = line := hold_token hl
  have hkey : key ≠ .cacheDir := by
    rintro rfl
    revert hk
    decide
  have hprinted := hold_printed_token (u := u) (p := p) hl hdir hne
  rw [if_pos h0] at hprinted
  have hgo : Assignment.goesOn u (p.hold line).conf (.cacheDir, dir) = true := by
    rw [Assignment.goesOn, if_pos rfl]
    exact hmk _
  rw [parseToken_cacheDir (by rw [htok]; exact hc), htok, hdir, Parser.take,
    if_neg (by simp [noLevel]), hgo] at hq
  simp only [bind, Except.bind, if_true] at hq
  rw [parseFields_one hk (by decide) hkey (by rw [hprinted]; exact hn), hprinted, ht,
    Parser.take] at hq
  split_ifs at hq
  simp only [Except.ok.injEq, Prod.mk.injEq] at hq
  rw [← hq.2, Settings.applyLine_named hc, hdir, Option.getD_some]
  rfl

end Step

section Run

variable {u : Startup} {p : Parser} {lines lines' before rest : List CStr} {line : CStr}
  {left : Nat}

/-- Only the lines of the cache directory take strings from the ring. -/
theorem undisturbed_filter (u : Startup) (lines : List CStr) (left : Nat) :
    LinesUndisturbed u left (lines.filter (Names · .cacheDir)) ↔ LinesUndisturbed u left lines := by
  induction lines generalizing left with
  | nil => exact Iff.rfl
  | cons line lines ih =>
    by_cases hn : Names line .cacheDir
    · rw [List.filter_cons_of_pos (by simpa using hn), LinesUndisturbed, LinesUndisturbed,
        if_pos hn, if_pos hn, ih]
    · rw [List.filter_cons_of_neg (by simpa using hn), LinesUndisturbed, if_neg hn]
      exact ih left

theorem SameOrder.undisturbed (h : SameOrder lines lines') (hu : LinesUndisturbed u left lines) :
    LinesUndisturbed u left lines' := by
  rw [← undisturbed_filter] at hu ⊢
  rw [← h.2 .cacheDir]
  exact hu

/-- The lines before a point set their fields, and the rest stays undisturbed. -/
theorem parseTokens_undisturbed (hmk : ∀ path, u.mkdir path = true)
    (hl : ∀ line ∈ before, Assigns line ∧ nul ∉ line)
    (h : LinesUndisturbed u p.left (before ++ rest)) :
    ∃ q, parseTokens u before p = .ok q ∧ q.conf = before.foldl (Settings.applyLine u) p.conf ∧
      LinesUndisturbed u q.left rest := by
  induction before generalizing p with
  | nil => exact ⟨p, rfl, rfl, h⟩
  | cons line before ih =>
    rw [List.cons_append, LinesUndisturbed] at h
    obtain ⟨ha, hnul⟩ := hl line (List.mem_cons_self ..)
    have hcalm : Names line .cacheDir → p.left = 0 → ¬Disturbs u line := by
      intro hn
      rw [if_pos hn] at h
      exact h.1
    obtain ⟨ok, r, hstep, hconf, hleft⟩ := parseToken_undisturbed hmk ha hnul hcalm
    have hrest : LinesUndisturbed u r.left (before ++ rest) := by
      rw [hleft]
      split_ifs at h ⊢
      · exact h.2
      · exact h
    obtain ⟨q, hrun, hq, hu⟩ := ih (fun other ho => hl other (List.mem_cons_of_mem line ho)) hrest
    refine ⟨q, ?_, ?_, hu⟩
    · rw [parseTokens, hstep]
      exact hrun
    · rw [hq, hconf]
      rfl

/-- The first directory that disturbs: the lines before it set their fields, and its string comes
to the slot of the line. -/
theorem exists_disturbs (hmk : ∀ path, u.mkdir path = true)
    (hl : ∀ line ∈ lines, Assigns line ∧ nul ∉ line) (h : ¬LinesUndisturbed u left lines) :
    ∃ before line after, lines = before ++ line :: after ∧ Names line .cacheDir ∧
      Disturbs u line ∧ ∀ p : Parser, p.left = left → ∃ q, parseTokens u before p = .ok q ∧
        q.conf = before.foldl (Settings.applyLine u) p.conf ∧ q.left = 0 := by
  induction lines generalizing left with
  | nil => exact absurd trivial h
  | cons line lines ih =>
    obtain ⟨ha, hnul⟩ := hl line (List.mem_cons_self ..)
    have hl' : ∀ other ∈ lines, Assigns other ∧ nul ∉ other :=
      fun other ho => hl other (List.mem_cons_of_mem line ho)
    rw [LinesUndisturbed] at h
    by_cases hfirst : Names line .cacheDir ∧ left = 0 ∧ Disturbs u line
    · obtain ⟨hn, h0, hd⟩ := hfirst
      exact ⟨[], line, lines, rfl, hn, hd, fun p hp => ⟨p, rfl, rfl, hp.trans h0⟩⟩
    · have hcalm : Names line .cacheDir → left = 0 → ¬Disturbs u line :=
        fun hn h0 hd => hfirst ⟨hn, h0, hd⟩
      have hrest :
          ¬LinesUndisturbed u (if Names line .cacheDir then leftNext left else left) lines := by
        intro hu
        split_ifs at h hu with hn
        · exact h ⟨hcalm hn, hu⟩
        · exact h hu
      obtain ⟨before, bad, after, rfl, hn, hd, hrun⟩ := ih hl' hrest
      refine ⟨line :: before, bad, after, rfl, hn, hd, fun p hp => ?_⟩
      obtain ⟨ok, r, hstep, hconf, hleft⟩ :=
        parseToken_undisturbed hmk ha hnul (p := p) (by rw [hp]; exact hcalm)
      obtain ⟨q, hq, hqconf, h0⟩ := hrun r (by rw [hleft, hp])
      refine ⟨q, ?_, ?_, h0⟩
      · rw [parseTokens, hstep]
        exact hq
      · rw [hqconf, hconf]
        rfl

/-- The lines of the cache directory may come first. -/
theorem sameOrder_dirs_first (lines : List CStr) :
    SameOrder lines (lines.filter (Names · .cacheDir) ++
      lines.filter fun line => ¬Names line .cacheDir) := by
  refine ⟨?_, fun key => ?_⟩
  · have hperm := List.filter_append_perm (fun line : CStr => decide (Names line .cacheDir)) lines
    simpa using hperm.symm
  rw [List.filter_append, List.filter_filter, List.filter_filter]
  by_cases hkey : key = .cacheDir
  · subst hkey
    simp
  · have hno : ∀ line : CStr, Names line key → ¬Names line .cacheDir :=
      fun line hn hc => hkey (hn.unique hc)
    have hdirs : lines.filter (fun line => decide (Names line key) && decide (Names line .cacheDir))
        = [] := by
      apply List.filter_eq_nil_iff.mpr
      intro line _ hb
      have hb' : Names line key ∧ Names line .cacheDir := by simpa using hb
      exact hno line hb'.1 hb'.2
    rw [hdirs, List.nil_append]
    apply List.filter_congr
    intro line _
    by_cases hn : Names line key
    · simp [hn, hno line hn]
    · simp [hn]

/-- Some configuration has another value in the field than the one the text gives. -/
theorem exists_not_agrees (u : Startup) (key : ConfKey) (text : CStr) (hk : key ∈ lateKeys)
    (hfield : text ≠ [] ∨ key = .cacheMaxSize ∨ key = .logLevel) :
    ∃ conf : Settings, ∀ conf', key.Agrees conf conf' →
      ¬key.Agrees conf (conf'.assign u (key, text)) := by
  have conf : Settings := confCtorDefault u none
  cases key with
  | exclusionPattern =>
    have htext : text ≠ [] := by simpa using hfield
    refine ⟨{ conf with regex := ⟨.null, fun _ => false, false⟩ }, fun conf' _ h => ?_⟩
    simp only [ConfKey.Agrees, Settings.assign, if_neg htext] at h
    have hstr := congrArg Re.str h
    cases hstr
  | encryptionMethod =>
    have htext : text ≠ [] := by simpa using hfield
    refine ⟨{ conf with encryptionMethod := [] }, fun conf' _ h => ?_⟩
    simp only [ConfKey.Agrees, Settings.assign, if_neg htext] at h
    exact htext h.symm
  | cacheMaxSize =>
    refine ⟨{ conf with cacheMaxSize := toI32 (strtoull text) + 1 }, fun conf' _ h => ?_⟩
    simp only [ConfKey.Agrees, Settings.assign] at h
    omega
  | logLevel =>
    refine ⟨{ conf with logLevel := strToLogLevel text + 1 }, fun conf' _ h => ?_⟩
    simp only [ConfKey.Agrees, Settings.assign] at h
    omega
  | _ => exact absurd hk (by decide)

/-- A disturbed line changes a field that it does not name, in a configuration where that field has
another value. -/
theorem undisturbed_of_independent (hmk : ∀ path, u.mkdir path = true)
    (hl : ∀ line ∈ lines, Assigns line ∧ nul ∉ line) (hi : Independent u left lines) :
    LinesUndisturbed u left lines := by
  by_contra hnot
  rw [← undisturbed_filter] at hnot
  obtain ⟨before, line, after, hsplit, hn, hd, hrun⟩ := exists_disturbs hmk
    (fun other ho => hl other (List.mem_of_mem_filter ho)) hnot
  have hline : line ∈ lines.filter (Names · .cacheDir) := by
    rw [hsplit]
    simp
  obtain ⟨ha, hnul⟩ := hl line (List.mem_of_mem_filter hline)
  obtain ⟨key, hk, hkn, text, htext, hfield⟩ := hd
  obtain ⟨conf, hconf⟩ := exists_not_agrees u key text hk hfield
  obtain ⟨q, hq, hqconf, h0⟩ := hrun ⟨conf, [], left⟩ rfl
  have hfirst := sameOrder_dirs_first lines
  rw [hsplit, List.append_assoc, List.cons_append] at hfirst
  obtain ⟨ok, r, hstep, hsame⟩ := hi.steps conf [] _ hfirst before line _ q rfl hq
  have hkey : ¬Names line key := by
    intro hkl
    obtain rfl := hkl.unique hn
    exact absurd hk (by decide)
  have hbefore : before.filter (Names · key) = [] := by
    apply List.filter_eq_nil_iff.mpr
    intro other ho hno
    have hdir := List.of_mem_filter (hsplit ▸ List.mem_append_left _ ho)
    have hother := (of_decide_eq_true hno).unique (of_decide_eq_true hdir)
    rw [hother] at hk
    exact absurd hk (by decide)
  have hrest : key.Agrees conf q.conf := by
    have hfold := foldl_applyLine_agrees (u := u) before (key.agrees_refl conf)
    rw [hbefore] at hfold
    rw [hqconf]
    exact hfold.symm
  have hset := parseToken_disturbed hmk ha hnul hn h0 hkn hk htext hstep
  apply hconf _ (hrest.trans ((Settings.applyLine_sameBut u q.conf line).field key hkey))
  rw [← hset]
  exact hrest.trans (hsame.field key hkey)

/-- Lines that no directory disturbs set their own fields, in any order. -/
theorem independent_of_undisturbed (hmk : ∀ path, u.mkdir path = true)
    (hl : ∀ line ∈ lines, Assigns line ∧ nul ∉ line) (hu : LinesUndisturbed u left lines) :
    Independent u left lines := by
  have hall : ∀ {lines'}, SameOrder lines lines' → ∀ line ∈ lines', Assigns line ∧ nul ∉ line :=
    fun hsame other ho => hl other (hsame.1.mem_iff.mpr ho)
  have hruns : ∀ {lines'}, SameOrder lines lines' → ∀ conf buf, ∃ q,
      parseTokens u lines' ⟨conf, buf, left⟩ = .ok q ∧
      q.conf = lines'.foldl (Settings.applyLine u) conf := by
    intro lines' hsame conf buf
    have hu' : LinesUndisturbed u left (lines' ++ []) := by
      rw [List.append_nil]
      exact hsame.undisturbed hu
    obtain ⟨q, hq, hqconf, _⟩ :=
      parseTokens_undisturbed (p := ⟨conf, buf, left⟩) hmk (hall hsame) hu'
    exact ⟨q, hq, hqconf⟩
  constructor
  · intro conf buf lines' hsame before line after q hsplit hrun
    have hu' := hsame.undisturbed hu
    rw [hsplit] at hu'
    have hbefore : ∀ other ∈ before, Assigns other ∧ nul ∉ other := by
      intro other ho
      apply hall hsame
      rw [hsplit]
      exact List.mem_append_left _ ho
    obtain ⟨q', hrun', _, hrest⟩ :=
      parseTokens_undisturbed (p := ⟨conf, buf, left⟩) hmk hbefore hu'
    rw [hrun, Except.ok.injEq] at hrun'
    subst hrun'
    obtain ⟨ha, hnul⟩ := hall hsame line (by simp [hsplit])
    have hcalm : Names line .cacheDir → q.left = 0 → ¬Disturbs u line := by
      intro hn
      rw [LinesUndisturbed, if_pos hn] at hrest
      exact hrest.1
    obtain ⟨ok, r, hstep, hr, _⟩ := parseToken_undisturbed hmk ha hnul hcalm
    refine ⟨ok, r, hstep, ?_⟩
    rw [hr]
    exact Settings.applyLine_sameBut u q.conf line
  · intro conf buf lines' hsame
    obtain ⟨q, hq, hqconf⟩ := hruns ⟨.refl _, fun _ => rfl⟩ conf buf
    obtain ⟨q', hq', hqconf'⟩ := hruns hsame conf buf
    refine ⟨q, q', hq, hq', ?_⟩
    rw [hqconf, hqconf']
    exact foldl_applyLine_eq hsame.2

/-- Lines are independent exactly when no directory disturbs the line it is read from. -/
theorem settings_independent_iff (u : Startup) (hmk : ∀ path, u.mkdir path = true) (left : Nat)
    (lines : List CStr) (hl : ∀ line ∈ lines, Assigns line ∧ nul ∉ line) :
    Independent u left lines ↔ LinesUndisturbed u left lines :=
  ⟨undisturbed_of_independent hmk hl, independent_of_undisturbed hmk hl⟩

/-- Directories that do not disturb bring the ring round to the slot of the line. -/
theorem LinesUndisturbed.after_dirs (hn : Names line .cacheDir) (n : Nat)
    (h : LinesUndisturbed u (left + n) (List.replicate n line ++ rest)) :
    LinesUndisturbed u left rest := by
  induction n with
  | zero => exact h
  | succ n ih =>
    rw [List.replicate_succ, List.cons_append, LinesUndisturbed, if_pos hn] at h
    exact ih h.2

end Run

/-- `cache_dir=` and a directory. -/
def dirLine (dir : CStr) : CStr := ConfKey.cacheDir.text ++ '=' :: dir

/-- A retry and a directory, in the first slot of the ring. -/
theorem settings_independent_sample :
    Independent Startup.bare (tmpstrNb - 1)
      [ConfKey.maxRetry.text ++ ['=', '3'], dirLine ['/', 'c']] := by
  apply (settings_independent_iff Startup.bare (fun _ => rfl) (tmpstrNb - 1) _ ?_).mpr
  · rw [LinesUndisturbed, if_neg (by decide), LinesUndisturbed, if_pos (by decide)]
    exact ⟨fun h => absurd h (by decide), trivial⟩
  · intro line hm
    simp only [List.mem_cons, List.not_mem_nil, or_false] at hm
    rcases hm with rfl | rfl
    · exact ⟨⟨['3'], by decide, by decide⟩, by decide⟩
    · exact ⟨⟨['/', 'c'], by decide, by decide⟩, by decide⟩

/-- Thirty-two directories: the string of the last one is printed over the line, and read as an
exclusion pattern. -/
theorem settings_dependent :
    ¬Independent Startup.bare (tmpstrNb - 1) (List.replicate (tmpstrNb - 1) (dirLine ['/', 'c']) ++
      [dirLine (ConfKey.exclusionPattern.text ++ ['=', 'x'])]) := by
  intro hi
  have hlines : ∀ line ∈ List.replicate (tmpstrNb - 1) (dirLine ['/', 'c']) ++
      [dirLine (ConfKey.exclusionPattern.text ++ ['=', 'x'])], Assigns line ∧ nul ∉ line := by
    intro line hm
    rcases List.mem_append.mp hm with h | h
    · rw [List.eq_of_mem_replicate h]
      exact ⟨⟨['/', 'c'], by decide, by decide⟩, by decide⟩
    · rw [List.mem_singleton.mp h]
      exact ⟨⟨ConfKey.exclusionPattern.text ++ ['=', 'x'], by decide, by decide⟩, by decide⟩
  have hu := undisturbed_of_independent (fun _ => rfl) hlines hi
  rw [show tmpstrNb - 1 = 0 + (tmpstrNb - 1) from rfl] at hu
  have hlast := hu.after_dirs (by decide)
  rw [LinesUndisturbed, if_pos (by decide)] at hlast
  apply hlast.1 rfl
  refine ⟨.exclusionPattern, by decide, ?_, ['x', '/', 'b'], ?_, .inl (by decide)⟩
  · decide
  · decide

end DropletFs
