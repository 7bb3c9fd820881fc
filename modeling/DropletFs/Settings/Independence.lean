import DropletFs.Settings.Reading

/-! What one line of the configuration file can change. -/

namespace DropletFs

open CText

/-- The field a key names is the same in both configurations. -/
def ConfKey.Agrees (a b : Settings) : ConfKey → Prop
  | compressionMethod => a.compressionMethod = b.compressionMethod
  | zlibLevel => a.zlibLevel = b.zlibLevel
  | maxRetry => a.maxRetry = b.maxRetry
  | gcLoopDelay => a.gcLoopDelay = b.gcLoopDelay
  | gcAgeThreshold => a.gcAgeThreshold = b.gcAgeThreshold
  | scLoopDelay => a.scLoopDelay = b.scLoopDelay
  | scAgeThreshold => a.scAgeThreshold = b.scAgeThreshold
  | cacheDir => a.cacheDir = b.cacheDir
  | exclusionPattern => a.regex = b.regex
  | encryptionMethod => a.encryptionMethod = b.encryptionMethod
  | cacheMaxSize => a.cacheMaxSize = b.cacheMaxSize
  | logLevel => a.logLevel = b.logLevel

/-- The configurations differ at most in the fields of the keys given. -/
structure Settings.SameBut (keys : ConfKey → Prop) (a b : Settings) : Prop where
  rootDir : a.rootDir = b.rootDir
  debug : a.debug = b.debug
  field : ∀ key, ¬keys key → key.Agrees a b

/-- The key starts the line, in any case. -/
abbrev Names (token : CStr) (key : ConfKey) : Prop := startsWithNoCase token key.text = true

theorem ConfKey.agrees_refl (conf : Settings) (key : ConfKey) : key.Agrees conf conf := by
  cases key <;> rfl

theorem ConfKey.Agrees.symm {a b : Settings} {key : ConfKey} (h : key.Agrees a b) :
    key.Agrees b a := by
  cases key <;> exact Eq.symm h

theorem ConfKey.Agrees.trans {a b c : Settings} {key : ConfKey} (h : key.Agrees a b)
    (h' : key.Agrees b c) : key.Agrees a c := by
  cases key <;> exact Eq.trans h h'

namespace Settings.SameBut

variable {a b c : Settings} {keys keys' : ConfKey → Prop}

theorem refl (keys : ConfKey → Prop) (conf : Settings) : conf.SameBut keys conf :=
  ⟨rfl, rfl, fun key _ => key.agrees_refl conf⟩

theorem mono (h : a.SameBut keys b) (hk : ∀ key, keys key → keys' key) : a.SameBut keys' b :=
  ⟨h.rootDir, h.debug, fun key hn => h.field key fun hy => hn (hk key hy)⟩

theorem eq (h : a.SameBut keys b) (hk : ∀ key, ¬keys key) : a = b := by
  obtain ⟨hroot, hdebug, hfield⟩ := h
  have hf : ∀ key : ConfKey, key.Agrees a b := fun key => hfield key (hk key)
  cases a
  cases b
  simp only [Settings.mk.injEq]
  exact ⟨hroot, hf .cacheDir, hf .compressionMethod, hf .zlibLevel, hf .gcLoopDelay,
    hf .gcAgeThreshold, hf .scLoopDelay, hf .scAgeThreshold, hf .maxRetry, hf .logLevel,
    hf .cacheMaxSize, hf .exclusionPattern, hf .encryptionMethod, hdebug⟩

end Settings.SameBut

theorem Settings.assign_sameBut (u : Startup) (conf : Settings) (e : Assignment) :
    conf.SameBut (· = e.1) (conf.assign u e) := by
  obtain ⟨key, text⟩ := e
  cases key with
  | exclusionPattern =>
    have he : conf.assign u (.exclusionPattern, text) = if text = [] then conf
        else { conf with regex := { conf.regex with str := .text text } } := rfl
    rw [he]
    split_ifs with ht
    · exact .refl _ conf
    · refine ⟨rfl, rfl, fun other hne => ?_⟩
      cases other with
      | exclusionPattern => exact (hne rfl).elim
      | _ => rfl
  | _ =>
    refine ⟨rfl, rfl, fun other hne => ?_⟩
    cases other <;> first | rfl | exact (hne rfl).elim

theorem mem_confKeys (key : ConfKey) : key ∈ confKeys := by cases key <;> decide

theorem confKeys_nodup : confKeys.Nodup := by decide

/-- None of the names is the start of another one. -/
theorem text_inj_of_start (a b : ConfKey) (h : a.text <+: b.text) : a = b := by
  revert h
  cases a <;> cases b <;> decide

/-- At most one of the names starts a line. -/
theorem Names.unique {token : CStr} {a b : ConfKey} (ha : Names token a) (hb : Names token b) :
    a = b := by
  have hstart : ∀ {key : ConfKey}, Names token key → key.text <+: token.map Char.toLower := by
    intro key hkey
    have he : (token.take key.text.length).map Char.toLower = key.text := by
      simpa [Names, startsWithNoCase] using hkey
    rw [← he, List.map_take]
    exact List.take_prefix _ _
  rcases List.prefix_or_prefix_of_prefix (hstart ha) (hstart hb) with h | h
  · exact text_inj_of_start a b h
  · exact (text_inj_of_start b a h).symm

section Token

variable {u : Startup} {p : Parser} {line : Nat} {keys : List ConfKey} {key : ConfKey} {text : CStr}

/-- The outcome of a line with this key and text, if there is a text. -/
def Parser.take (u : Startup) (p : Parser) (key : ConfKey) (text : Option CStr) :
    Except Fault (Bool × Parser) :=
  match text with
  | none => .ok (false, p)
  | some text =>
    if (key, text) = noLevel then .error .nullDeref
    else .ok (Assignment.goesOn u p.conf (key, text), p.assign u (key, text))

theorem parseField_eq (u : Startup) (p : Parser) (line : Nat) (key : ConfKey) :
    parseField u p line key = p.take u key (assignedText (p.token line)) := by
  cases h : assignedText (p.token line) with
  | none => rw [parseField_none h, Parser.take]
  | some text => rw [parseField_some h, Parser.take]

theorem parseFields_none (h : ∀ key ∈ keys, ¬Names (p.token line) key) :
    parseFields u line keys p = .ok (true, p) := by
  induction keys with
  | nil => rfl
  | cons key keys ih =>
    rw [parseFields, if_neg (h key (List.mem_cons_self ..))]
    exact ih fun other ho => h other (List.mem_cons_of_mem key ho)

/-- The names before the one that starts the line are passed over. -/
theorem parseFields_skip {before after : List ConfKey}
    (h : ∀ key ∈ before, ¬Names (p.token line) key) :
    parseFields u line (before ++ after) p = parseFields u line after p := by
  induction before with
  | nil => rfl
  | cons key before ih =>
    rw [List.cons_append, parseFields, if_neg (h key (List.mem_cons_self ..))]
    exact ih fun other ho => h other (List.mem_cons_of_mem key ho)

theorem Parser.assign_token (hkey : key ≠ .cacheDir) :
    (p.assign u (key, text)).token line = p.token line := by
  unfold Parser.assign Parser.token
  dsimp only
  rw [if_neg hkey]

/-- Any key but the cache directory: its branch is the only one taken. -/
theorem parseFields_one (hmem : key ∈ keys) (hnd : keys.Nodup) (hkey : key ≠ .cacheDir)
    (hn : Names (p.token line) key) :
    parseFields u line keys p = p.take u key (assignedText (p.token line)) := by
  obtain ⟨before, after, rfl⟩ := List.append_of_mem hmem
  have hother : ∀ other ∈ before ++ after, ¬Names (p.token line) other := by
    intro other ho hno
    obtain rfl := hno.unique hn
    have hnd' := (List.nodup_middle.mp hnd)
    exact (List.nodup_cons.mp hnd').1 ho
  rw [parseFields_skip fun other ho => hother other (List.mem_append_left after ho), parseFields,
    if_pos hn, parseField_eq]
  cases htext : assignedText (p.token line) with
  | none => rfl
  | some text =>
    rw [Parser.take]
    split_ifs with hno
    · rfl
    · have hgo : Assignment.goesOn u p.conf (key, text) = true := if_neg hkey
      rw [hgo]
      apply parseFields_none
      intro other ho
      rw [Parser.assign_token hkey]
      exact hother other (List.mem_append_right before ho)

/-- The names tried after the cache directory has taken a string from the ring. -/
def lateKeys : List ConfKey := [.exclusionPattern, .encryptionMethod, .cacheMaxSize, .logLevel]

/-- The cache directory: the names after it are tried on what is in the buffer then. -/
theorem parseToken_cacheDir (hn : Names (p.token line) .cacheDir) :
    parseToken u p line = (p.take u .cacheDir (assignedText (p.token line)) >>= fun res =>
      if res.1 then parseFields u line lateKeys res.2 else .ok (false, res.2)) := by
  have hkeys : confKeys = [.compressionMethod, .zlibLevel, .maxRetry, .gcLoopDelay,
      .gcAgeThreshold, .scLoopDelay, .scAgeThreshold] ++ .cacheDir :: lateKeys := rfl
  rw [parseToken, hkeys, parseFields_skip, parseFields, if_pos hn, parseField_eq]
  intro other ho hno
  obtain rfl := hno.unique hn
  revert ho
  decide

/-- A `log_level` line with nothing but blanks behind its `=`. -/
def LevelMissing (token : CStr) : Prop :=
  Names token .logLevel ∧ assignedText token = some []

instance (token : CStr) : Decidable (LevelMissing token) :=
  inferInstanceAs (Decidable (_ ∧ _))

/-- The names are tried without a crash, and a failure changes nothing, unless the level is
missing. -/
theorem parseFields_outcome (hnd : keys.Nodup) (hlevel : .logLevel ∈ keys)
    (hdir : .cacheDir ∈ keys → ¬Names (p.token line) .cacheDir) :
    LevelMissing (p.token line) ∧ parseFields u line keys p = .error .nullDeref ∨
    ¬LevelMissing (p.token line) ∧ ∃ ok q, parseFields u line keys p = .ok (ok, q) ∧
      (ok = false → q.conf = p.conf) := by
  by_cases hany : ∃ key ∈ keys, Names (p.token line) key
  · obtain ⟨key, hmem, hn⟩ := hany
    have hkey : key ≠ .cacheDir := by
      rintro rfl
      exact hdir hmem hn
    rw [parseFields_one hmem hnd hkey hn]
    cases htext : assignedText (p.token line) with
    | none =>
      refine .inr ⟨?_, false, p, rfl, fun _ => rfl⟩
      intro hm
      rw [hm.2] at htext
      cases htext
    | some text =>
      rw [Parser.take]
      by_cases hno : (key, text) = noLevel
      · obtain ⟨rfl, rfl⟩ := Prod.mk.inj hno
        rw [if_pos hno]
        exact .inl ⟨⟨hn, htext⟩, rfl⟩
      · have hgo : Assignment.goesOn u p.conf (key, text) = true := if_neg hkey
        rw [if_neg hno, hgo]
        refine .inr ⟨?_, true, _, rfl, fun h => by cases h⟩
        intro hm
        have hk := hn.unique hm.1
        rw [hm.2, Option.some.injEq] at htext
        exact hno (by rw [hk, ← htext]; rfl)
  · have hnone : ∀ key ∈ keys, ¬Names (p.token line) key := fun key hk hn => hany ⟨key, hk, hn⟩
    rw [parseFields_none hnone]
    exact .inr ⟨fun hm => hnone _ hlevel hm.1, true, p, rfl, fun _ => rfl⟩

end Token

section Line

variable {u : Startup} {p : Parser}

/-- The text `parse_line` hands to `parse_token`. -/
def Parser.lineStart (p : Parser) : Nat := ((p.token 0).takeWhile isSpace).length

/-- `parse_line` returns 0 or -1, and with -1 no field has changed but the one the line names. -/
def LineSafe (u : Startup) (p : Parser) : Prop :=
  ∃ ok q, parseLine u p = .ok (ok, q) ∧
    (ok = false → p.conf.SameBut (Names (p.token p.lineStart)) q.conf)

/-- The line is empty, a comment, or gives a level if it names it; and so does what is in the
buffer once a directory of the line has been set. -/
def LevelGiven (u : Startup) (p : Parser) : Prop :=
  p.token 0 = [] ∨ (p.token p.lineStart).head? = some '#' ∨
  ¬LevelMissing (p.token p.lineStart) ∧
    ∀ text, Names (p.token p.lineStart) .cacheDir →
      assignedText (p.token p.lineStart) = some text →
      Assignment.goesOn u p.conf (.cacheDir, text) = true →
      ¬LevelMissing ((p.assign u (.cacheDir, text)).token p.lineStart)

theorem parseToken_safe_iff (line : Nat) :
    (∃ ok q, parseToken u p line = .ok (ok, q) ∧
      (ok = false → p.conf.SameBut (Names (p.token line)) q.conf)) ↔
    ¬LevelMissing (p.token line) ∧ ∀ text, Names (p.token line) .cacheDir →
      assignedText (p.token line) = some text →
      Assignment.goesOn u p.conf (.cacheDir, text) = true →
      ¬LevelMissing ((p.assign u (.cacheDir, text)).token line) := by
  by_cases hn : Names (p.token line) .cacheDir
  · have hlevel : ¬LevelMissing (p.token line) := by
      intro hm
      have he := hn.unique hm.1
      cases he
    rw [parseToken_cacheDir hn]
    cases htext : assignedText (p.token line) with
    | none =>
      refine iff_of_true ⟨false, p, rfl, fun _ => .refl _ _⟩ ⟨hlevel, ?_⟩
      intro text _ ht
      cases ht
    | some text =>
      rw [Parser.take, if_neg (by simp [noLevel])]
      simp only [bind, Except.bind]
      have hset : p.conf.SameBut (Names (p.token line)) (p.assign u (.cacheDir, text)).conf := by
        apply (Settings.assign_sameBut u p.conf (.cacheDir, text)).mono
        rintro key rfl
        exact hn
      cases hgo : Assignment.goesOn u p.conf (.cacheDir, text) with
      | false =>
        rw [if_neg (by simp)]
        refine iff_of_true ⟨false, _, rfl, fun _ => hset⟩ ⟨hlevel, ?_⟩
        intro text' _ ht' hgo'
        rw [← Option.some.inj ht', hgo] at hgo'
        cases hgo'
      | true =>
        have hnone : .cacheDir ∈ lateKeys → ¬Names ((p.assign u (.cacheDir, text)).token line)
            .cacheDir := fun hm => absurd hm (by decide)
        rw [if_pos rfl]
        rcases parseFields_outcome (u := u) (by decide) (by decide) hnone with
          ⟨hm, herr⟩ | ⟨hgiven, ok, q, hq, hsame⟩
        · rw [herr]
          refine iff_of_false ?_ ?_
          · intro hrun
            obtain ⟨ok, q, hq, _⟩ := hrun
            cases hq
          · intro hsafe
            exact hsafe.2 text hn rfl hgo hm
        · refine iff_of_true ⟨ok, q, hq, fun hok => ?_⟩ ⟨hlevel, ?_⟩
          · rw [hsame hok]
            exact hset
          · intro text' _ ht' _
            rw [← Option.some.inj ht']
            exact hgiven
  · rw [parseToken]
    rcases parseFields_outcome (u := u) confKeys_nodup (mem_confKeys _) (fun _ => hn) with
      ⟨hm, herr⟩ | ⟨hgiven, ok, q, hq, hsame⟩
    · rw [herr]
      refine iff_of_false ?_ (fun h => h.1 hm)
      intro hrun
      obtain ⟨ok, q, hq, _⟩ := hrun
      cases hq
    · refine iff_of_true ⟨ok, q, hq, fun hok => ?_⟩ ⟨hgiven, fun _ hc => absurd hc hn⟩
      rw [hsame hok]
      exact .refl _ _

/-- A line is handled safely exactly when it gives the level it names. -/
theorem line_safe_iff (u : Startup) (p : Parser) : LineSafe u p ↔ LevelGiven u p := by
  unfold LineSafe LevelGiven parseLine
  by_cases hempty : p.token 0 = []
  · rw [if_pos hempty]
    exact iff_of_true ⟨true, p, rfl, fun h => by cases h⟩ (.inl hempty)
  rw [if_neg hempty]
  dsimp only
  by_cases hnote : (p.token p.lineStart).head? = some '#'
  · rw [if_pos (show (p.token (List.takeWhile isSpace (p.token 0)).length).head? = _ from hnote)]
    exact iff_of_true ⟨true, p, rfl, fun h => by cases h⟩ (.inr (.inl hnote))
  · rw [if_neg (show ¬(p.token (List.takeWhile isSpace (p.token 0)).length).head? = _ from hnote)]
    have h := parseToken_safe_iff (u := u) (p := p) p.lineStart
    simp only [hempty, hnote, false_or]
    exact h

end Line

/-- The parser at the first line of a file. -/
def Parser.atFirst (conf : Settings) (line : CStr) : Parser :=
  (⟨conf, List.replicate tmpstrMax nul, tmpstrNb - 1⟩ : Parser).readLine (line ++ ['\n'])

/-- `log_level =` without a level: the null pointer is compared. -/
theorem level_missing_crashes :
    parseLine Startup.bare (.atFirst (confCtorDefault Startup.bare none)
      (ConfKey.logLevel.text ++ [' ', '='])) = .error .nullDeref ∧
    ¬LineSafe Startup.bare (.atFirst (confCtorDefault Startup.bare none)
      (ConfKey.logLevel.text ++ [' ', '='])) := by
  have hrun : parseLine Startup.bare (.atFirst (confCtorDefault Startup.bare none)
      (ConfKey.logLevel.text ++ [' ', '='])) = .error .nullDeref := by rfl
  refine ⟨hrun, ?_⟩
  intro ⟨ok, q, hq, _⟩
  rw [hrun] at hq
  cases hq

end DropletFs
