import Mathlib.Data.List.DropRight
import DropletFs.Framework.Overrides
import DropletFs.Settings.Taken

/-! The settings of the `README`: where the value of each is to come from, and when the
configuration has it. -/

namespace DropletFs

open CText

/-- The settings of the `README`. -/
inductive Setting
  | compressionMethod
  | compressionLevel
  | cacheDir
  | gcAgeThreshold
  | gcLoopDelay
  | scLoopDelay
  | scAgeThreshold
  | encryptionMethod
  | exclusionPattern
  deriving DecidableEq, Repr

namespace Setting

def all : List Setting :=
  [compressionMethod, compressionLevel, cacheDir, gcAgeThreshold, gcLoopDelay, scLoopDelay,
    scAgeThreshold, encryptionMethod, exclusionPattern]

/-- The key the parser knows a setting by. -/
def key : Setting → ConfKey
  | compressionMethod => .compressionMethod
  | compressionLevel => .zlibLevel
  | cacheDir => .cacheDir
  | gcAgeThreshold => .gcAgeThreshold
  | gcLoopDelay => .gcLoopDelay
  | scLoopDelay => .scLoopDelay
  | scAgeThreshold => .scAgeThreshold
  | encryptionMethod => .encryptionMethod
  | exclusionPattern => .exclusionPattern

/-- The environment variable of a setting. -/
def var : Setting → EnvVar
  | compressionMethod => .compressionMethod
  | compressionLevel => .zlibLevel
  | cacheDir => .cacheDir
  | gcAgeThreshold => .gcAgeThreshold
  | gcLoopDelay => .gcLoopDelay
  | scLoopDelay => .scLoopDelay
  | scAgeThreshold => .scAgeThreshold
  | encryptionMethod => .encryptionMethod
  | exclusionPattern => .exclusionPattern

/-- `compression_level`, the name of the level in the `README`. -/
def textCompressionLevel : CStr :=
  ['c', 'o', 'm', 'p', 'r', 'e', 's', 's', 'i', 'o', 'n', '_', 'l', 'e', 'v', 'e', 'l']

/-- The names of a setting in the file: that of the `README`, and the parser's. -/
def names : Setting → List CStr
  | compressionLevel => [textCompressionLevel, ConfKey.zlibLevel.text]
  | s => [s.key.text]

/-- The value without a variable or an assignment. No pattern is the empty text. -/
def default : Setting → CStr
  | compressionMethod => textNONE
  | compressionLevel => ['3']
  | cacheDir => textTmp
  | gcAgeThreshold => ['9', '0', '0']
  | gcLoopDelay => ['6', '0']
  | scLoopDelay => ['0']
  | scAgeThreshold => ['0']
  | encryptionMethod => textNONE
  | exclusionPattern => []

/-- Read with `parse_int`. -/
def numeric : Setting → Bool
  | compressionMethod => false
  | cacheDir => false
  | encryptionMethod => false
  | exclusionPattern => false
  | _ => true

end Setting

/-- A text, a number, or the paths a pattern excludes. -/
inductive SettingValue
  | text (t : CStr)
  | number (n : Int)
  | paths (excluded : Path → Bool)

/-- The paths a pattern excludes when it is set in the environment. -/
def Startup.excluded (u : Startup) (pattern : CStr) (path : Path) : Bool :=
  if pattern = [] then false
  else match u.regcomp pattern with
    | none => false
    | some rx => rx path

/-- What a text says for a setting. -/
def Setting.meaning (u : Startup) (s : Setting) (t : CStr) : SettingValue :=
  match s with
  | .compressionMethod => .text t
  | .encryptionMethod => .text t
  | .cacheDir => .text (t ++ '/' :: u.curBucket)
  | .exclusionPattern => .paths (u.excluded t)
  | _ => .number (toI32 (strtoull t))

/-- The value of a setting in a configuration. -/
def Settings.value (conf : Settings) : Setting → SettingValue
  | .compressionMethod => .text conf.toConf.compressionMethod
  | .compressionLevel => .number conf.toConf.zlibLevel
  | .cacheDir => .text conf.toConf.cacheDir
  | .gcAgeThreshold => .number conf.toConf.gcAgeThreshold
  | .gcLoopDelay => .number conf.gcLoopDelay
  | .scLoopDelay => .number conf.scLoopDelay
  | .scAgeThreshold => .number conf.scAgeThreshold
  | .encryptionMethod => .text conf.toConf.encryptionMethod
  | .exclusionPattern => .paths conf.toConf.regex

/-- The setting a line of the file assigns, and its text. A note has a name of its own. -/
def assignment (line : CStr) : Option (Setting × CStr) :=
  let name := ((line.dropWhile isSpace).takeWhile (· ≠ '=')).rdropWhile isSpace
  match Setting.all.find? (fun s => name.map Char.toLower ∈ s.names), assignedText line with
  | some s, some (c :: cs) => some (s, c :: cs)
  | _, _ => none

/-- The lines of a file that assign a setting a text, in order. -/
def assignments (content : CStr) : List (Setting × CStr) :=
  (content.splitOn '\n').filterMap assignment

namespace Startup

/-- A variable that is set and not empty. -/
def given (u : Startup) (id : EnvVar) : Option CStr := (u.getenv id).filter (· ≠ [])

/-- `$HOME/.dplfsrc`. -/
def confFile (u : Startup) : Option CStr := do
  let home ← u.getenv .home
  u.fopen (home ++ '/' :: defaultConfigFile)

/-- The last text the file assigns to a setting. -/
def assigned (u : Startup) (s : Setting) : Option CStr :=
  Overrides.last (fun e => if e.1 = s then some e.2 else none) (assignments (u.confFile.getD []))

/-- The text a setting is to have without its variable. -/
def inFile (u : Startup) (s : Setting) : CStr := (u.assigned s).getD s.default

/-- The text a setting is to have: its variable, or the last assignment, or the default. -/
def chosen (u : Startup) (s : Setting) : CStr := (u.given s.var).getD (u.inFile s)

/-- What the lines of the file assign. It is read when there is a home and the directory of the
default can be made. -/
def takes (u : Startup) : List Assignment :=
  match u.getenv .home with
  | none => []
  | some home =>
    if u.mkdir (tmpstr (textTmp ++ '/' :: u.curBucket)) then
      match u.fopen (tmpstr (home ++ '/' :: defaultConfigFile)) with
      | none => []
      | some stream => linesTake u (tmpstrNb - 1) (u.fullPath textTmp) (readLines stream)
    else []

/-- The directory the bucket was added to last, newest text first: an empty one stands for the
path so far. -/
def sourceDir (u : Startup) : List CStr → CStr
  | [] => textTmp
  | [] :: older => u.fullPath (u.sourceDir older)
  | (c :: cs) :: _ => c :: cs

end Startup

/-- The text an assignment leaves a setting with. An empty one is a number, and no text. -/
def Setting.takes (s : Setting) (e : Assignment) : Option CStr :=
  if e.1 = s.key ∧ (e.2 ≠ [] ∨ s.numeric = true) then some e.2 else none

/-- Two texts come to the same for a setting. -/
def Setting.SameText (s : Setting) (t t' : CStr) : Prop :=
  if s.numeric then toI32 (strtoull t) = toI32 (strtoull t') else t = t'

/-- Every setting has the value of the text chosen for it. -/
def Effective (u : Startup) (conf : Settings) : Prop :=
  ∀ s : Setting, conf.value s = s.meaning u (u.chosen s)

/-- The directory with the bucket is the chosen one with the bucket: it is the same directory, the
path fits its buffer, and no slash at the end is cut off. A path too long may come to the same by
what is cut off. -/
def DirHonoured (u : Startup) (dir chosen : CStr) : Prop :=
  if (dir ++ '/' :: u.curBucket).length < tmpstrMax then
    dir = chosen ∧
      (u.mkdir (dir ++ '/' :: u.curBucket) = true → ('/' :: u.curBucket).getLast? ≠ some '/')
  else u.fullPath dir = chosen ++ '/' :: u.curBucket

/-- The directories the lines of `cache_dir` name, in order. -/
def Startup.dirTexts (u : Startup) : List CStr :=
  u.takes.filterMap fun e => if e.1 = .cacheDir then some e.2 else none

/-- The environment and the lines of the file with which every setting is honoured. Of the settings
without a variable, the last text on the lines that are read comes to the same as the one assigned
last; no pattern is left to the file; and the directory is the one chosen. -/
structure Honoured (u : Startup) : Prop where
  home : u.getenv .home ≠ none
  level : noLevel ∉ u.takes
  plain : ∀ s : Setting, s ≠ .cacheDir → s ≠ .exclusionPattern → u.given s.var = none →
    s.SameText ((Overrides.last s.takes u.takes).getD s.default) (u.inFile s)
  pattern : u.given .exclusionPattern = none →
    ∀ path, u.excluded (u.inFile .exclusionPattern) path = false
  dir : DirHonoured u (u.sourceDir u.dirTexts.reverse) (u.chosen .cacheDir)

section Fields

variable {u : Startup} {conf : Settings} {s : Setting} {e : Assignment}

/-- An assignment sets its own setting, and no other. -/
theorem assign_value (hdir : s ≠ .cacheDir) (hpat : s ≠ .exclusionPattern) :
    (conf.assign u e).value s = ((s.takes e).map (s.meaning u)).getD (conf.value s) := by
  obtain ⟨key, text⟩ := e
  by_cases hkey : key = s.key
  · by_cases htext : text = []
    · cases s <;> simp_all [Setting.takes, Setting.key, Setting.numeric, Settings.assign,
        Settings.value, Settings.toConf, Setting.meaning]
    · cases s <;> simp_all [Setting.takes, Setting.key, Setting.numeric, Settings.assign,
        Settings.value, Settings.toConf, Setting.meaning]
  · have hnone : s.takes (key, text) = none := if_neg fun h => hkey h.1
    rw [hnone]
    cases key with
    | exclusionPattern =>
      by_cases htext : text = []
      · simp [Settings.assign, htext]
      · cases s <;> simp_all [Settings.assign, Settings.value, Settings.toConf]
    | _ => cases s <;> simp_all [Setting.key, Settings.assign, Settings.value, Settings.toConf]

theorem assign_set : (conf.assign u e).regex.set = conf.regex.set := by
  obtain ⟨key, text⟩ := e
  cases key with
  | exclusionPattern =>
    by_cases htext : text = []
    · simp [Settings.assign, htext]
    · simp [Settings.assign, htext]
  | _ => rfl

theorem sameText_iff (hdir : s ≠ .cacheDir) (hpat : s ≠ .exclusionPattern) (u : Startup)
    (t t' : CStr) : s.SameText t t' ↔ s.meaning u t = s.meaning u t' := by
  cases s with
  | cacheDir => exact absurd rfl hdir
  | exclusionPattern => exact absurd rfl hpat
  | _ => simp [Setting.SameText, Setting.numeric, Setting.meaning]

theorem given_none {id : EnvVar} (h : u.getenv id = none) : u.given id = none := by
  rw [Startup.given, h]
  rfl

theorem given_empty {id : EnvVar} (h : u.getenv id = some []) : u.given id = none := by
  rw [Startup.given, h]
  rfl

theorem given_some {id : EnvVar} {c : Char} {cs : CStr} (h : u.getenv id = some (c :: cs)) :
    u.given id = some (c :: cs) := by
  rw [Startup.given, h]
  rfl

theorem envGenericSetStr_eq (var : CStr) (id : EnvVar) :
    envGenericSetStr u var id = (u.given id).getD var := by
  unfold envGenericSetStr
  split
  · rename_i h
    rw [given_none h]
    rfl
  · rename_i h
    rw [given_empty h]
    rfl
  · rename_i h
    rw [given_some h]
    rfl

theorem envGenericSetInt_eq (var : Int) (id : EnvVar) :
    envGenericSetInt u var id = ((u.given id).map fun t => toI32 (strtoull t)).getD var := by
  unfold envGenericSetInt
  split
  · rename_i h
    rw [given_none h]
    rfl
  · rename_i h
    rw [given_empty h]
    rfl
  · rename_i h
    rw [given_some h]
    rfl

theorem envOverrideConf_value (hdir : s ≠ .cacheDir) (hpat : s ≠ .exclusionPattern) :
    (envOverrideConf u conf).value s =
      ((u.given s.var).map (s.meaning u)).getD (conf.value s) := by
  cases s with
  | cacheDir => exact absurd rfl hdir
  | exclusionPattern => exact absurd rfl hpat
  | compressionMethod =>
    simp only [Settings.value, Settings.toConf, envOverrideConf, envGenericSetStr_eq, Setting.var]
    cases u.given .compressionMethod <;> rfl
  | encryptionMethod =>
    simp only [Settings.value, Settings.toConf, envOverrideConf, envGenericSetStr_eq, Setting.var]
    cases u.given .encryptionMethod <;> rfl
  | compressionLevel =>
    simp only [Settings.value, Settings.toConf, envOverrideConf, envGenericSetInt_eq, Setting.var]
    cases u.given .zlibLevel <;> rfl
  | gcAgeThreshold =>
    simp only [Settings.value, Settings.toConf, envOverrideConf, envGenericSetInt_eq, Setting.var]
    cases u.given .gcAgeThreshold <;> rfl
  | gcLoopDelay =>
    simp only [Settings.value, envOverrideConf, envGenericSetInt_eq, Setting.var]
    cases u.given .gcLoopDelay <;> rfl
  | scLoopDelay =>
    simp only [Settings.value, envOverrideConf, envGenericSetInt_eq, Setting.var]
    cases u.given .scLoopDelay <;> rfl
  | scAgeThreshold =>
    simp only [Settings.value, envOverrideConf, envGenericSetInt_eq, Setting.var]
    cases u.given .scAgeThreshold <;> rfl

/-- Only the variable makes a pattern exclude anything. -/
theorem envOverrideConf_excluded (hset : conf.regex.set = false) (path : Path) :
    reMatcher (envOverrideConf u conf).regex path =
      u.excluded ((u.given .exclusionPattern).getD []) path := by
  show reMatcher (envSetExclusionPattern u conf.regex) path = _
  unfold envSetExclusionPattern
  cases h : u.getenv .exclusionPattern with
  | none => simp [reMatcher, hset, given_none h, Startup.excluded]
  | some t =>
    cases t with
    | nil => simp [reCtor, reMatcher, given_empty h, Startup.excluded]
    | cons c cs =>
      rw [given_some h]
      simp only [reCtor, Startup.excluded]
      cases hrx : u.regcomp (c :: cs) <;> simp [reMatcher, hrx]

end Fields

section Paths

variable {u : Startup} {path dir chosen : CStr}

theorem stripSlashes_of_end (h : path.getLast? ≠ some '/') : stripSlashes path = path := by
  unfold stripSlashes
  rw [← List.head?_reverse] at h
  cases hr : path.reverse with
  | nil => simpa using hr.symm
  | cons c cs =>
    rw [hr, List.head?_cons] at h
    rw [List.dropWhile_cons_of_neg (by simpa using h), ← hr, List.reverse_reverse]

/-- The stored path is the chosen directory with the bucket. -/
theorem fullPath_eq_iff :
    u.fullPath dir = chosen ++ '/' :: u.curBucket ↔ DirHonoured u dir chosen := by
  unfold DirHonoured
  split
  · rename_i hfits
    have hcache : tmpstr (dir ++ '/' :: u.curBucket) = dir ++ '/' :: u.curBucket :=
      snprintf_of_lt hfits
    have hend : (dir ++ '/' :: u.curBucket).getLast? = ('/' :: u.curBucket).getLast? :=
      List.getLast?_append_of_ne_nil dir (by simp)
    have hend' : (chosen ++ '/' :: u.curBucket).getLast? = ('/' :: u.curBucket).getLast? :=
      List.getLast?_append_of_ne_nil chosen (by simp)
    unfold Startup.fullPath
    dsimp only
    rw [hcache]
    cases hmk : u.mkdir (dir ++ '/' :: u.curBucket) with
    | false => simp
    | true =>
      simp only [if_true, forall_const]
      constructor
      · intro h
        have hlast : ('/' :: u.curBucket).getLast? ≠ some '/' := by
          rw [← hend', ← h]
          exact stripSlashes_end _
        rw [stripSlashes_of_end (by rw [hend]; exact hlast)] at h
        exact ⟨List.append_cancel_right h, hlast⟩
      · intro h
        rw [stripSlashes_of_end (by rw [hend]; exact h.2), h.1]
  · exact Iff.rfl

/-- Assignment after assignment, the stored path is that of the last directory. -/
theorem foldl_fullPath (u : Startup) (newest : List CStr) :
    newest.reverse.foldl (fun dir text => u.fullPath (if text = [] then dir else text))
      (u.fullPath textTmp) = u.fullPath (u.sourceDir newest) := by
  induction newest with
  | nil => rfl
  | cons text older ih =>
    rw [List.reverse_cons, List.foldl_append, ih]
    cases text with
    | nil => rfl
    | cons c cs => rfl

end Paths

/-- The configuration the file is applied to. -/
def Startup.unread (u : Startup) (rootDir : Option CStr) : Settings :=
  { confCtorDefault u rootDir with cacheDir := u.fullPath textTmp }

/-- The configuration after the file. -/
def Startup.read (u : Startup) (rootDir : Option CStr) : Settings :=
  u.takes.foldl (Settings.assign u) (u.unread rootDir)

section Read

variable {u : Startup} {rootDir : Option CStr}

/-- `parse_file` applies what the lines assign, unless a level without a text stops the daemon. -/
theorem parseFile_ok {path : Path} {stream : CStr} {c conf : Settings}
    (hstream : u.fopen path = some stream) : (parseFile u c path).map (·.2) = .ok conf ↔
      noLevel ∉ linesTake u (tmpstrNb - 1) c.cacheDir (readLines stream) ∧ conf =
        (linesTake u (tmpstrNb - 1) c.cacheDir (readLines stream)).foldl (Settings.assign u) c := by
  have happ := parseLines_applied u (chunksRead stream) (.start c)
  have htakes : fileTakes u (chunksRead stream) (.start c) =
    linesTake u (tmpstrNb - 1) c.cacheDir (readLines stream) := fileTakes_eq u _ _
  have hrun : parseFile u c path =
      (parseLines u (chunksRead stream) (.start c) >>= fun res => .ok (res.1, res.2.conf)) := by
    unfold parseFile
    rw [hstream]
    rfl
  rw [htakes] at happ
  rw [hrun]
  cases hres : parseLines u (chunksRead stream) (.start c) with
  | error f =>
    rw [hres] at happ
    constructor
    · intro h
      cases h
    · intro h
      exact (h.1 happ).elim
  | ok r =>
    rw [hres] at happ
    obtain ⟨hnone, hconf⟩ := happ
    constructor
    · intro h
      exact ⟨hnone, (Except.ok.inj h).symm.trans hconf⟩
    · intro h
      exact congrArg Except.ok (hconf.trans h.2.symm)

/-- With `HOME`, the file is read and what it assigns is applied, unless a level without a text
stops the daemon. -/
theorem confFromFile_home (hhome : u.getenv .home ≠ none) {conf : Settings} :
    confFromFile u (confCtorDefault u rootDir) = .ok conf ↔
      noLevel ∉ u.takes ∧ conf = u.read rootDir := by
  obtain ⟨home, hhome⟩ := Option.ne_none_iff_exists'.mp hhome
  have hset : confSetFullCacheDir u (confCtorDefault u rootDir) =
      (u.mkdir (tmpstr (textTmp ++ '/' :: u.curBucket)), u.unread rootDir) :=
    confSetFullCacheDir_eq u _
  have hunread : Except.ok (u.unread rootDir) = (.ok conf : Except Fault Settings) ↔
      noLevel ∉ ([] : List Assignment) ∧ conf = u.unread rootDir := by
    constructor
    · intro h
      exact ⟨List.not_mem_nil, (Except.ok.inj h).symm⟩
    · intro h
      rw [h.2]
  unfold confFromFile Startup.read Startup.takes
  rw [hhome]
  dsimp only
  rw [hset]
  dsimp only
  cases u.mkdir (tmpstr (textTmp ++ '/' :: u.curBucket)) with
  | false => exact hunread
  | true =>
    cases hstream : u.fopen (tmpstr (home ++ '/' :: defaultConfigFile)) with
    | none =>
      have hnone : parseFile u (u.unread rootDir) (tmpstr (home ++ '/' :: defaultConfigFile)) =
          .ok (true, u.unread rootDir) := by rw [parseFile, hstream]
      rw [if_pos rfl, if_pos rfl, hnone]
      exact hunread
    | some stream => exact parseFile_ok hstream

theorem read_value {s : Setting} (hdir : s ≠ .cacheDir) (hpat : s ≠ .exclusionPattern) :
    (u.read rootDir).value s =
      s.meaning u ((Overrides.last s.takes u.takes).getD s.default) := by
  have hstart : (u.unread rootDir).value s = s.meaning u s.default := by
    cases s with
    | cacheDir => exact absurd rfl hdir
    | exclusionPattern => exact absurd rfl hpat
    | _ => rfl
  have hstep : ∀ (conf : Settings) (e : Assignment), (conf.assign u e).value s =
      ((s.takes e).map (s.meaning u)).getD (conf.value s) := fun _ _ => assign_value hdir hpat
  have hlast := Overrides.foldl_last (fun conf : Settings => conf.value s) hstep
    u.takes (u.unread rootDir)
  rw [Overrides.last_map, hstart] at hlast
  rw [Startup.read, hlast]
  cases Overrides.last s.takes u.takes <;> rfl

theorem read_set : (u.read rootDir).regex.set = false := by
  have h : ∀ (log : List Assignment) (conf : Settings),
      (log.foldl (Settings.assign u) conf).regex.set = conf.regex.set := by
    intro log
    induction log with
    | nil => exact fun _ => rfl
    | cons e log ih => exact fun conf => (ih (conf.assign u e)).trans assign_set
  exact h _ _

theorem read_cacheDir : (u.read rootDir).cacheDir =
    u.fullPath (u.sourceDir u.dirTexts.reverse) := by
  have h : ∀ (log : List Assignment) (conf : Settings),
      (log.foldl (Settings.assign u) conf).cacheDir =
        (log.filterMap fun e => if e.1 = .cacheDir then some e.2 else none).foldl
          (fun dir text => u.fullPath (if text = [] then dir else text)) conf.cacheDir := by
    intro log
    induction log with
    | nil => exact fun _ => rfl
    | cons e log ih =>
      intro conf
      rw [List.foldl_cons, ih, assign_cacheDir]
      by_cases he : e.1 = .cacheDir
      · simp [he]
      · simp [he]
  have hfold := foldl_fullPath u u.dirTexts.reverse
  rw [List.reverse_reverse] at hfold
  rw [Startup.read, h]
  exact hfold

end Read

/-- The configuration `conf_ctor` ends with when `HOME` is set. -/
def Startup.final (u : Startup) (rootDir : Option CStr) (debug : Int) : Settings :=
  { envOverrideConf u (u.read rootDir) with debug := debug }

section Final

variable {u : Startup} {rootDir : Option CStr} {debug : Int}

theorem confCtor_home (hhome : u.getenv .home ≠ none) {conf : Settings} :
    confCtor u rootDir debug = .ok (0, conf) ↔
      noLevel ∉ u.takes ∧ conf = u.final rootDir debug := by
  rw [confCtor, Except.map_eq_ok]
  constructor
  · intro h
    obtain ⟨read, hread, heq⟩ := h
    obtain ⟨hlevel, hread⟩ := (confFromFile_home hhome).mp hread
    refine ⟨hlevel, ?_⟩
    rw [hread] at heq
    exact (congrArg Prod.snd heq).symm
  · intro h
    refine ⟨u.read rootDir, (confFromFile_home hhome).mpr ⟨h.1, rfl⟩, ?_⟩
    rw [h.2]
    rfl

theorem final_value {s : Setting} (hdir : s ≠ .cacheDir) (hpat : s ≠ .exclusionPattern) :
    (u.final rootDir debug).value s = ((u.given s.var).map (s.meaning u)).getD
      (s.meaning u ((Overrides.last s.takes u.takes).getD s.default)) := by
  have hdebug : (u.final rootDir debug).value s = (envOverrideConf u (u.read rootDir)).value s := by
    cases s <;> rfl
  rw [hdebug, envOverrideConf_value hdir hpat, read_value hdir hpat]

theorem final_pattern : (u.final rootDir debug).value .exclusionPattern =
    .paths (u.excluded ((u.given .exclusionPattern).getD [])) :=
  congrArg SettingValue.paths (funext (envOverrideConf_excluded read_set))

theorem final_cacheDir : (u.final rootDir debug).value .cacheDir =
    .text (u.fullPath (u.sourceDir u.dirTexts.reverse)) :=
  congrArg SettingValue.text read_cacheDir

theorem given_ne_nil {id : EnvVar} {t : CStr} (h : u.given id = some t) : t ≠ [] := by
  simpa using (Option.filter_eq_some_iff.mp h).2

/-- No assignment gives an empty text. -/
theorem assigned_ne_nil {s : Setting} {t : CStr} (h : u.assigned s = some t) : t ≠ [] := by
  obtain ⟨e, he, ht⟩ := List.mem_filterMap.mp (List.mem_of_getLast? h)
  obtain ⟨line, -, hline⟩ := List.mem_filterMap.mp he
  have htext : e.2 ≠ [] := by
    unfold assignment at hline
    dsimp only at hline
    split at hline
    · rw [← Option.some.inj hline]
      simp
    · cases hline
  by_cases hs : e.1 = s
  · rw [if_pos hs] at ht
    rw [← Option.some.inj ht]
    exact htext
  · rw [if_neg hs] at ht
    cases ht

/-- There is always a cache directory to choose. -/
theorem chosen_cacheDir_ne_nil : u.chosen .cacheDir ≠ [] := by
  unfold Startup.chosen Startup.inFile
  cases hgiven : u.given Setting.cacheDir.var with
  | some t => exact given_ne_nil hgiven
  | none =>
    cases hassigned : u.assigned .cacheDir with
    | some t => exact assigned_ne_nil hassigned
    | none => simp [Setting.default, textTmp]

/-- Without `HOME` the cache directory has no bucket. -/
theorem confCtor_homeless (hhome : u.getenv .home = none) {conf : Settings}
    (h : confCtor u rootDir debug = .ok (0, conf)) :
    conf.value .cacheDir ≠ Setting.cacheDir.meaning u (u.chosen .cacheDir) := by
  rw [confCtor, Except.map_eq_ok] at h
  obtain ⟨read, hread, heq⟩ := h
  unfold confFromFile at hread
  rw [hhome] at hread
  have hdir : conf.cacheDir = textTmp := by
    rw [← Except.ok.inj hread] at heq
    exact (congrArg (fun r : Int × Settings => r.2.cacheDir) heq).symm
  intro hvalue
  have htext : conf.cacheDir = u.chosen .cacheDir ++ '/' :: u.curBucket :=
    SettingValue.text.inj hvalue
  rw [hdir] at htext
  have hne := chosen_cacheDir_ne_nil (u := u)
  cases hc : u.chosen .cacheDir with
  | nil => exact hne hc
  | cons c cs =>
    -- the only slash of the default is its first character
    rw [hc, textTmp, List.cons_append, List.cons.injEq] at htext
    have hmem : '/' ∈ ['t', 'm', 'p'] := by
      rw [htext.2]
      simp
    simp at hmem

end Final

/-- A line that is read as it is meant: it gives a setting a text under the parser's name for it, or
it starts with no key and gives nothing. -/
def Tidy (line : CStr) : Prop :=
  '\n' ∉ line ∧ nul ∉ line ∧ line.length + 2 ≤ tmpstrMax ∧
    ((∀ key ∈ confKeys, ¬Names (line.dropWhile isSpace) key) ∧ assignment line = none ∨
      ∃ s text, s ≠ .cacheDir ∧ s ≠ .exclusionPattern ∧ Names (line.dropWhile isSpace) s.key ∧
        assignment line = some (s, text))

section Tidy

variable {u : Startup} {line dir : CStr} {lines : List CStr} {s : Setting} {text : CStr}

theorem Setting.key_injective : Function.Injective Setting.key := by
  intro s s' h
  cases s <;> cases s' <;> first | rfl | cases h

theorem assignedText_entry (line : CStr) :
    assignedText (line.dropWhile isSpace) = assignedText line := by
  induction line with
  | nil => rfl
  | cons c line ih =>
    by_cases hc : isSpace c = true
    · have hne : c ≠ '=' := by
        rintro rfl
        revert hc
        decide
      rw [List.dropWhile_cons_of_pos hc, ih]
      simp [assignedText, hne]
    · rw [List.dropWhile_cons_of_neg hc]

theorem assignment_some (h : assignment line = some (s, text)) :
    assignedText line = some text ∧ text ≠ [] := by
  unfold assignment at h
  dsimp only at h
  split at h
  · rename_i s' c cs _ htext
    simp only [Option.some.injEq, Prod.mk.injEq] at h
    rw [htext, h.2]
    exact ⟨rfl, by rw [← h.2]; simp⟩
  · cases h

/-- What the parser takes from a line of a setting. -/
def Setting.taken (e : Setting × CStr) : Assignment := (e.1.key, e.2)

theorem oneTakes_tidy (h : Tidy line) (left : Nat) (dir : CStr) :
    oneTakes u left dir line =
      (((assignment line).map Setting.taken).toList, some (left, dir)) := by
  obtain ⟨-, -, -, h⟩ := h
  unfold oneTakes
  dsimp only
  rcases h with ⟨hno, hnone⟩ | ⟨s, text, hdir, hpat, hn, hsome⟩
  · rw [if_neg (hno _ (by decide)), entryTakes_none hno, hnone]
    rfl
  · obtain ⟨htext, hne⟩ := assignment_some hsome
    have hother : ¬Names (line.dropWhile isSpace) .cacheDir := by
      intro hc
      exact hdir (Setting.key_injective (hn.unique hc))
    have hmem : s.key ∈ confKeys := by
      cases s <;> decide
    rw [if_neg hother, entryTakes_one hmem hn, assignedText_entry, htext, hsome]
    have hlevel : (s.key, text) ≠ noLevel := by
      intro he
      exact hne (congrArg Prod.snd he)
    simp [hlevel, Setting.taken]

theorem linesTake_tidy (h : ∀ line ∈ lines, Tidy line) (left : Nat) (dir : CStr) :
    linesTake u left dir lines = (lines.filterMap assignment).map Setting.taken := by
  induction lines with
  | nil => rfl
  | cons line lines ih =>
    obtain ⟨hline, hlines⟩ := List.forall_mem_cons.mp h
    rw [linesTake, oneTakes_tidy hline]
    dsimp only
    rw [ih hlines, List.filterMap_cons]
    cases assignment line <;> rfl

theorem readLines_tidy (h : ∀ line ∈ lines, Tidy line) : readLines (joinLines lines) = lines := by
  have hread := fgetsAll_join (fun line hl => ⟨(h line hl).1, (h line hl).2.2.1⟩) []
  rw [List.append_nil] at hread
  have hnil : fgetsAll tmpstrMax ([] : CStr).length [] = [] := rfl
  rw [hnil, List.append_nil] at hread
  rw [readLines, chunksRead, hread, List.map_map]
  nth_rewrite 2 [← List.map_id lines]
  refine List.map_congr_left fun line hl => ?_
  have hnul : nul ∉ line ++ ['\n'] := by
    intro hm
    rcases List.mem_append.mp hm with hm | hm
    · exact (h line hl).2.1 hm
    · exact absurd (List.mem_singleton.mp hm) (by decide)
  show (cstr (line ++ ['\n'])).dropLast = line
  rw [cstr_of_notMem hnul, List.dropLast_concat]

theorem assignments_join (h : ∀ line ∈ lines, '\n' ∉ line) :
    assignments (joinLines lines) = lines.filterMap assignment := by
  induction lines with
  | nil => rfl
  | cons line lines ih =>
    obtain ⟨hline, hlines⟩ := List.forall_mem_cons.mp h
    have ih := ih hlines
    unfold assignments at ih ⊢
    rw [joinLines_cons, List.splitOn_append_cons_self_of_not_mem hline, List.filterMap_cons,
      List.filterMap_cons, ih]

/-- What tidy lines assign is a text for a plain setting. -/
theorem mem_assignments_tidy (h : ∀ line ∈ lines, Tidy line) {e : Setting × CStr}
    (he : e ∈ lines.filterMap assignment) :
    e.1 ≠ .cacheDir ∧ e.1 ≠ .exclusionPattern ∧ e.2 ≠ [] := by
  obtain ⟨line, hl, hsome⟩ := List.mem_filterMap.mp he
  rcases (h line hl).2.2.2 with ⟨_, hnone⟩ | ⟨s, text, hdir, hpat, _, hline⟩
  · rw [hnone] at hsome
    cases hsome
  · obtain rfl := Option.some.inj (hline.symm.trans hsome)
    exact ⟨hdir, hpat, (assignment_some hline).2⟩

end Tidy

/-- A file of tidy lines is honoured where nothing stands in the way of the default directory. -/
theorem honoured_of_tidy {u : Startup} {home : CStr} {lines : List CStr}
    (hhome : u.getenv .home = some home)
    (hpath : (home ++ '/' :: defaultConfigFile).length < tmpstrMax)
    (hfile : u.fopen (home ++ '/' :: defaultConfigFile) = some (joinLines lines))
    (htidy : ∀ line ∈ lines, Tidy line)
    (hfits : (textTmp ++ '/' :: u.curBucket).length < tmpstrMax)
    (hmk : u.mkdir (textTmp ++ '/' :: u.curBucket) = true)
    (hbucket : ('/' :: u.curBucket).getLast? ≠ some '/') (hdir : u.given .cacheDir = none) :
    Honoured u := by
  have hnl : ∀ line ∈ lines, '\n' ∉ line := fun line hl => (htidy line hl).1
  have htakes : u.takes = (lines.filterMap assignment).map Setting.taken := by
    have hdirname : tmpstr (textTmp ++ '/' :: u.curBucket) = textTmp ++ '/' :: u.curBucket :=
      snprintf_of_lt hfits
    have hname : tmpstr (home ++ '/' :: defaultConfigFile) = home ++ '/' :: defaultConfigFile :=
      snprintf_of_lt hpath
    unfold Startup.takes
    rw [hhome]
    dsimp only
    rw [hdirname, if_pos hmk, hname, hfile]
    dsimp only
    rw [readLines_tidy htidy, linesTake_tidy htidy]
  have hassigned : ∀ s, u.assigned s = Overrides.last
      (fun e => if e.1 = s then some e.2 else none) (lines.filterMap assignment) := by
    intro s
    have hconf : u.confFile = some (joinLines lines) := by
      rw [Startup.confFile, hhome]
      exact hfile
    rw [Startup.assigned, hconf, Option.getD_some, assignments_join hnl]
  have hnone : ∀ s, (∀ e ∈ lines.filterMap assignment, e.1 ≠ s) → u.inFile s = s.default := by
    intro s hs
    have hempty : ((lines.filterMap assignment).filterMap fun e =>
        if e.1 = s then some e.2 else none) = [] := by
      apply List.filterMap_eq_nil_iff.mpr
      intro e he
      exact if_neg (hs e he)
    rw [Startup.inFile, hassigned, Overrides.last, hempty]
    rfl
  have hdirs : u.dirTexts = [] := by
    rw [Startup.dirTexts, htakes, List.filterMap_map]
    apply List.filterMap_eq_nil_iff.mpr
    intro e he
    apply if_neg
    intro hkey
    exact (mem_assignments_tidy htidy he).1 (Setting.key_injective hkey)
  refine ⟨by simp [hhome], ?_, fun s hd hp _ => ?_, fun _ path => ?_, ?_⟩
  · rw [htakes]
    intro hm
    obtain ⟨e, he, heq⟩ := List.mem_map.mp hm
    exact (mem_assignments_tidy htidy he).2.2 (congrArg Prod.snd heq)
  · have hsame : Overrides.last s.takes u.takes = u.assigned s := by
      rw [htakes, hassigned, Overrides.last, Overrides.last, List.filterMap_map]
      refine congrArg List.getLast? (List.filterMap_congr fun e he => ?_)
      have hne := (mem_assignments_tidy htidy he).2.2
      show (if e.1.key = s.key ∧ (e.2 ≠ [] ∨ s.numeric = true) then some e.2 else none) = _
      by_cases hes : e.1 = s
      · rw [if_pos ⟨congrArg Setting.key hes, .inl hne⟩, if_pos hes]
      · rw [if_neg fun h => hes (Setting.key_injective h.1), if_neg hes]
    rw [hsame, Startup.inFile]
    unfold Setting.SameText
    split <;> rfl
  · rw [hnone .exclusionPattern fun e he => (mem_assignments_tidy htidy he).2.1]
    rfl
  · have hsource : u.sourceDir ([] : List CStr).reverse = textTmp := rfl
    rw [hdirs, hsource, DirHonoured, if_pos hfits, Startup.chosen, Setting.var, hdir,
      hnone .cacheDir fun e he => (mem_assignments_tidy htidy he).1]
    exact ⟨rfl, fun _ => hbucket⟩

/-- `conf_ctor` gives every setting its value exactly when the file and the environment are
`Honoured`. -/
theorem conf_effective_iff (u : Startup) (rootDir : Option CStr) (debug : Int) :
    (∃ conf, confCtor u rootDir debug = .ok (0, conf) ∧ Effective u conf) ↔
      Honoured u := by
  constructor
  · rintro ⟨conf, hconf, heff⟩
    have hhome : u.getenv .home ≠ none := fun hnone =>
      confCtor_homeless hnone hconf (heff .cacheDir)
    obtain ⟨hlevel, hfinal⟩ := (confCtor_home hhome).mp hconf
    rw [hfinal] at heff
    refine ⟨hhome, hlevel, ?_, ?_, ?_⟩
    · intro s hdir hpat hgiven
      have h := heff s
      rw [final_value hdir hpat, Startup.chosen, hgiven] at h
      exact (sameText_iff hdir hpat u _ _).mpr h
    · intro hgiven path
      have h := heff .exclusionPattern
      rw [final_pattern, Startup.chosen, Setting.var, hgiven] at h
      exact (congrFun (SettingValue.paths.inj h) path).symm
    · have h := heff .cacheDir
      rw [final_cacheDir] at h
      exact fullPath_eq_iff.mp (SettingValue.text.inj h)
  · intro h
    refine ⟨u.final rootDir debug, (confCtor_home h.home).mpr ⟨h.level, rfl⟩, ?_⟩
    intro s
    by_cases hdir : s = .cacheDir
    · rw [hdir, final_cacheDir, fullPath_eq_iff.mpr h.dir]
      rfl
    · by_cases hpat : s = .exclusionPattern
      · rw [hpat, final_pattern, Startup.chosen, Setting.var]
        cases hgiven : u.given .exclusionPattern with
        | some t => rfl
        | none =>
          refine congrArg SettingValue.paths (funext fun path => ?_)
          exact (h.pattern hgiven path).symm
      · rw [final_value hdir hpat, Startup.chosen]
        cases hgiven : u.given s.var with
        | some t => rfl
        | none => exact (sameText_iff hdir hpat u _ _).mp (h.plain s hdir hpat hgiven)

/-- `DROPLETFS_CACHE_DIR=/big`, and a file with the level and the pattern of the `README`:
`compression_level = 9` and `exclusion_pattern = x`. -/
def Startup.sample : Startup where
  getenv
    | .home => some ['/', 'h']
    | .cacheDir => some ['/', 'b', 'i', 'g']
    | _ => none
  fopen path := if path = ['/', 'h', '/'] ++ defaultConfigFile then
      some (Setting.textCompressionLevel ++ [' ', '=', ' ', '9', '\n'] ++
        ConfKey.exclusionPattern.text ++ [' ', '=', ' ', 'x', '\n'])
    else none
  mkdir _ := true
  curBucket := ['b']
  regcomp pattern := some fun path => path = pattern

/-- The directory, the level and the pattern stay what they are by default. -/
theorem sample_ineffective :
    (confCtor Startup.sample none 0).map
      (fun r => (r.2.cacheDir, r.2.zlibLevel, reMatcher r.2.regex ['x'])) =
        .ok (['/', 't', 'm', 'p', '/', 'b'], 3, false) ∧
    ¬∃ conf, confCtor Startup.sample none 0 = .ok (0, conf) ∧ Effective Startup.sample conf := by
  have hrun : (confCtor Startup.sample none 0).map
      (fun r => (r.2.cacheDir, r.2.zlibLevel, reMatcher r.2.regex ['x'])) =
        .ok (['/', 't', 'm', 'p', '/', 'b'], 3, false) := by decide
  refine ⟨hrun, ?_⟩
  rintro ⟨conf, hconf, heff⟩
  rw [hconf] at hrun
  have hdir : conf.cacheDir = ['/', 't', 'm', 'p', '/', 'b'] :=
    congrArg Prod.fst (Except.ok.inj hrun)
  have hchosen : conf.cacheDir = ['/', 'b', 'i', 'g', '/', 'b'] :=
    SettingValue.text.inj (heff .cacheDir)
  rw [hdir] at hchosen
  simp at hchosen

end DropletFs
