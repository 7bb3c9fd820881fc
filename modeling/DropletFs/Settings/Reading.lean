import DropletFs.Framework.Fault
import DropletFs.Model.Conf

/-! What the parser takes from a configuration file: a list of assignments, applied in order. -/

namespace DropletFs

open CText

/-- A key and the text after the `=`. -/
abbrev Assignment := ConfKey × CStr

/-- `conf_set_full_cache_dir` on a directory: the path it stores. -/
def Startup.fullPath (u : Startup) (dir : CStr) : CStr :=
  let cache := tmpstr (dir ++ '/' :: u.curBucket)
  if u.mkdir cache then stripSlashes cache else cache

/-- The effect of one assignment on the configuration. -/
def Settings.assign (u : Startup) (conf : Settings) (e : Assignment) : Settings :=
  match e.1 with
  | .compressionMethod =>
    { conf with compressionMethod := if e.2 = [] then conf.compressionMethod else e.2 }
  | .zlibLevel => { conf with zlibLevel := toI32 (strtoull e.2) }
  | .maxRetry => { conf with maxRetry := toI32 (strtoull e.2) }
  | .gcLoopDelay => { conf with gcLoopDelay := toI32 (strtoull e.2) }
  | .gcAgeThreshold => { conf with gcAgeThreshold := toI32 (strtoull e.2) }
  | .scLoopDelay => { conf with scLoopDelay := toI32 (strtoull e.2) }
  | .scAgeThreshold => { conf with scAgeThreshold := toI32 (strtoull e.2) }
  | .cacheDir => { conf with cacheDir := u.fullPath (if e.2 = [] then conf.cacheDir else e.2) }
  | .exclusionPattern =>
    if e.2 = [] then conf else { conf with regex := { conf.regex with str := .text e.2 } }
  | .encryptionMethod =>
    { conf with encryptionMethod := if e.2 = [] then conf.encryptionMethod else e.2 }
  | .cacheMaxSize => { conf with cacheMaxSize := toI32 (strtoull e.2) }
  | .logLevel => { conf with logLevel := strToLogLevel e.2 }

/-- `log_level =` leaves the string null that is compared next. -/
def noLevel : Assignment := (.logLevel, [])

/-- Reading goes on after the assignment. -/
def Assignment.goesOn (u : Startup) (conf : Settings) (e : Assignment) : Bool :=
  if e.1 = .cacheDir then
    u.mkdir (tmpstr ((if e.2 = [] then conf.cacheDir else e.2) ++ '/' :: u.curBucket))
  else true

/-- The parser after an assignment. Only the cache directory takes a slot of the ring. -/
def Parser.assign (u : Startup) (p : Parser) (e : Assignment) : Parser :=
  let q := if e.1 = .cacheDir then
      p.tmpstrPrintf ((if e.2 = [] then p.conf.cacheDir else e.2) ++ '/' :: u.curBucket)
    else p
  { q with conf := p.conf.assign u e }

/-- The assignments of a token, among the keys from some one on. -/
def tokenTakes (u : Startup) (line : Nat) : List ConfKey → Parser → List Assignment
  | [], _ => []
  | key :: keys, p =>
    if startsWithNoCase (p.token line) key.text then
      match assignedText (p.token line) with
      | none => []
      | some text =>
        if (key, text) ≠ noLevel ∧ Assignment.goesOn u p.conf (key, text) then
          (key, text) :: tokenTakes u line keys (p.assign u (key, text))
        else [(key, text)]
    else tokenTakes u line keys p

/-- The assignments of the line in the buffer. -/
def lineTakes (u : Startup) (p : Parser) : List Assignment :=
  if p.token 0 = [] then []
  else
    let line := ((p.token 0).takeWhile isSpace).length
    if (p.token line).head? = some '#' then [] else tokenTakes u line confKeys p

/-- The assignments of a file, to the line where reading stops. -/
def fileTakes (u : Startup) : List CStr → Parser → List Assignment
  | [], _ => []
  | chunk :: chunks, p =>
    lineTakes u (p.readLine chunk) ++
      match parseLine u (p.readLine chunk) with
      | .ok (true, q) => fileTakes u chunks q
      | _ => []

section Parse

variable {u : Startup} {p q : Parser} {line : Nat} {key : ConfKey} {text : CStr} {ok : Bool}

theorem parseField_none (h : assignedText (p.token line) = none) :
    parseField u p line key = .ok (false, p) := by
  cases key <;> simp [parseField, parseInt, parseStr, Parser.keep, h]

theorem confSetFullCacheDir_eq (u : Startup) (conf : Settings) :
    confSetFullCacheDir u conf = (u.mkdir (tmpstr (conf.cacheDir ++ '/' :: u.curBucket)),
      { conf with cacheDir := u.fullPath conf.cacheDir }) := by
  unfold confSetFullCacheDir Startup.fullPath
  cases h : u.mkdir (tmpstr (conf.cacheDir ++ '/' :: u.curBucket)) <;> simp [h]

theorem parseField_some (h : assignedText (p.token line) = some text) :
    parseField u p line key = if (key, text) = noLevel then .error .nullDeref
    else .ok (Assignment.goesOn u p.conf (key, text), p.assign u (key, text)) := by
  have hsound : key ≠ .logLevel → (key, text) ≠ noLevel := by
    intro hne he
    exact hne (congrArg Prod.fst he)
  cases key with
  | cacheDir =>
    rw [if_neg (hsound (by decide))]
    simp only [parseField, parseStr, h, Option.map_some, confSetFullCacheDir_eq]
    rfl
  | exclusionPattern =>
    rw [if_neg (hsound (by decide))]
    simp only [parseField, Parser.keep, h]
    rfl
  | logLevel =>
    cases text with
    | nil =>
      rw [if_pos (by rfl)]
      simp [parseField, h]
    | cons c cs =>
      rw [if_neg (by simp [noLevel])]
      simp only [parseField, h]
      rfl
  | _ =>
    rw [if_neg (hsound (by decide))]
    simp only [parseField, parseInt, parseStr, Parser.keep, h, Option.map_some]
    rfl

end Parse

/-- The parser has applied the assignments, or stopped dead at one of them. -/
def Applied (u : Startup) (conf : Settings) (log : List Assignment) :
    Except Fault (Bool × Parser) → Prop
  | .error _ => noLevel ∈ log
  | .ok res => noLevel ∉ log ∧ res.2.conf = log.foldl (Settings.assign u) conf

section Apply

variable {u : Startup} {p q : Parser} {log later : List Assignment}
  {res : Except Fault (Bool × Parser)}

theorem Applied.nil (ok : Bool) : Applied u p.conf [] (.ok (ok, p)) :=
  ⟨List.not_mem_nil, rfl⟩

/-- What is applied later goes on from where the parser stood. -/
theorem Applied.append {ok : Bool} (h : Applied u p.conf log (.ok (ok, q)))
    (hlater : Applied u q.conf later res) : Applied u p.conf (log ++ later) res := by
  cases res with
  | error e => exact List.mem_append_right log hlater
  | ok r =>
    obtain ⟨hnone, hconf⟩ := h
    refine ⟨?_, ?_⟩
    · rw [List.mem_append, not_or]
      exact ⟨hnone, hlater.1⟩
    · rw [List.foldl_append, ← hconf]
      exact hlater.2

theorem parseFields_applied (u : Startup) (line : Nat) (keys : List ConfKey) (p : Parser) :
    Applied u p.conf (tokenTakes u line keys p) (parseFields u line keys p) := by
  induction keys generalizing p with
  | nil => exact .nil true
  | cons key keys ih =>
    by_cases hkey : startsWithNoCase (p.token line) key.text
    · rw [parseFields, if_pos hkey, tokenTakes, if_pos hkey]
      cases htext : assignedText (p.token line) with
      | none =>
        rw [parseField_none htext]
        exact .nil false
      | some text =>
        rw [parseField_some htext]
        dsimp only
        by_cases hlevel : (key, text) = noLevel
        · rw [if_pos hlevel, if_neg (by simp [hlevel])]
          show noLevel ∈ [(key, text)]
          rw [hlevel]
          exact List.mem_singleton_self noLevel
        · have hone : ∀ ok, Applied u p.conf [(key, text)] (.ok (ok, p.assign u (key, text))) := by
            intro ok
            refine ⟨?_, rfl⟩
            rw [List.mem_singleton]
            exact Ne.symm hlevel
          rw [if_neg hlevel]
          cases hgo : Assignment.goesOn u p.conf (key, text) with
          | false =>
            rw [if_neg (by simp)]
            exact hone false
          | true =>
            rw [if_pos ⟨hlevel, rfl⟩]
            exact (hone true).append (ih (p.assign u (key, text)))
    · rw [parseFields, if_neg hkey, tokenTakes, if_neg hkey]
      exact ih p

theorem parseLine_applied (u : Startup) (p : Parser) :
    Applied u p.conf (lineTakes u p) (parseLine u p) := by
  unfold lineTakes parseLine
  by_cases hempty : p.token 0 = []
  · rw [if_pos hempty, if_pos hempty]
    exact .nil true
  · rw [if_neg hempty, if_neg hempty]
    dsimp only
    by_cases hnote : (p.token ((p.token 0).takeWhile isSpace).length).head? = some '#'
    · rw [if_pos hnote, if_pos hnote]
      exact .nil true
    · rw [if_neg hnote, if_neg hnote]
      exact parseFields_applied u _ confKeys p

/-- The loop of `parse_file` applies the assignments of the file in order. -/
theorem parseLines_applied (u : Startup) (chunks : List CStr) (p : Parser) :
    Applied u p.conf (fileTakes u chunks p) (parseLines u chunks p) := by
  induction chunks generalizing p with
  | nil => exact .nil true
  | cons chunk chunks ih =>
    have hline := parseLine_applied u (p.readLine chunk)
    rw [parseLines, fileTakes]
    cases hres : parseLine u (p.readLine chunk) with
    | error e =>
      rw [hres] at hline
      exact List.mem_append_left [] hline
    | ok r =>
      obtain ⟨ok, q⟩ := r
      rw [hres] at hline
      cases ok with
      | false => exact hline.append (.nil false)
      | true => exact hline.append (ih q)

end Apply

/-- No environment and no file, and every directory can be made. -/
def Startup.bare : Startup where
  getenv _ := none
  fopen _ := none
  mkdir _ := true
  curBucket := ['b']
  regcomp _ := none

end DropletFs
