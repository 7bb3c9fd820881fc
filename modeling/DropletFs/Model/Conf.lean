import DropletFs.Model.File

/-! `conf.c`, `env.c` and `regex.c`: the configuration a mount starts with. -/

namespace DropletFs

open CText

/-- Conversion to `int`. -/
def toI32 (n : Nat) : Int :=
  if n % 2 ^ 32 < 2 ^ 31 then (n % 2 ^ 32 : Nat) else (n % 2 ^ 32 : Nat) - 2 ^ 32

/-- `HOME`, and the variables whose names start with `DROPLETFS_`. -/
inductive EnvVar
  | home
  | compressionMethod
  | zlibLevel
  | maxRetry
  | gcLoopDelay
  | gcAgeThreshold
  | scLoopDelay
  | scAgeThreshold
  | cacheDir
  | exclusionPattern
  | encryptionMethod
  | cacheMaxSize
  | logLevel
  deriving DecidableEq, Repr

/-- What the daemon finds when it starts: the environment, the files, whether a directory can be
made or is there already, the bucket of the command line, and `regcomp` with `REG_EXTENDED`. -/
structure Startup where
  getenv : EnvVar → Option CStr
  fopen : Path → Option CStr
  mkdir : Path → Bool
  curBucket : CStr
  regcomp : CStr → Option (Path → Bool)

/-- A `char *` that may have been freed. -/
inductive HeldText
  | null
  | text (t : CStr)
  | freed
  deriving DecidableEq, Repr

/-- `struct re`. Without `set` nothing reads `rx`. -/
structure Re where
  str : HeldText
  rx : Path → Bool
  set : Bool

/-- `struct conf`. -/
structure Settings where
  rootDir : Option CStr
  cacheDir : CStr
  compressionMethod : CStr
  zlibLevel : Int
  gcLoopDelay : Int
  gcAgeThreshold : Int
  scLoopDelay : Int
  scAgeThreshold : Int
  maxRetry : Int
  logLevel : Int
  cacheMaxSize : Int
  regex : Re
  encryptionMethod : CStr
  debug : Int

/-- `re_ctor`. -/
def reCtor (u : Startup) (re : Re) (pattern : Option CStr) : Re :=
  match pattern with
  | none => { re with set := false }
  | some [] => { re with set := false }
  | some (c :: cs) =>
    match u.regcomp (c :: cs) with
    | none => { re with set := false }
    | some rx => ⟨.text (c :: cs), rx, true⟩

/-- `re_dtor`. -/
def reDtor (re : Re) : Re := if re.str = .null then re else { re with str := .freed }

/-- `re_matcher`. -/
def reMatcher (re : Re) (path : Path) : Bool := if re.set then re.rx path else false

/-- What the callbacks see of the configuration. -/
def Settings.toConf (conf : Settings) : Conf where
  cacheDir := conf.cacheDir
  rootDir := conf.rootDir.getD []
  compressionMethod := conf.compressionMethod
  zlibLevel := conf.zlibLevel
  encryptionMethod := conf.encryptionMethod
  gcAgeThreshold := conf.gcAgeThreshold
  regex := reMatcher conf.regex

def textNONE : CStr := ['N', 'O', 'N', 'E']
def textTmp : CStr := ['/', 't', 'm', 'p']
def defaultConfigFile : CStr := ['.', 'd', 'p', 'l', 'f', 's', 'r', 'c']

/-- `LOG_ERR`, the default level. -/
def defaultLogLevel : Int := 3

/-- The names of the levels, from `LOG_EMERG` on. -/
def logLevels : List (CStr × Int) :=
  [(['L', 'O', 'G', '_', 'E', 'M', 'E', 'R', 'G'], 0),
   (['L', 'O', 'G', '_', 'A', 'L', 'E', 'R', 'T'], 1),
   (['L', 'O', 'G', '_', 'C', 'R', 'I', 'T'], 2),
   (['L', 'O', 'G', '_', 'E', 'R', 'R'], 3),
   (['L', 'O', 'G', '_', 'W', 'A', 'R', 'N', 'I', 'N', 'G'], 4),
   (['L', 'O', 'G', '_', 'N', 'O', 'T', 'I', 'C', 'E'], 5),
   (['L', 'O', 'G', '_', 'I', 'N', 'F', 'O'], 6),
   (['L', 'O', 'G', '_', 'D', 'E', 'B', 'U', 'G'], 7)]

def strToLogLevel (str : CStr) : Int :=
  match logLevels.find? (fun e => e.1 = str) with
  | some e => e.2
  | none => defaultLogLevel

/-- The loops that remove trailing slashes. In front of the string there is none: it is the end of
the argument before, or the size of the block. -/
def stripSlashes (path : CStr) : CStr := (path.reverse.dropWhile (· = '/')).reverse

theorem stripSlashes_end (path : CStr) : (stripSlashes path).getLast? ≠ some '/' := by
  unfold stripSlashes
  rw [List.getLast?_reverse]
  intro h
  have hc := List.head?_dropWhile_not (fun c => decide (c = '/')) path.reverse
  rw [h] at hc
  simp at hc

/-- The same loops byte by byte, with `p` in front of offset `i`. Nothing compares `p` with the
start of the string, so at the start it reads the byte in front. -/
def trimSlashes (buf : List Char) : Nat → Except Fault (List Char)
  | 0 => .error .outOfBounds
  | i + 1 =>
    if buf[i]? ≠ some nul ∧ buf[i]? = some '/' then trimSlashes (buf.set i nul) i else .ok buf

/-- `conf_set_root_dir`, which trims its argument in place. -/
def confSetRootDir (conf : Settings) (rootDir : Option CStr) : Except Fault Settings :=
  match rootDir with
  | none => .ok conf
  | some dir => do
    let buf ← trimSlashes (dir ++ [nul]) dir.length
    .ok { conf with rootDir := some (cstr buf) }

/-- `conf_ctor_default` on the record of `conf_new`, which is all zero. -/
def confCtorDefault (u : Startup) (rootDir : Option CStr) : Settings where
  rootDir := rootDir.map stripSlashes
  cacheDir := textTmp
  compressionMethod := textNONE
  zlibLevel := 3
  gcLoopDelay := 60
  gcAgeThreshold := 900
  scLoopDelay := 0
  scAgeThreshold := 0
  maxRetry := 5
  logLevel := defaultLogLevel
  cacheMaxSize := 10 * 1024 * 1024
  regex := reCtor u ⟨.null, fun _ => false, false⟩ none
  encryptionMethod := textNONE
  debug := 0

/-- `conf_set_full_cache_dir`: `false` is the `-1` after a failed `mkdir`, with the path kept. -/
def confSetFullCacheDir (u : Startup) (conf : Settings) : Bool × Settings :=
  let cache := tmpstr (conf.cacheDir ++ '/' :: u.curBucket)
  if u.mkdir cache then (true, { conf with cacheDir := stripSlashes cache })
  else (false, { conf with cacheDir := cache })

/-- `conf_set_full_cache_dir` byte by byte. -/
def confSetFullCacheDirBytes (u : Startup) (conf : Settings) : Except Fault (Bool × Settings) :=
  let cache := tmpstr (conf.cacheDir ++ '/' :: u.curBucket)
  if u.mkdir cache then do
    let buf ← trimSlashes (cache ++ [nul]) cache.length
    .ok (true, { conf with cacheDir := cstr buf })
  else .ok (false, { conf with cacheDir := cache })

/-- The names `parse_token` tries. -/
inductive ConfKey
  | compressionMethod
  | zlibLevel
  | maxRetry
  | gcLoopDelay
  | gcAgeThreshold
  | scLoopDelay
  | scAgeThreshold
  | cacheDir
  | exclusionPattern
  | encryptionMethod
  | cacheMaxSize
  | logLevel
  deriving DecidableEq, Repr

def ConfKey.text : ConfKey → CStr
  | compressionMethod =>
    ['c', 'o', 'm', 'p', 'r', 'e', 's', 's', 'i', 'o', 'n', '_', 'm', 'e', 't', 'h', 'o', 'd']
  | zlibLevel => ['z', 'l', 'i', 'b', '_', 'l', 'e', 'v', 'e', 'l']
  | maxRetry => ['m', 'a', 'x', '_', 'r', 'e', 't', 'r', 'y']
  | gcLoopDelay => ['g', 'c', '_', 'l', 'o', 'o', 'p', '_', 'd', 'e', 'l', 'a', 'y']
  | gcAgeThreshold =>
    ['g', 'c', '_', 'a', 'g', 'e', '_', 't', 'h', 'r', 'e', 's', 'h', 'o', 'l', 'd']
  | scLoopDelay => ['s', 'c', '_', 'l', 'o', 'o', 'p', '_', 'd', 'e', 'l', 'a', 'y']
  | scAgeThreshold =>
    ['s', 'c', '_', 'a', 'g', 'e', '_', 't', 'h', 'r', 'e', 's', 'h', 'o', 'l', 'd']
  | cacheDir => ['c', 'a', 'c', 'h', 'e', '_', 'd', 'i', 'r']
  | exclusionPattern =>
    ['e', 'x', 'c', 'l', 'u', 's', 'i', 'o', 'n', '_', 'p', 'a', 't', 't', 'e', 'r', 'n']
  | encryptionMethod =>
    ['e', 'n', 'c', 'r', 'y', 'p', 't', 'i', 'o', 'n', '_', 'm', 'e', 't', 'h', 'o', 'd']
  | cacheMaxSize => ['c', 'a', 'c', 'h', 'e', '_', 'm', 'a', 'x', '_', 's', 'i', 'z', 'e']
  | logLevel => ['l', 'o', 'g', '_', 'l', 'e', 'v', 'e', 'l']

/-- The order of the tests in `parse_token`. -/
def confKeys : List ConfKey :=
  [.compressionMethod, .zlibLevel, .maxRetry, .gcLoopDelay, .gcAgeThreshold, .scLoopDelay,
    .scAgeThreshold, .cacheDir, .exclusionPattern, .encryptionMethod, .cacheMaxSize, .logLevel]

/-- The text after the first `=`, from its first character that is no space. -/
def assignedText (line : CStr) : Option CStr :=
  match line.dropWhile (· ≠ '=') with
  | [] => none
  | _ :: p => some (p.dropWhile isSpace)

/-- `parse_int`: the new value of the field, or the `-1` of a line without `=`. -/
def parseInt (line : CStr) : Option Int := (assignedText line).map fun p => toI32 (strtoull p)

/-- `parse_str`: an empty text leaves the field as it is. -/
def parseStr (field line : CStr) : Option CStr :=
  (assignedText line).map fun p => if p = [] then field else p

/-- The configuration, the slot of the ring that holds the line, and how many calls of
`tmpstr_new` are left before the ring comes round to that slot. -/
structure Parser where
  conf : Settings
  buf : List Char
  left : Nat

/-- The string at an offset of the buffer. -/
def Parser.token (p : Parser) (line : Nat) : CStr := (p.buf.drop line).takeWhile (· ≠ nul)

/-- `tmpstr_printf` while the buffer is in use. -/
def Parser.tmpstrPrintf (p : Parser) (text : CStr) : Parser :=
  match p.left with
  | 0 => { p with
      buf := tmpstr text ++ nul :: p.buf.drop ((tmpstr text).length + 1)
      left := tmpstrNb - 1 }
  | n + 1 => { p with left := n }

/-- A branch of `parse_token` with `parse_int` or `parse_str` only. -/
def Parser.keep {α : Type} (p : Parser) (value : Option α) (store : α → Settings) :
    Bool × Parser :=
  match value with
  | none => (false, p)
  | some v => (true, { p with conf := store v })

/-- The branch of `parse_token` for a key; `false` is its `-1`. -/
def parseField (u : Startup) (p : Parser) (line : Nat) (key : ConfKey) :
    Except Fault (Bool × Parser) :=
  let conf := p.conf
  let token := p.token line
  match key with
  | .compressionMethod => .ok (p.keep (parseStr conf.compressionMethod token) fun v =>
      { conf with compressionMethod := v })
  | .zlibLevel => .ok (p.keep (parseInt token) fun v => { conf with zlibLevel := v })
  | .maxRetry => .ok (p.keep (parseInt token) fun v => { conf with maxRetry := v })
  | .gcLoopDelay => .ok (p.keep (parseInt token) fun v => { conf with gcLoopDelay := v })
  | .gcAgeThreshold => .ok (p.keep (parseInt token) fun v => { conf with gcAgeThreshold := v })
  | .scLoopDelay => .ok (p.keep (parseInt token) fun v => { conf with scLoopDelay := v })
  | .scAgeThreshold => .ok (p.keep (parseInt token) fun v => { conf with scAgeThreshold := v })
  | .cacheDir =>
    match parseStr conf.cacheDir token with
    | none => .ok (false, p)
    | some dir =>
      let res := confSetFullCacheDir u { conf with cacheDir := dir }
      .ok (res.1, { p.tmpstrPrintf (dir ++ '/' :: u.curBucket) with conf := res.2 })
  -- the text is kept and never compiled
  | .exclusionPattern => .ok (p.keep (assignedText token) fun v =>
      if v = [] then conf else { conf with regex := { conf.regex with str := .text v } })
  | .encryptionMethod => .ok (p.keep (parseStr conf.encryptionMethod token) fun v =>
      { conf with encryptionMethod := v })
  | .cacheMaxSize => .ok (p.keep (parseInt token) fun v => { conf with cacheMaxSize := v })
  | .logLevel =>
    match assignedText token with
    | none => .ok (false, p)
    -- `parse_str` leaves `log` null, and `str_to_log_level` compares it
    | some [] => .error .nullDeref
    | some (c :: cs) =>
      .ok (true, { p with conf := { conf with logLevel := strToLogLevel (c :: cs) } })

/-- The tests of `parse_token` from some key on. Each reads the token again. -/
def parseFields (u : Startup) (line : Nat) : List ConfKey → Parser → Except Fault (Bool × Parser)
  | [], p => .ok (true, p)
  | key :: keys, p =>
    if startsWithNoCase (p.token line) key.text then do
      let res ← parseField u p line key
      if res.1 then parseFields u line keys res.2 else .ok (false, res.2)
    else parseFields u line keys p

def parseToken (u : Startup) (p : Parser) (line : Nat) : Except Fault (Bool × Parser) :=
  parseFields u line confKeys p

def parseLine (u : Startup) (p : Parser) : Except Fault (Bool × Parser) :=
  if p.token 0 = [] then .ok (true, p)
  else
    let line := ((p.token 0).takeWhile isSpace).length
    if (p.token line).head? = some '#' then .ok (true, p) else parseToken u p line

/-- `fgets`, and the last byte of what it read cut off, newline or not. -/
def Parser.readLine (p : Parser) (chunk : CStr) : Parser :=
  let buf := chunk ++ nul :: p.buf.drop (chunk.length + 1)
  let len := (buf.takeWhile (· ≠ nul)).length
  { p with buf := if len = 0 then buf else buf.set (len - 1) nul }

/-- The loop of `parse_file` over what `fgets` reads. -/
def parseLines (u : Startup) : List CStr → Parser → Except Fault (Bool × Parser)
  | [], p => .ok (true, p)
  | chunk :: chunks, p => do
    let res ← parseLine u (p.readLine chunk)
    if res.1 then parseLines u chunks res.2 else .ok (false, res.2)

/-- `parse_file`. The buffer is the third slot taken from a ring of zeros. -/
def parseFile (u : Startup) (conf : Settings) (path : Path) : Except Fault (Bool × Settings) :=
  match u.fopen path with
  | none => .ok (true, conf)
  | some stream => do
    let res ← parseLines u (fgetsAll tmpstrMax stream.length stream)
      ⟨conf, List.replicate tmpstrMax nul, tmpstrNb - 1⟩
    .ok (res.1, res.2.conf)

def envGenericSetInt (u : Startup) (var : Int) (id : EnvVar) : Int :=
  match u.getenv id with
  | none => var
  | some [] => var
  | some (c :: cs) => toI32 (strtoull (c :: cs))

def envGenericSetStr (u : Startup) (var : CStr) (id : EnvVar) : CStr :=
  match u.getenv id with
  | none => var
  | some [] => var
  | some (c :: cs) => c :: cs

def envSetLogLevel (u : Startup) (level : Int) : Int :=
  match u.getenv .logLevel with
  | none => level
  | some [] => level
  | some (c :: cs) => strToLogLevel (c :: cs)

def envSetExclusionPattern (u : Startup) (regex : Re) : Re :=
  match u.getenv .exclusionPattern with
  | none => regex
  | some pattern => reCtor u (reDtor regex) (some pattern)

/-- `env_override_conf`. No function of `env.c` reads `DROPLETFS_CACHE_DIR`. -/
def envOverrideConf (u : Startup) (conf : Settings) : Settings :=
  { conf with
    compressionMethod := envGenericSetStr u conf.compressionMethod .compressionMethod
    zlibLevel := envGenericSetInt u conf.zlibLevel .zlibLevel
    maxRetry := envGenericSetInt u conf.maxRetry .maxRetry
    gcLoopDelay := envGenericSetInt u conf.gcLoopDelay .gcLoopDelay
    gcAgeThreshold := envGenericSetInt u conf.gcAgeThreshold .gcAgeThreshold
    scLoopDelay := envGenericSetInt u conf.scLoopDelay .scLoopDelay
    scAgeThreshold := envGenericSetInt u conf.scAgeThreshold .scAgeThreshold
    regex := envSetExclusionPattern u conf.regex
    cacheMaxSize := envGenericSetInt u conf.cacheMaxSize .cacheMaxSize
    logLevel := envSetLogLevel u conf.logLevel
    encryptionMethod := envGenericSetStr u conf.encryptionMethod .encryptionMethod }

/-- The part of `conf_ctor` before the environment: without `HOME` neither the bucket is added to
the cache directory nor a file read, and a parse error ends the reading. -/
def confFromFile (u : Startup) (conf : Settings) : Except Fault Settings :=
  match u.getenv .home with
  | none => .ok conf
  | some home =>
    let path := tmpstr (home ++ '/' :: defaultConfigFile)
    let res := confSetFullCacheDir u conf
    if res.1 then (parseFile u res.2 path).map (·.2) else .ok res.2

/-- `conf_ctor`. With memory for its strings it returns `0` whenever it returns. -/
def confCtor (u : Startup) (rootDir : Option CStr) (debug : Int) : Except Fault (Int × Settings) :=
  (confFromFile u (confCtorDefault u rootDir)).map fun conf =>
    (0, { envOverrideConf u conf with debug := debug })

end DropletFs
