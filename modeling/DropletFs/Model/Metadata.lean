import DropletFs.Model.Types

/-! `metadata.c`: `struct stat` to dictionary and back. -/

namespace DropletFs

open CText

/-- Conversion to `unsigned long`. -/
def toU64 (z : Int) : Nat := (z % 2 ^ 64).toNat

/-- Conversion to a signed 64-bit integer. -/
def toI64 (n : Nat) : Int :=
  if n % 2 ^ 64 < 2 ^ 63 then (n % 2 ^ 64 : Nat) else (n % 2 ^ 64 : Nat) - 2 ^ 64

/-- `%lu`. -/
def ulongText (n : Nat) : CStr := Nat.toDigits 10 n

def isSpace (c : Char) : Bool := c = ' ' || ('\t'.toNat ≤ c.toNat && c.toNat ≤ '\r'.toNat)

/-- The value of the leading decimal digits. -/
def digitsValue : Nat → CStr → Nat
  | n, [] => n
  | n, c :: cs => if c.isDigit then digitsValue (10 * n + (c.toNat - '0'.toNat)) cs else n

/-- `strtoull(text, NULL, 10)`. -/
def strtoull (text : CStr) : Nat :=
  match text.dropWhile isSpace with
  | '-' :: ds =>
    -- out of range is `ULLONG_MAX`, whatever the sign
    if digitsValue 0 ds < 2 ^ 64 then toU64 (-(digitsValue 0 ds : Nat)) else 2 ^ 64 - 1
  | '+' :: ds => min (digitsValue 0 ds) (2 ^ 64 - 1)
  | ds => min (digitsValue 0 ds) (2 ^ 64 - 1)

/-- `updated` is whether `dpl_dict_update_value` goes through. A failure is only logged. -/
def assignMetaToDict (updated : Bool) (dict : Dict) (key : MdKey) (val : Nat) : Dict :=
  if updated then dict.set key (ulongText val) else dict

def fillMetadataFromStat (env : Env) (dict : Dict) (st : Stat) : Dict :=
  let dict := assignMetaToDict (env.lib (.updateMeta .mode)) dict .mode st.mode
  let dict := assignMetaToDict (env.lib (.updateMeta .size)) dict .size (toU64 st.size)
  let dict := assignMetaToDict (env.lib (.updateMeta .uid)) dict .uid st.uid
  let dict := assignMetaToDict (env.lib (.updateMeta .gid)) dict .gid st.gid
  let dict := assignMetaToDict (env.lib (.updateMeta .atime)) dict .atime (toU64 st.atime)
  let dict := assignMetaToDict (env.lib (.updateMeta .mtime)) dict .mtime (toU64 st.mtime)
  assignMetaToDict (env.lib (.updateMeta .ctime)) dict .ctime (toU64 st.ctime)

/-- What `fill_metadata_from_stat` has to write under a key. -/
def Stat.field (st : Stat) : MdKey → Option Nat
  | .mode => some st.mode
  | .size => some (toU64 st.size)
  | .uid => some st.uid
  | .gid => some st.gid
  | .atime => some (toU64 st.atime)
  | .mtime => some (toU64 st.mtime)
  | .ctime => some (toU64 st.ctime)
  | _ => none

/-- A key that is absent reads as `-1`. -/
def metadatatoll (dict : Dict) (name : MdKey) : Int :=
  match dict name with
  | none => -1
  | some value => toI64 (strtoull value)

/-- `STORE_META`: the field keeps its value when the key reads as `-1`. -/
def storeMeta {α : Type} (dict : Dict) (name : MdKey) (cast : Int → α) (old : α) : α :=
  if metadatatoll dict name = -1 then old else cast (metadatatoll dict name)

def toU32 (z : Int) : Nat := (z % 2 ^ 32).toNat

/-- `S_IFLNK`, `S_IFDIR`, `S_IFREG` and the permission bits of the defaults. -/
def sIflnk : Nat := 0o120000
def sIfdir : Nat := 0o040000
def sIfreg : Nat := 0o100000
def sIrusr : Nat := 0o400
def sIwusr : Nat := 0o200
def sIxusr : Nat := 0o100

def fillStatFromMetadata (st : Stat) (dict : Dict) : Stat :=
  let st := { st with
    size := storeMeta dict .size id st.size
    mode := storeMeta dict .mode toU32 st.mode
    uid := storeMeta dict .uid toU32 st.uid
    gid := storeMeta dict .gid toU32 st.gid
    atime := storeMeta dict .atime id st.atime
    ctime := storeMeta dict .ctime id st.ctime
    mtime := storeMeta dict .mtime id st.mtime }
  if (dict .symlink).isSome then { st with mode := st.mode ||| sIflnk } else st

theorem assignMetaToDict_apply (updated : Bool) (dict : Dict) (key : MdKey) (val : Nat)
    (name : MdKey) : assignMetaToDict updated dict key val name =
      if updated = true ∧ name = key then some (ulongText val) else dict name := by
  unfold assignMetaToDict
  cases updated with
  | false => simp
  | true => simp [Dict.set, Function.update_apply]

theorem fillMetadataFromStat_apply (env : Env) (dict : Dict) (st : Stat) (key : MdKey) :
    fillMetadataFromStat env dict st key =
      if env.lib (.updateMeta key) = true then ((st.field key).map ulongText).or (dict key)
      else dict key := by
  cases key <;> simp [fillMetadataFromStat, assignMetaToDict_apply, Stat.field]

/-- A key that is none of the attributes stays as it is. -/
theorem fillMetadataFromStat_other (env : Env) (dict : Dict) (st : Stat) {key : MdKey}
    (h : st.field key = none) : fillMetadataFromStat env dict st key = dict key := by
  simp [fillMetadataFromStat_apply, h]

theorem digitsValue_eq {n : Nat} {cs : CStr} (h : ∀ c ∈ cs, c.isDigit = true) :
    digitsValue n cs = Nat.ofDigitChars 10 cs n := by
  induction cs generalizing n with
  | nil => simp [digitsValue]
  | cons c cs ih =>
    have hc := h c (List.mem_cons_self ..)
    rw [digitsValue, if_pos hc, ih fun d hd => h d (List.mem_cons_of_mem c hd),
      Nat.ofDigitChars_cons]

theorem ulongText_inj {n m : Nat} (h : ulongText n = ulongText m) : n = m := by
  have hval := congrArg (fun text => Nat.ofDigitChars 10 text 0) h
  simpa [ulongText, Nat.ofDigitChars_ten_toDigits] using hval

/-- Reading back what `%lu` writes. -/
theorem strtoull_ulongText {n : Nat} (hn : n < 2 ^ 64) : strtoull (ulongText n) = n := by
  have hdigit : ∀ c ∈ ulongText n, c.isDigit = true := fun c hc =>
    Nat.isDigit_of_mem_toDigits (by decide) (by decide) hc
  have hval : digitsValue 0 (ulongText n) = n := by
    rw [digitsValue_eq hdigit]
    exact Nat.ofDigitChars_ten_toDigits
  have hne : ulongText n ≠ [] := Nat.toDigits_ne_nil
  unfold strtoull
  generalize ulongText n = cs at hdigit hval hne
  cases cs with
  | nil => exact (hne rfl).elim
  | cons c cs =>
    have hc := hdigit c (List.mem_cons_self ..)
    have hspace : isSpace c = false := by
      simp only [Char.isDigit, Bool.and_eq_true, decide_eq_true_eq] at hc
      have h48 : 48 ≤ c.toNat := by simpa [UInt32.le_iff_toNat_le] using hc.1
      have hcr : ('\r').toNat = 13 := rfl
      have hblank : c ≠ ' ' := by
        rintro rfl
        revert h48
        decide
      simp only [isSpace, hblank, decide_false, Bool.false_or, hcr, Bool.and_eq_false_iff,
        decide_eq_false_iff_not]
      right
      omega
    have hminus : c ≠ '-' := by
      rintro rfl
      revert hc
      decide
    have hplus : c ≠ '+' := by
      rintro rfl
      revert hc
      decide
    simp only [List.dropWhile, hspace]
    split
    · rename_i h
      exact (hminus (List.cons.inj h).1).elim
    · rename_i h
      exact (hplus (List.cons.inj h).1).elim
    · rw [hval]
      omega

/-- What `STORE_META` makes of a value below the one that reads as `-1`. -/
theorem storeMeta_ulongText {α : Type} {dict : Dict} {name : MdKey} {n : Nat}
    (h : dict name = some (ulongText n)) (hn : n < 2 ^ 63) (cast : Int → α) (old : α) :
    storeMeta dict name cast old = cast n := by
  have hv : metadatatoll dict name = n := by
    simp only [metadatatoll, h, strtoull_ulongText (show n < 2 ^ 64 by omega), toI64]
    rw [if_pos (by omega)]
    omega
  rw [storeMeta, hv, if_neg (by omega)]

end DropletFs
