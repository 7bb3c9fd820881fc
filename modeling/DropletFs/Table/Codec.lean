import Mathlib.Logic.Function.Basic
import DropletFs.Model.Metadata

/-! `fill_metadata_from_stat` and `fill_stat_from_metadata` one after the other. -/

namespace DropletFs

/-- What a field of 64 bits with a sign can hold. -/
def IsInt64 (z : Int) : Prop := -2 ^ 63 ≤ z ∧ z < 2 ^ 63

/-- The widths of the fields. -/
structure Stat.InRange (st : Stat) : Prop where
  mode : st.mode < 2 ^ 32
  uid : st.uid < 2 ^ 32
  gid : st.gid < 2 ^ 32
  size : IsInt64 st.size
  atime : IsInt64 st.atime
  mtime : IsInt64 st.mtime
  ctime : IsInt64 st.ctime

/-- The attributes a dictionary carries are the same. -/
structure Stat.Carried (s t : Stat) : Prop where
  mode : t.mode = s.mode
  size : t.size = s.size
  uid : t.uid = s.uid
  gid : t.gid = s.gid
  atime : t.atime = s.atime
  mtime : t.mtime = s.mtime
  ctime : t.ctime = s.ctime

/-- The value under a key does not read as the one that stands for an absent key, or the base has
that value. Where the update fails, what was there before reads as the field. -/
def SignedReads (env : Env) (dict : Dict) (key : MdKey) (old z : Int) : Prop :=
  if env.lib (.updateMeta key) = true then z = -1 → old = -1
  else storeMeta dict key id old = z

def UnsignedReads (env : Env) (dict : Dict) (key : MdKey) (old n : Nat) : Prop :=
  env.lib (.updateMeta key) = true ∨ storeMeta dict key toU32 old = n

structure Stat.Readable (env : Env) (dict : Dict) (s base : Stat) : Prop where
  mode : UnsignedReads env dict .mode base.mode s.mode
  size : SignedReads env dict .size base.size s.size
  uid : UnsignedReads env dict .uid base.uid s.uid
  gid : UnsignedReads env dict .gid base.gid s.gid
  atime : SignedReads env dict .atime base.atime s.atime
  mtime : SignedReads env dict .mtime base.mtime s.mtime
  ctime : SignedReads env dict .ctime base.ctime s.ctime

theorem toI64_toU64 {z : Int} (hz : IsInt64 z) : toI64 (toU64 z) = z := by
  obtain ⟨hlo, hhi⟩ := hz
  unfold toI64 toU64
  split <;> omega

theorem toU64_lt (z : Int) : toU64 z < 2 ^ 64 := by
  unfold toU64
  omega

section Fields

variable {dict : Dict} {name : MdKey} {old : Int}

/-- A signed field comes back, unless it is the mark of an absent key. -/
theorem storeMeta_signed (old : Int) {z : Int} (h : dict name = some (ulongText (toU64 z)))
    (hz : IsInt64 z) :
    storeMeta dict name id old = z ↔ (z = -1 → old = -1) := by
  have hread : metadatatoll dict name = z := by
    rw [metadatatoll, h]
    dsimp only
    rw [strtoull_ulongText (toU64_lt z), toI64_toU64 hz]
  rw [storeMeta, hread]
  by_cases hm : z = -1
  · simp [hm]
  · simp [hm]

/-- A field of 32 bits without a sign always comes back. -/
theorem storeMeta_unsigned {n base : Nat} (h : dict name = some (ulongText n)) (hn : n < 2 ^ 32) :
    storeMeta dict name toU32 base = n := by
  rw [storeMeta_ulongText h (by omega), toU32]
  omega

theorem storeMeta_congr {α : Type} {dict dict' : Dict} (h : dict name = dict' name)
    (cast : Int → α) (base : α) : storeMeta dict name cast base = storeMeta dict' name cast base := by
  unfold storeMeta metadatatoll
  rw [h]

theorem storeMeta_filled_signed (env : Env) (dict : Dict) (key : MdKey) {s : Stat} {z : Int}
    (hf : s.field key = some (toU64 z)) (hz : IsInt64 z) (old : Int) :
    storeMeta (fillMetadataFromStat env dict s) key id old = z ↔
      SignedReads env dict key old z := by
  have hkey := fillMetadataFromStat_apply env dict s key
  unfold SignedReads
  by_cases hup : env.lib (.updateMeta key) = true
  · rw [if_pos hup, hf] at hkey
    rw [if_pos hup]
    exact storeMeta_signed old hkey hz
  · rw [if_neg hup] at hkey
    rw [if_neg hup, storeMeta_congr hkey]

theorem storeMeta_filled_unsigned (env : Env) (dict : Dict) (key : MdKey) {s : Stat} {n : Nat}
    (hf : s.field key = some n) (hn : n < 2 ^ 32) (old : Nat) :
    storeMeta (fillMetadataFromStat env dict s) key toU32 old = n ↔
      UnsignedReads env dict key old n := by
  have hkey := fillMetadataFromStat_apply env dict s key
  unfold UnsignedReads
  by_cases hup : env.lib (.updateMeta key) = true
  · rw [if_pos hup, hf] at hkey
    exact iff_of_true (storeMeta_unsigned hkey hn) (.inl hup)
  · rw [if_neg hup] at hkey
    rw [storeMeta_congr hkey, or_iff_right hup]

end Fields

/-- What is decoded is what was encoded exactly when every field is `Readable`. -/
theorem metadata_roundtrip_iff {s : Stat} (hs : s.InRange) (env : Env) (base : Stat) {dict : Dict}
    (hlink : dict .symlink = none) :
    s.Carried (fillStatFromMetadata base (fillMetadataFromStat env dict s)) ↔
      s.Readable env dict base := by
  have hmode := storeMeta_filled_unsigned env dict .mode (s := s) rfl hs.mode base.mode
  have hsize := storeMeta_filled_signed env dict .size (s := s) rfl hs.size base.size
  have huid := storeMeta_filled_unsigned env dict .uid (s := s) rfl hs.uid base.uid
  have hgid := storeMeta_filled_unsigned env dict .gid (s := s) rfl hs.gid base.gid
  have hatime := storeMeta_filled_signed env dict .atime (s := s) rfl hs.atime base.atime
  have hmtime := storeMeta_filled_signed env dict .mtime (s := s) rfl hs.mtime base.mtime
  have hctime := storeMeta_filled_signed env dict .ctime (s := s) rfl hs.ctime base.ctime
  have hplain : ((fillMetadataFromStat env dict s) .symlink).isSome = false := by
    rw [fillMetadataFromStat_other env dict s rfl, hlink]
    rfl
  unfold fillStatFromMetadata
  dsimp only
  rw [if_neg (by simp [hplain])]
  constructor
  · intro h
    exact ⟨hmode.mp h.mode, hsize.mp h.size, huid.mp h.uid, hgid.mp h.gid, hatime.mp h.atime,
      hmtime.mp h.mtime, hctime.mp h.ctime⟩
  · intro h
    exact ⟨hmode.mpr h.mode, hsize.mpr h.size, huid.mpr h.uid, hgid.mpr h.gid,
      hatime.mpr h.atime, hmtime.mpr h.mtime, hctime.mpr h.ctime⟩

/-- A file last written one second before the epoch. -/
def Stat.early : Stat := { Stat.zero with mode := 0o100644, mtime := -1 }

theorem Stat.early_inRange : Stat.early.InRange := by
  constructor <;> simp [Stat.early, Stat.zero, IsInt64]

theorem metadata_roundtrip_early :
    Stat.early.Carried (fillStatFromMetadata { Stat.zero with mtime := -1 }
      (fillMetadataFromStat Env.quiet Dict.empty Stat.early)) :=
  (metadata_roundtrip_iff Stat.early_inRange Env.quiet _ rfl).mpr
    ⟨.inl rfl, nofun, .inl rfl, .inl rfl, nofun, fun _ => rfl, nofun⟩

/-- On a zeroed base its time is read back as the epoch. -/
theorem early_mtime_lost :
    ¬Stat.early.Carried
      (fillStatFromMetadata Stat.zero (fillMetadataFromStat Env.quiet Dict.empty Stat.early)) := by
  intro h
  have hkept : storeMeta (fillMetadataFromStat Env.quiet Dict.empty Stat.early) .mtime id 0 = -1 :=
    h.mtime
  have hread := (storeMeta_filled_signed Env.quiet Dict.empty .mtime (s := Stat.early) rfl
    Stat.early_inRange.mtime _).mp hkept
  exact absurd (hread rfl) (by decide)

end DropletFs
