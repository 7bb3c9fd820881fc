import DropletFs.Table.Removal
import DropletFs.Model.Sample
import Mathlib.Data.List.TakeWhile

/-! The names the callbacks build for a path's file in the cache. -/

namespace DropletFs

open CText

/-- The functions that build a name in the cache for a path. -/
inductive CacheUser
  | buildCacheTree
  | dfsGetLocalCopy
  | dfsRelease
  | dfsUnlink
  | dfsRmdir
  | gcCallback
  | pentryUnlinkCacheFile
  deriving DecidableEq

/-- `open` leaves out the slashes the path starts with, the download adds none of its own. -/
def cacheName (cx : Ctx) : CacheUser → Path → Path
  | .buildCacheTree, path => buildCacheTree cx path
  | .dfsGetLocalCopy, path => localName cx path
  | _, path => slashName cx path

/-- Two names of the cache denote one file. -/
def SameCacheFile (a b : Path) : Prop := collapse a = collapse b

instance (a b : Path) : Decidable (SameCacheFile a b) := inferInstanceAs (Decidable (_ = _))

/-- Every function names one file for each of two paths, and never one file for both when
the paths differ in more than repeated slashes. -/
structure NamesApart (cx : Ctx) (p q : Path) : Prop where
  left : ∀ u v, SameCacheFile (cacheName cx u p) (cacheName cx v p)
  right : ∀ u v, SameCacheFile (cacheName cx u q) (cacheName cx v q)
  apart : collapse p ≠ collapse q → ∀ u v, ¬SameCacheFile (cacheName cx u p) (cacheName cx v q)

section Sites

variable (cx : Ctx) (env : Env) (s t : World) (pe : Entry) (path : Path)

example : gcRemove cx env s path =
    { s with fs := s.fs.tryUnlink env .unlinkGc (cacheName cx .gcCallback path) }.hashRemove path :=
  rfl

example : (s.pentryUnlinkCacheFile cx env pe).fs =
    s.fs.tryUnlink env (.unlinkDestroy pe.path)
      (cacheName cx .pentryUnlinkCacheFile pe.path) := rfl

example (h : s.unlinkCacheFile cx env (.ext path) = .ok t) :
    t.fs = s.fs.tryUnlink env (.unlinkCache path) (cacheName cx .dfsUnlink path) := by
  rw [(World.unlinkCacheFile_ok h).2]
  rfl

end Sites

/-- The bytes of the buffer that are left after the cache directory and a slash. -/
def Ctx.room (cx : Ctx) : Nat := tmpstrMax - 2 - cx.conf.cacheDir.length

/-- A path without the slashes it starts with. -/
def stem (path : Path) : Path := path.dropWhile (· = '/')

/-- How many slashes a path starts with. -/
def slashes (path : Path) : Nat := (path.takeWhile (· = '/')).length

theorem slashes_stem (path : Path) : List.replicate (slashes path) '/' ++ stem path = path := by
  have h : List.replicate (slashes path) '/' = path.takeWhile (· = '/') := by
    symm
    apply List.eq_replicate_of_mem
    intro c hc
    simpa using List.mem_takeWhile_imp hc
  rw [h]
  exact List.takeWhile_append_dropWhile

theorem slashes_pos {path : Path} (h : path.head? = some '/') : 0 < slashes path := by
  cases path with
  | nil => cases h
  | cons c cs =>
    obtain rfl : c = '/' := by simpa using h
    simp [slashes]

/-- The slashes between the one after the cache directory and the stem of the path. -/
def CacheUser.extra (path : Path) : CacheUser → Nat
  | .buildCacheTree => 0
  | .dfsGetLocalCopy => slashes path - 1
  | _ => slashes path

theorem CacheUser.extra_le (path : Path) (u : CacheUser) : u.extra path ≤ slashes path := by
  cases u <;> simp [CacheUser.extra]

theorem cacheName_eq (cx : Ctx) {path : Path} (h : path.head? = some '/') (u : CacheUser) :
    cacheName cx u path =
      tmpstr (cx.conf.cacheDir ++ '/' :: (List.replicate (u.extra path) '/' ++ stem path)) := by
  have hp := slashes_stem path
  have hslash : slashName cx path =
      tmpstr (cx.conf.cacheDir ++ '/' :: (List.replicate (slashes path) '/' ++ stem path)) := by
    rw [hp, slashName, List.append_assoc]
    rfl
  have hlocal : localName cx path =
      tmpstr (cx.conf.cacheDir ++ '/' :: (List.replicate (slashes path - 1) '/' ++ stem path)) := by
    have hpos := slashes_pos h
    have h1 : '/' :: List.replicate (slashes path - 1) '/' = List.replicate (slashes path) '/' := by
      rw [← List.replicate_succ, Nat.sub_add_cancel hpos]
    rw [← List.cons_append, h1, hp, localName]
  have hopen : buildCacheTree cx path = tmpstr (cx.conf.cacheDir ++ '/' :: stem path) := by
    rw [buildCacheTree, List.append_assoc]
    rfl
  cases u with
  | buildCacheTree => exact hopen
  | dfsGetLocalCopy => exact hlocal
  | dfsRelease => exact hslash
  | dfsUnlink => exact hslash
  | dfsRmdir => exact hslash
  | gcCallback => exact hslash
  | pentryUnlinkCacheFile => exact hslash

/-- What the buffer keeps of a name, and where it keeps nothing below the directory. -/
theorem tmpstr_below (cx : Ctx) (u : Path) :
    tmpstr (cx.conf.cacheDir ++ '/' :: u) =
      if cx.conf.cacheDir.length < tmpstrMax - 1 then cx.conf.cacheDir ++ '/' :: u.take cx.room
      else cx.conf.cacheDir.take (tmpstrMax - 1) := by
  unfold tmpstr snprintf
  rw [List.take_append]
  split
  · rename_i h
    have hroom : tmpstrMax - 1 - cx.conf.cacheDir.length = cx.room + 1 := by
      unfold Ctx.room
      omega
    rw [List.take_of_length_le (by omega), hroom, List.take_succ_cons]
  · rename_i h
    have hle : tmpstrMax - 1 ≤ cx.conf.cacheDir.length := Nat.le_of_not_lt h
    rw [Nat.sub_eq_zero_of_le hle, List.take_zero, List.append_nil]

theorem Ctx.room_eq_zero {cx : Ctx} (h : ¬cx.conf.cacheDir.length < tmpstrMax - 1) :
    cx.room = 0 := by
  unfold Ctx.room
  omega

theorem collapse_take_slashes (m j : Nat) (s : Path) :
    collapse ('/' :: (List.replicate j '/' ++ s).take m) = collapse ('/' :: s.take (m - j)) := by
  rw [List.take_append, List.take_replicate, List.length_replicate, collapse_replicate]

/-- Names in the cache denote one file exactly when what the buffer keeps of the stems does. -/
theorem sameCacheFile_iff (cx : Ctx) (j k : Nat) (s t : Path) :
    SameCacheFile (tmpstr (cx.conf.cacheDir ++ '/' :: (List.replicate j '/' ++ s)))
        (tmpstr (cx.conf.cacheDir ++ '/' :: (List.replicate k '/' ++ t))) ↔
      collapse ('/' :: s.take (cx.room - j)) = collapse ('/' :: t.take (cx.room - k)) := by
  unfold SameCacheFile
  rw [tmpstr_below, tmpstr_below]
  by_cases h : cx.conf.cacheDir.length < tmpstrMax - 1
  · rw [if_pos h, if_pos h, collapse_below_iff, collapse_take_slashes, collapse_take_slashes]
  · rw [if_neg h, if_neg h, Ctx.room_eq_zero h, Nat.zero_sub, Nat.zero_sub, List.take_zero,
      List.take_zero]
    simp

theorem cacheName_same_iff (cx : Ctx) {p q : Path} (hp : p.head? = some '/')
    (hq : q.head? = some '/') (u v : CacheUser) :
    SameCacheFile (cacheName cx u p) (cacheName cx v q) ↔
      collapse ('/' :: (stem p).take (cx.room - u.extra p)) =
        collapse ('/' :: (stem q).take (cx.room - v.extra q)) := by
  rw [cacheName_eq cx hp, cacheName_eq cx hq, sameCacheFile_iff]

theorem take_split (s : Path) {m n : Nat} (h : m ≤ n) :
    s.take n = s.take m ++ (s.take n).drop m := by
  have hm : (s.take n).take m = s.take m := by rw [List.take_take, Nat.min_eq_left h]
  rw [← hm, List.take_append_drop]

theorem collapse_take_prefix (s : Path) {m n : Nat} (h : m ≤ n) :
    collapse ('/' :: s.take m) <+: collapse ('/' :: s.take n) := by
  rw [take_split s h]
  exact collapse_prefix ('/' :: s.take m) _

/-- What the other functions cut off the name that `open` builds is slashes after a
slash. -/
def CutsSlashes (cx : Ctx) (path : Path) : Prop :=
  let kept := (stem path).take (cx.room - slashes path)
  let lost := ((stem path).take cx.room).drop (cx.room - slashes path)
  lost = [] ∨ kept.getLast? = some '/' ∧ ∀ c ∈ lost, c = '/'

instance (cx : Ctx) (path : Path) : Decidable (CutsSlashes cx path) :=
  inferInstanceAs (Decidable (_ ∨ _ ∧ _))

theorem stem_head (path : Path) : (stem path).head? ≠ some '/' := by
  intro h
  have := List.head?_dropWhile_not (· = '/') path
  unfold stem at h
  simp [h] at this

/-- The stem does not start with a slash, so slashes are lost behind what is kept of it. -/
theorem lost_nil (cx : Ctx) (path : Path) {n : Nat} (hkept : (stem path).take n = [])
    (h : ∀ c ∈ ((stem path).take cx.room).drop n, c = '/') :
    ((stem path).take cx.room).drop n = [] := by
  rcases List.take_eq_nil_iff.mp hkept with h0 | h0
  · subst h0
    cases hs : (stem path).take cx.room with
    | nil => rfl
    | cons c cs =>
      have hc : c = '/' := h c (by simp [hs])
      have hhead : (stem path).head? = some c := by
        have hmem := List.take_append_drop cx.room (stem path)
        rw [hs] at hmem
        rw [← hmem]
        rfl
      exact absurd (hc ▸ hhead) (stem_head path)
  · rw [h0]
    simp

theorem cutsSlashes_iff (cx : Ctx) (path : Path) :
    CutsSlashes cx path ↔
      collapse ('/' :: (stem path).take cx.room) =
        collapse ('/' :: (stem path).take (cx.room - slashes path)) := by
  have hle : cx.room - slashes path ≤ cx.room := Nat.sub_le _ _
  generalize hn : cx.room - slashes path = n at hle
  have hsplit : '/' :: (stem path).take cx.room =
      ('/' :: (stem path).take n) ++ ((stem path).take cx.room).drop n :=
    congrArg ('/' :: ·) (take_split (stem path) hle)
  rw [hsplit]
  unfold CutsSlashes
  simp only [hn]
  cases hk : ((stem path).take n).getLast? with
  | none =>
    have hnil : (stem path).take n = [] := List.getLast?_eq_none_iff.mp hk
    rw [hnil, collapse_append_eq_iff (c := '/') _ rfl]
    constructor
    · intro h
      rcases h with h | h
      · exact .inl h
      · cases h.1
    · intro h
      rcases h with h | h
      · exact .inl h
      · exact .inl (lost_nil cx path hnil h.2)
  | some c =>
    have hlast : ('/' :: (stem path).take n).getLast? = some c := by
      rw [List.getLast?_cons, hk]
      rfl
    rw [collapse_append_eq_iff _ hlast]
    simp

/-- Every function names the same file for a path exactly when the two extremes do. -/
theorem names_agree_iff (cx : Ctx) {p : Path} (hp : p.head? = some '/') :
    (∀ u v, SameCacheFile (cacheName cx u p) (cacheName cx v p)) ↔ CutsSlashes cx p := by
  rw [cutsSlashes_iff]
  constructor
  · intro h
    exact (cacheName_same_iff cx hp hp .buildCacheTree .dfsUnlink).mp (h _ _)
  · intro h u v
    rw [cacheName_same_iff cx hp hp]
    have key : ∀ w : CacheUser, collapse ('/' :: (stem p).take (cx.room - w.extra p)) =
        collapse ('/' :: (stem p).take cx.room) := by
      intro w
      have hw := w.extra_le p
      have hlow := collapse_take_prefix (stem p)
        (Nat.sub_le_sub_left hw cx.room)
      have hhigh := collapse_take_prefix (stem p) (Nat.sub_le cx.room (w.extra p))
      exact hhigh.eq_of_length_le (h ▸ hlow.length_le)
    rw [key u, key v]

/-- What the buffer keeps of the two stems tells them apart. -/
def KeptApart (cx : Ctx) (p q : Path) : Prop :=
  collapse ('/' :: (stem p).take cx.room) ≠ collapse ('/' :: (stem q).take cx.room)

/-- The names of two paths agree and stay apart exactly when nothing but slashes is cut off
and what fits of the paths differs where they do. -/
theorem names_apart_iff (cx : Ctx) {p q : Path} (hp : p.head? = some '/')
    (hq : q.head? = some '/') :
    NamesApart cx p q ↔
      CutsSlashes cx p ∧ CutsSlashes cx q ∧ (collapse p ≠ collapse q → KeptApart cx p q) := by
  constructor
  · intro h
    refine ⟨(names_agree_iff cx hp).mp h.left, (names_agree_iff cx hq).mp h.right, ?_⟩
    intro hne he
    apply h.apart hne .buildCacheTree .buildCacheTree
    rw [cacheName_same_iff cx hp hq]
    exact he
  · intro h
    obtain ⟨hcp, hcq, hkept⟩ := h
    have hl := (names_agree_iff cx hp).mpr hcp
    have hr := (names_agree_iff cx hq).mpr hcq
    refine ⟨hl, hr, ?_⟩
    intro hne u v hsame
    have hopen : SameCacheFile (cacheName cx .buildCacheTree p) (cacheName cx .buildCacheTree q) :=
      (hl _ _).trans (hsame.trans (hr _ _))
    rw [cacheName_same_iff cx hp hq] at hopen
    exact hkept hne hopen

theorem names_apart_sample : NamesApart Sample.plain ['/', 'a'] ['/', '/', 'b'] := by
  refine (names_apart_iff Sample.plain rfl rfl).mpr ⟨by decide, by decide, ?_⟩
  intro _
  unfold KeptApart
  decide

/-- A client can create the path: no file system takes a part with a longer name. -/
def Creatable (path : Path) : Prop := ∀ part ∈ path.splitOn '/', part.length ≤ 255

instance (path : Path) : Decidable (Creatable path) := inferInstanceAs (Decidable (∀ _ ∈ _, _))

/-- A file below seven directories with names as long as can be. -/
def longPath : Path :=
  ['/'].intercalate
    ([] :: List.replicate 7 (List.replicate 255 'a') ++ [List.replicate 252 'a'])

/-- The path just fits below the cache directory, and `unlink` drops its last byte. -/
theorem long_name_split :
    longPath.head? = some '/' ∧ Creatable longPath ∧
      ¬NamesApart Sample.plain longPath longPath := by
  refine ⟨by decide +kernel, by decide +kernel, fun h => ?_⟩
  have hcut : ¬CutsSlashes Sample.plain longPath := by decide +kernel
  exact hcut ((names_agree_iff Sample.plain (by decide +kernel)).mp h.left)

end DropletFs
