import Mathlib.Data.List.Infix
import DropletFs.Model.Sample
import DropletFs.Remote.Calls

/-! The text of a symbolic link, from `dfs_symlink` to the buffer of `dfs_readlink`. -/

namespace DropletFs

open CText

/-- What a reader of the link is to get: the target, without the mount point in front of it. -/
def linkText (cx : Ctx) (target : Path) : CStr :=
  if cx.conf.rootDir ++ ['/'] <+: target then target.drop (cx.conf.rootDir.length + 1) else target

/-- A link that is made reads back: neither callback leaves its strings, and the buffer holds the
text and its end. -/
def LinkReads (cx : Ctx) (env env' : Env) (s : World) (target path : Path) (buf : List Char) :
    Prop :=
  match dfsSymlink cx env s target path with
  | .error _ => False
  | .ok (ret, t) => ret = 0 →
    (dfsReadlink env' t path buf).2.length = buf.length ∧
      stringAt (dfsReadlink env' t path buf).2 = some (linkText cx target)

/-- The mount point is at the start of the target, as a directory, or nowhere in it; and the
buffer has a zero where the text ends. Or the mount point is elsewhere, and by chance the buffer
goes on with the rest of the target. -/
def KeepsLink (cx : Ctx) (target : Path) (buf : List Char) : Prop :=
  (cx.conf.rootDir ++ ['/'] <+: target ∨ ¬cx.conf.rootDir <:+: target) ∧
    buf[(linkText cx target).length]? = some nul ∨
  cx.conf.rootDir <:+: target ∧ ¬cx.conf.rootDir ++ ['/'] <+: target ∧
    ∃ dest rest, symlinkTarget cx target = .ok dest ∧ target = dest ++ rest ∧
      stringAt (buf.drop dest.length) = some rest

section Search

variable {needle text rest : CStr}

theorem strstr_none : strstr needle text = none ↔ ¬needle <:+: text := by
  induction text with
  | nil =>
    by_cases h : needle = []
    · simp [strstr, h]
    · simp [strstr, h]
  | cons c cs ih =>
    rw [List.infix_cons_iff, not_or, ← ih]
    by_cases h : needle <+: c :: cs
    · simp [strstr, h]
    · simp [strstr, h]

/-- What is found starts with the needle and is the end of the text. -/
theorem strstr_some (h : strstr needle text = some rest) : needle <+: rest ∧ rest <:+ text := by
  induction text with
  | nil =>
    by_cases hn : needle = []
    · simp only [strstr, hn, if_true, Option.some.injEq] at h
      rw [← h, hn]
      exact ⟨List.prefix_rfl, List.suffix_rfl⟩
    · simp [strstr, hn] at h
  | cons c cs ih =>
    by_cases hn : needle <+: c :: cs
    · simp only [strstr, List.isPrefixOf_iff_prefix, hn, if_true, Option.some.injEq] at h
      rw [← h]
      exact ⟨hn, List.suffix_rfl⟩
    · simp only [strstr, List.isPrefixOf_iff_prefix, hn, if_false] at h
      obtain ⟨hp, hs⟩ := ih h
      exact ⟨hp, hs.trans (List.suffix_cons c cs)⟩

theorem strstr_prefix (h : needle <+: text) : strstr needle text = some text := by
  cases text with
  | nil =>
    rw [List.prefix_nil.mp h]
    rfl
  | cons c cs => simp [strstr, h]

end Search

section Targets

variable {cx : Ctx} {target dest : Path}

theorem symlinkTarget_under (h : cx.conf.rootDir ++ ['/'] <+: target) :
    symlinkTarget cx target = .ok (linkText cx target) := by
  have hp : cx.conf.rootDir <+: target := (List.prefix_append _ _).trans h
  have hlen : cx.conf.rootDir.length + 1 ≤ target.length := by
    have hle := h.length_le
    rwa [List.length_append, List.length_singleton] at hle
  rw [symlinkTarget, strstr_prefix hp, linkText, if_pos h]
  dsimp only
  rw [if_neg (by omega)]

theorem symlinkTarget_apart (h : ¬cx.conf.rootDir <:+: target) :
    symlinkTarget cx target = .ok target := by
  rw [symlinkTarget, strstr_none.mpr h]

/-- The text stored is the end of the target. -/
theorem symlinkTarget_suffix (h : symlinkTarget cx target = .ok dest) : dest <:+ target := by
  unfold symlinkTarget at h
  cases hs : strstr cx.conf.rootDir target with
  | none =>
    rw [hs] at h
    simp only [Except.ok.injEq] at h
    rw [← h]
  | some text =>
    rw [hs] at h
    dsimp only at h
    split_ifs at h
    simp only [Except.ok.injEq] at h
    rw [← h]
    exact (List.drop_suffix _ _).trans (strstr_some hs).2

end Targets

section Calls

variable {cx : Ctx} {env env' : Env} {s t : World} {target path dest : Path} {buf : List Char}

/-- The metadata of a link. -/
def linkMeta (dest : CStr) : Dict :=
  (Dict.empty.set .symlink dest).set .size (ulongText dest.length)

/-- The link is in the store. -/
def World.linked (s : World) (path : Path) (dest : CStr) : World :=
  { s with store := s.store.insert path { (emptyObj .reg) with userMeta := linkMeta dest } }

/-- `dfs_symlink` on a new path. -/
theorem dfsSymlink_new (hr : env.RemoteOk) (hnew : s.store.ftype? path = none) :
    dfsSymlink cx env s target path =
      if env.lib .symlinkDict = false then
        .ok (-1, { s with store := s.store.insert path (emptyObj .reg) })
      else symlinkTarget cx target >>= fun dest =>
        if (env.lib .symlinkAdd && env.lib .symlinkSize) = false then
          .ok (-1, { s with store := s.store.insert path (emptyObj .reg) })
        else .ok (0, s.linked path dest) := by
  have hmk : dplMknod env s.store path = (.success, s.store.insert path (emptyObj .reg)) := by
    simp [dplMknod, hr.remote, hnew]
  have hset : ∀ d, dplSetattr env (s.store.insert path (emptyObj .reg)) path d =
      (.success, s.store.insert path { (emptyObj .reg) with userMeta := d }) := by
    intro d
    simp [dplSetattr, hr.remote, emptyObj]
  unfold dfsSymlink
  rw [hmk]
  cases env.lib .symlinkDict with
  | false => rfl
  | true =>
    simp only [Bool.not_true, Bool.false_eq_true, Bool.true_eq_false, if_false, hset]
    cases symlinkTarget cx target with
    | error e => rfl
    | ok dest =>
      cases env.lib .symlinkAdd with
      | false => rfl
      | true =>
        cases env.lib .symlinkSize with
        | false => rfl
        | true => rfl

theorem dfsReadlink_link (hr : env.RemoteOk) {o : Obj} (ho : s.store.lookup path = some o)
    (hdir : o.ftype ≠ .dir) (hl : o.userMeta .symlink = some dest)
    (hb : dest.length < buf.length) :
    dfsReadlink env s path buf = (0, dest ++ buf.drop dest.length) := by
  have hget : dplGetattr env s.store path = (.success, some o.userMeta) := by
    simp [dplGetattr, hr.remote, ho, hdir]
  unfold dfsReadlink
  rw [hget]
  dsimp only
  rw [hl]
  dsimp only
  rw [Nat.min_eq_left hb.le, strncpy_self]

theorem linkMeta_symlink (dest : CStr) : linkMeta dest .symlink = some dest := by
  simp [linkMeta, Dict.set]

/-- What is in the buffer after the link has been made and read. -/
theorem readlink_after (hr : env.RemoteOk) (hs : nul ∉ dest) (hb : dest.length < buf.length)
    (text : CStr) :
    (dfsReadlink env (s.linked path dest) path buf).2.length = buf.length ∧
        stringAt (dfsReadlink env (s.linked path dest) path buf).2 = some text ↔
      ∃ rest, stringAt (buf.drop dest.length) = some rest ∧ dest ++ rest = text := by
  rw [dfsReadlink_link hr (AList.lookup_insert _) (by simp [emptyObj]) (linkMeta_symlink dest) hb]
  dsimp only
  rw [stringAt_append hs, Option.map_eq_some_iff]
  apply and_iff_right
  rw [List.length_append, List.length_drop]
  omega

/-- The bytes the buffer must already hold. -/
theorem keepsLink_iff (ht : symlinkTarget cx target = .ok dest) :
    KeepsLink cx target buf ↔
      ∃ rest, stringAt (buf.drop dest.length) = some rest ∧ dest ++ rest = linkText cx target := by
  have hmain : dest = linkText cx target →
      ((∃ rest, stringAt (buf.drop dest.length) = some rest ∧ dest ++ rest = linkText cx target) ↔
        buf[(linkText cx target).length]? = some nul) := by
    intro hd
    have hnil : stringAt (buf.drop (linkText cx target).length) = some [] ↔
        buf[(linkText cx target).length]? = some nul := by
      rw [stringAt_eq_nil, List.getElem?_drop, Nat.add_zero]
    rw [hd, ← hnil]
    constructor
    · intro ⟨rest, hrest, he⟩
      rw [List.append_right_eq_self.mp he] at hrest
      exact hrest
    · intro h
      exact ⟨[], h, List.append_nil _⟩
  unfold KeepsLink
  by_cases hu : cx.conf.rootDir ++ ['/'] <+: target
  · have hd : dest = linkText cx target :=
      Except.ok.inj (ht.symm.trans (symlinkTarget_under hu))
    rw [hmain hd]
    simp [hu]
  · by_cases hi : cx.conf.rootDir <:+: target
    · rw [linkText, if_neg hu]
      simp only [hu, hi, not_true_eq_false, or_self, false_and, false_or, not_false_eq_true,
        true_and, ht, Except.ok.injEq]
      constructor
      · intro ⟨_, rest, rfl, he, hrest⟩
        exact ⟨rest, hrest, he.symm⟩
      · intro ⟨rest, hrest, he⟩
        exact ⟨dest, rest, rfl, he.symm, hrest⟩
    · have hd : dest = linkText cx target := by
        rw [symlinkTarget_apart hi] at ht
        rw [linkText, if_neg hu]
        exact (Except.ok.inj ht).symm
      rw [hmain hd]
      simp [hi]

theorem KeepsLink.stored (h : KeepsLink cx target buf) :
    ∃ dest, symlinkTarget cx target = .ok dest := by
  rcases h with ⟨hu | hi, _⟩ | ⟨_, _, dest, _, hd, _⟩
  · exact ⟨_, symlinkTarget_under hu⟩
  · exact ⟨_, symlinkTarget_apart hi⟩
  · exact ⟨dest, hd⟩

end Calls

/-- A new link reads back exactly when it is not made for want of memory, before its target is
looked at or after that stayed within the string, or the target and the buffer are right. -/
theorem link_reads_iff (cx : Ctx) (env env' : Env) (s : World) (target path : Path)
    (buf : List Char) (hr : env.RemoteOk) (hr' : env'.RemoteOk)
    (hnew : s.store.ftype? path = none) (ht : nul ∉ target) (hb : target.length < buf.length) :
    LinkReads cx env env' s target path buf ↔
      env.lib .symlinkDict = false ∨
      (env.lib .symlinkAdd && env.lib .symlinkSize) = false ∧
        (∃ dest, symlinkTarget cx target = .ok dest) ∨
      KeepsLink cx target buf := by
  unfold LinkReads
  rw [dfsSymlink_new hr hnew]
  by_cases hdict : env.lib .symlinkDict = false
  · simp [hdict]
  rw [if_neg hdict, or_iff_right hdict]
  cases hd : symlinkTarget cx target with
  | error e =>
    have hno : ¬KeepsLink cx target buf := by
      intro hk
      obtain ⟨dest, hdest⟩ := hk.stored
      rw [hd] at hdest
      cases hdest
    refine iff_of_false id ?_
    rw [not_or]
    refine ⟨fun h => ?_, hno⟩
    obtain ⟨_, dest, hdest⟩ := h
    cases hdest
  | ok dest =>
    simp only [bind, Except.bind]
    by_cases hlib : (env.lib .symlinkAdd && env.lib .symlinkSize) = false
    · simp [hlib]
    · rw [if_neg hlib, or_iff_right fun h => hlib h.1]
      simp only [true_implies]
      have hsuf := symlinkTarget_suffix hd
      have hnul : nul ∉ dest := fun h => ht (hsuf.subset h)
      rw [keepsLink_iff hd]
      exact readlink_after hr' hnul (lt_of_le_of_lt hsuf.length_le hb) _

/-- A link into the mount point, read into a buffer of zeros. -/
theorem link_reads_sample :
    LinkReads Sample.plain Env.quiet Env.quiet (Sample.daemon []).world ['/', 'm', '/', 'a']
      ['/', 'l'] (List.replicate 6 nul) := by
  refine (link_reads_iff _ _ _ _ _ _ _ Env.quiet_allOk.toRemoteOk Env.quiet_allOk.toRemoteOk rfl
    (by decide) (by decide)).mpr (.inr (.inr (.inl ⟨.inl (by decide), by decide⟩)))

/-- A target apart from the mount point has no end in a buffer of other bytes; one with the mount
point further on loses its start; and one that is the mount point is read past its end. -/
theorem link_not_read :
    ¬LinkReads Sample.plain Env.quiet Env.quiet (Sample.daemon []).world ['a'] ['/', 'l']
        ['x', 'x'] ∧
      ¬LinkReads Sample.plain Env.quiet Env.quiet (Sample.daemon []).world
        ['/', 'h', '/', 'm', '/', 'a'] ['/', 'l'] (List.replicate 7 nul) ∧
      dfsSymlink Sample.plain Env.quiet (Sample.daemon []).world ['/', 'm'] ['/', 'l'] =
        .error .outOfBounds := by
  refine ⟨?_, ?_, rfl⟩
  · intro h
    have hread := (h rfl).2
    revert hread
    decide
  · intro h
    have hread := (h rfl).2
    revert hread
    decide

end DropletFs
