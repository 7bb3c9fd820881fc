import DropletFs.Framework.Paths
import DropletFs.Model.Listing
import DropletFs.Table.Removal

/-! The recursion of `rename_directory` with its paths passed by value, and the calls that do not
tell a pointer from the text behind it as long as the ring leaves its slot alone. -/

namespace DropletFs

open CText LocalFs

/-- Through `k` more temporary strings, the text behind `p` stays. -/
def World.Lasts (s : World) (p : Str) (k : Nat) : Prop :=
  match p with
  | .ext _ => True
  | .tmp slot => k ≤ s.ring.room slot

namespace World.Lasts

variable {s t : World} {p : Str} {k : Nat}

theorem mono {m : Nat} (h : s.Lasts p k) (hm : m ≤ k) : s.Lasts p m := by
  cases p with
  | ext text => trivial
  | tmp slot => exact le_trans hm h

theorem of_ring (h : s.Lasts p k) (hr : t.ring = s.ring) : t.Lasts p k := by
  cases p with
  | ext text => trivial
  | tmp slot =>
    change k ≤ t.ring.room slot
    rw [hr]
    exact h

/-- After some of the pushes the text is the same and lasts through the others. -/
theorem after {texts : List CStr} (h : s.Lasts p k) (ht : t.ring = s.ring.pushAll texts)
    (hl : texts.length ≤ k) : t.text p = s.text p ∧ t.Lasts p (k - texts.length) := by
  cases p with
  | ext text => exact ⟨rfl, trivial⟩
  | tmp slot =>
    have hk : k ≤ s.ring.room slot := h
    obtain ⟨hslot, hroom⟩ := RingBuffer.pushAll_of_le_room (r := s.ring) (hl.trans hk)
    refine ⟨?_, ?_⟩
    · simp only [World.text, Str.read, ht, hslot]
    · change k - texts.length ≤ t.ring.room slot
      rw [ht, hroom]
      omega

theorem push {text : CStr} (h : s.Lasts p (k + 1)) (ht : t.ring = s.ring.push text) :
    t.text p = s.text p ∧ t.Lasts p k := by
  have ht' : t.ring = s.ring.pushAll [text] := ht
  apply h.after ht'
  simp

theorem ne_next (h : s.Lasts p (k + 1)) : p ≠ .tmp s.ring.next := by
  rintro rfl
  have hk : k + 1 ≤ s.ring.room s.ring.next := h
  rw [RingBuffer.room_eq_zero.mpr rfl] at hk
  omega

end World.Lasts

section Calls

variable {cx : Ctx} {env : Env} {s : World} {p : Str} {k : Nat}

theorem World.tmpstrPrintf_of_notMem {args : List Str} (h : .tmp s.ring.next ∉ args) :
    s.tmpstrPrintf args = .ok (.tmp s.ring.next,
      { s with ring := s.ring.push (tmpstr (args.flatMap s.text)) }) := by
  rw [World.tmpstrPrintf, if_neg h]
  rfl

/-- The cache file's name in the ring. -/
theorem World.printCacheName (h : s.Lasts p (k + 1)) :
    s.tmpstrPrintf [.ext cx.conf.cacheDir, .ext ['/'], p] = .ok (.tmp s.ring.next,
      { s with ring := s.ring.push (slashName cx (s.text p)) }) := by
  have hno : .tmp s.ring.next ∉ [Str.ext cx.conf.cacheDir, .ext ['/'], p] := by
    simpa using Ne.symm h.ne_next
  rw [World.tmpstrPrintf_of_notMem hno]
  simp [slashName, World.text, Str.read]

theorem World.unlinkCacheFile_eq (h : s.Lasts p (k + 1)) :
    s.unlinkCacheFile cx env p = .ok (s.withoutCacheFile cx env (s.text p)) := by
  rw [World.unlinkCacheFile, World.printCacheName h]
  simp [World.withoutCacheFile, World.text, Str.read, bind, Except.bind]

theorem unlinkEntry_value (h : s.Lasts p (k + 1)) :
    unlinkEntry env s p = unlinkEntry env s (.ext (s.text p)) := by
  have htext : ∀ q, (s.hashRemove (s.text p)).text q = s.text q := by
    intro q
    simp only [World.text, World.hashRemove_ring]
  have hext : s.text (.ext (s.text p)) = s.text p := rfl
  unfold unlinkEntry
  simp only [htext, hext]
  cases env.stale (s.text p) with
  | none => rfl
  | some freed =>
    have hno : .tmp (s.hashRemove (s.text p)).ring.next ∉ [Str.ext freed] := by simp
    dsimp only
    rw [World.tmpstrPrintf_of_notMem hno]
    simp only [bind, Except.bind]
    have hpush := h.push (t := { s.hashRemove (s.text p) with
      ring := (s.hashRemove (s.text p)).ring.push
        (tmpstr ([Str.ext freed].flatMap (s.hashRemove (s.text p)).text)) })
      (by rw [World.hashRemove_ring])
    rw [hpush.1]
    rfl

theorem dfsUnlink_value (h : s.Lasts p (k + 2)) :
    dfsUnlink cx env s p = dfsUnlink cx env s (.ext (s.text p)) := by
  have hext : s.text (.ext (s.text p)) = s.text p := rfl
  unfold dfsUnlink
  rw [hext]
  split
  · rename_i store hst
    have hl : ({ s with store := store } : World).Lasts p (k + 2) := h.of_ring rfl
    have hv : ({ s with store := store } : World).Lasts (.ext (s.text p)) (0 + 1) := trivial
    have hpush := hl.push (t := { s with store := store }.withoutCacheFile cx env (s.text p)) rfl
    have hp : World.unlinkCacheFile cx env { s with store := store } p =
        .ok ({ s with store := store }.withoutCacheFile cx env (s.text p)) :=
      World.unlinkCacheFile_eq hl
    have hq : World.unlinkCacheFile cx env { s with store := store } (.ext (s.text p)) =
        .ok ({ s with store := store }.withoutCacheFile cx env (s.text p)) :=
      World.unlinkCacheFile_eq hv
    rw [hp, hq]
    generalize { s with store := store }.withoutCacheFile cx env (s.text p) = u at hpush
    have hu : u.text p = s.text p := hpush.1
    have hext' : u.text (.ext (s.text p)) = s.text p := rfl
    simp only [bind, Except.bind, unlinkEntry_value hpush.2, hu, hext']
  · rfl

theorem dfsRmdir_value (h : s.Lasts p (k + 1)) :
    dfsRmdir cx env s p = dfsRmdir cx env s (.ext (s.text p)) := by
  have hext : s.text (.ext (s.text p)) = s.text p := rfl
  unfold dfsRmdir
  rw [hext]
  dsimp only
  generalize hs : s.log (.rmdir (s.text p) (s.store.children (s.text p))) = t
  have ht : t.Lasts p (k + 1) := h.of_ring (by rw [← hs]; rfl)
  have htext : t.text p = s.text p := by rw [← hs]; rfl
  have htext' : t.text (.ext (s.text p)) = s.text p := rfl
  rw [htext, htext']
  split
  · rename_i store hst
    have hl : ({ t with store := store } : World).Lasts p (k + 1) := ht.of_ring rfl
    have hl' : ({ t with store := store } : World).Lasts (.ext (s.text p)) (0 + 1) := trivial
    rw [World.printCacheName hl, World.printCacheName hl']
    simp only [bind, Except.bind]
    have hpush := hl.push (t := { t with store := store, ring := t.ring.push (slashName cx
      (({ t with store := store } : World).text p)) }) rfl
    have hp : World.text { t with store := store, ring := t.ring.push (slashName cx
      (({ t with store := store } : World).text p)) } p = s.text p := hpush.1.trans htext
    rw [hp]
    change Except.ok (0, World.onEntry { t with store := store, ring := t.ring.push (slashName cx
      (t.text p)) } _ _) = _
    rw [htext]
    rfl
  · rfl

theorem World.onEntry_ring (s : World) (q : Path) (f : Entry → Entry) :
    (s.onEntry q f).ring = s.ring := by
  obtain ⟨heap, he⟩ := s.onEntry_eq q f
  rw [he]

theorem renameFile_value {q : Str} (h : s.Lasts p (k + 2)) :
    renameFile cx env s p q = renameFile cx env s (.ext (s.text p)) (.ext (s.text q)) := by
  have hp : s.text (.ext (s.text p)) = s.text p := rfl
  have hq : s.text (.ext (s.text q)) = s.text q := rfl
  unfold renameFile
  rw [hp, hq]
  split
  · rename_i store hst
    dsimp only
    have key : ∀ u : World, u.ring = s.ring →
        dfsUnlink cx env u p = dfsUnlink cx env u (.ext (s.text p)) := by
      intro u hu
      have htext : u.text p = s.text p := by rw [World.text, World.text, hu]
      rw [dfsUnlink_value (h.of_ring hu), htext]
    have htext : ∀ r : Str, ({ s with store := store } : World).text r = s.text r := fun _ => rfl
    rw [htext p, htext q, htext (.ext (s.text p)), htext (.ext (s.text q)), hp, hq]
    cases renameDirname (s.text q) with
    | some dirname => exact key _ (World.onEntry_ring _ _ _)
    | none => exact key _ rfl
  · rfl

/-- `dfs_unlink` pushes the name of the cache file, and the freed path when there was an entry. -/
theorem dfsUnlink_pushes {t : World} {path : Path} {ret : Int}
    (h : dfsUnlink cx env s (.ext path) = .ok (ret, t)) :
    ∃ texts, t.ring = s.ring.pushAll texts ∧
      texts.length ≤ 1 + if (s.hash path).isSome then 1 else 0 := by
  rcases dfsUnlink_cases h with ⟨_, _, rfl⟩ | ⟨store, u, _, _, hu, hcase⟩
  · exact ⟨[], rfl, Nat.zero_le _⟩
  · have hring : u.ring = s.ring.push (slashName cx path) := by rw [hu]; rfl
    rcases hcase with ⟨_, _, rfl⟩ | ⟨hsome, he⟩
    · exact ⟨[slashName cx path], hring, by simp⟩
    · obtain ⟨_, freed, v, _, hv, ht⟩ := unlinkEntry_cases he
      have hvr : v.ring = s.ring.pushAll [slashName cx path, tmpstr freed] := by
        rw [hv]
        change u.ring.push _ = _
        rw [hring]
        rfl
      have hs : (s.hash path).isSome := hsome
      refine ⟨[slashName cx path, tmpstr freed], ?_, by simp [hs]⟩
      rcases ht with ⟨_, rfl⟩ | ⟨parent, _, rfl⟩
      · exact hvr
      · rw [World.onEntry_ring, hvr]

theorem renameFile_pushes {t : World} {o n : Path} {ret : Int}
    (h : renameFile cx env s (.ext o) (.ext n) = .ok (ret, t)) :
    ∃ texts, t.ring = s.ring.pushAll texts ∧
      texts.length ≤ 1 + if (s.hash o).isSome then 1 else 0 := by
  rcases renameFile_cases h with ⟨_, _, rfl⟩ | ⟨store, u, _, hu, ht⟩
  · exact ⟨[], rfl, Nat.zero_le _⟩
  · have hus : u.ring = s.ring ∧ u.hash = s.hash := by
      rcases hu with rfl | ⟨dirname, _, rfl⟩
      · exact ⟨rfl, rfl⟩
      · obtain ⟨heap, he⟩ := World.onEntry_eq { s with store := store } dirname
          fun dir => pentryRemoveDirent dir (s.text (.ext o))
        rw [he]
        exact ⟨rfl, rfl⟩
    have hpush := dfsUnlink_pushes ht
    rwa [hus.1, hus.2] at hpush

end Calls

/-- The recursion with the two paths as values. -/
abbrev Move := World → Path → Path → Except Fault (Int × World)

theorem entryPath_eq (dir : Path) (name : CStr) :
    entryPath dir name = chopSlash (tmpstr (child dir name)) := by simp [entryPath, child]

/-- `renameEntries` on values: the ring is filled the same way, but never read. -/
def moveEntries (cx : Ctx) (env : Env) (moveDir : Move) (o n : Path) :
    List CStr → World → FType → Int → Except Fault (Int × World)
  | [], s, _, ret => .ok (ret, s.log (.iter o n))
  | name :: names, s, type, ret =>
    let s := s.log (.iter o n)
    if name = ['.'] ∨ name = ['.', '.'] then moveEntries cx env moveDir o n names s type ret
    else do
      let src := entryPath o name
      let dst := entryPath n name
      let s := { s with ring := (s.ring.push src).push dst }
      let (rc, found) := dplNamei env s.store src
      if rc ≠ .success ∧ rc ≠ .enoent then .ok (-1, s)
      else do
        let type := found.getD type
        let s := s.log (.pass src dst)
        let (ret, s) ← if type = .dir then moveDir s src dst
          else renameFile cx env s (.ext src) (.ext dst)
        moveEntries cx env moveDir o n names s type ret

/-- The part of the loop body that depends on the type found. -/
abbrev descend (type : FType) (dir file : Except Fault (Int × World)) :
    Except Fault (Int × World) := if type = .dir then dir else file

/-- The state once the two paths of an entry are in the ring. -/
def World.paired (s : World) (o n src dst : Path) : World :=
  { s.log (.iter o n) with ring := (s.ring.push src).push dst }

/-- The loop on values at an entry that is not skipped. -/
theorem moveEntries_cons {cx : Ctx} {env : Env} {moveDir : Move} {o n src dst : Path} {s : World}
    {name : CStr} {names : List CStr} (type : FType) (ret : Int)
    (hname : ¬(name = ['.'] ∨ name = ['.', '.'])) (hsrc : entryPath o name = src)
    (hdst : entryPath n name = dst) :
    moveEntries cx env moveDir o n (name :: names) s type ret =
      let u := s.paired o n src dst
      let (rc, found) := dplNamei env u.store src
      if rc ≠ .success ∧ rc ≠ .enoent then .ok (-1, u)
      else descend (found.getD type) (moveDir (u.log (.pass src dst)) src dst)
          (renameFile cx env (u.log (.pass src dst)) (.ext src) (.ext dst)) >>=
        fun p => moveEntries cx env moveDir o n names p.2 (found.getD type) p.1 := by
  rw [moveEntries, if_neg hname, hsrc, hdst]
  dsimp only
  have hstore : (s.log (.iter o n)).store = (s.paired o n src dst).store := rfl
  rw [hstore]
  split_ifs <;> rfl

/-- The loop on pointers at an entry that is not skipped. -/
theorem renameEntries_cons {cx : Ctx} {env : Env} {renameDir : Rename} {op np p q : Str}
    {s u : World} {name : CStr} {names : List CStr} (type : FType) (ret : Int)
    (hname : ¬(name = ['.'] ∨ name = ['.', '.']))
    (hpaths : (s.log (.iter (s.text op) (s.text np))).entryPaths op np name = .ok (p, q, u)) :
    renameEntries cx env renameDir op np (name :: names) s type ret =
      let (rc, found) := dplNamei env u.store (u.text p)
      if rc ≠ .success ∧ rc ≠ .enoent then .ok (-1, u)
      else descend (found.getD type) (renameDir (u.log (.pass (u.text p) (u.text q))) p q)
          (renameFile cx env (u.log (.pass (u.text p) (u.text q))) p q) >>=
        fun r => renameEntries cx env renameDir op np names r.2 (found.getD type) r.1 := by
  rw [renameEntries, if_neg hname]
  dsimp only
  rw [hpaths]
  simp only [bind, Except.bind]
  split_ifs <;> rfl

/-- `renameDirectory` on values. -/
def moveDirectory (cx : Ctx) (env : Env) : Nat → Move
  | 0, _, _, _ => .error .stackOverflow
  | depth + 1, s, o, n =>
    match renameSetup env (s.log (.enter o n)) o n with
    | (.error ret, s) => .ok (ret, s)
    | (.ok (type, names), s) => do
      let (ret, s) ← moveEntries cx env (moveDirectory cx env depth) o n names s type 0
      if ret = -1 then .ok (-1, s)
      else do
        let (_, s) ← dfsRmdir cx env s (.ext o)
        .ok (0, s)

end DropletFs
