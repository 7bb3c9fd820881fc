import DropletFs.Rename.ByValue
import DropletFs.Rename.Content

/-! What the calls of a directory rename leave alone: everything outside the two trees. -/

namespace DropletFs

open CText LocalFs

theorem childPath_of_ne {p : Path} (h : p ≠ rootPath) (x : CStr) : childPath p x = child p x := by
  simp [childPath, dirPrefix, h, child]

theorem childName_child {p x : CStr} (h : p ≠ rootPath) (hx : x ≠ []) (hs : '/' ∉ x) :
    childName p (child p x) = some x := by
  have hd : (child p x).dropPrefix? (dirPrefix p) = some x := by
    rw [← childPath_of_ne h, childPath]
    exact List.dropPrefix?_append_of_beq x (by simp)
  simp [childName, hd, hx, hs]

theorem childName_some {p k : Path} {x : CStr} (hp : p ≠ rootPath) (h : childName p k = some x) :
    k = child p x ∧ x ≠ [] ∧ '/' ∉ x := by
  unfold childName at h
  split at h
  · rename_i y hy
    split_ifs at h with hn
    · obtain rfl := Option.some.inj h
      obtain ⟨pre, rfl, hpre⟩ := List.dropPrefix?_eq_some_iff.mp hy
      obtain rfl : pre = dirPrefix p := by simpa using hpre
      rw [not_or] at hn
      exact ⟨childPath_of_ne hp y, hn⟩
  · cases h

theorem filterMap_erase {α β : Type} [DecidableEq α] {f : α → Option β} {a : α} (h : f a = none)
    (l : List α) : (l.erase a).filterMap f = l.filterMap f := by
  induction l with
  | nil => rfl
  | cons b l ih =>
    by_cases he : b = a
    · subst he
      rw [List.erase_cons_head, List.filterMap_cons_none h]
    · rw [List.erase_cons_tail (by simpa using he)]
      cases hb : f b with
      | none => rw [List.filterMap_cons_none hb, List.filterMap_cons_none hb, ih]
      | some c => rw [List.filterMap_cons_some hb, List.filterMap_cons_some hb, ih]

namespace Store

variable {st st' : Store} {k p : Path}

theorem children_insert (h : childName p k = none) (o : Obj) :
    (Store.children (st.insert k o) p) = st.children p := by
  rw [children, AList.keys_insert, List.filterMap_cons_none h, filterMap_erase h, children]

theorem children_erase (h : childName p k = none) :
    (Store.children (st.erase k) p) = st.children p := by
  rw [children, AList.keys_erase, filterMap_erase h, children]

/-- At most the object of one path has changed. -/
def Changed (k : Path) (st st' : Store) : Prop :=
  st' = st ∨ st' = st.erase k ∨ ∃ o, st' = st.insert k o

theorem Changed.lookup (h : Changed k st st') {q : Path} (hq : q ≠ k) :
    st'.lookup q = st.lookup q := by
  rcases h with rfl | rfl | ⟨o, rfl⟩
  · rfl
  · exact AList.lookup_erase_ne hq
  · exact AList.lookup_insert_ne hq

theorem Changed.children (h : Changed k st st') {q : Path} (hq : childName q k = none) :
    Store.children st' q = Store.children st q := by
  rcases h with rfl | rfl | ⟨o, rfl⟩
  · rfl
  · exact children_erase hq
  · exact children_insert hq o

theorem changed_mkdir (env : Env) (st : Store) (k : Path) :
    Changed k st (dplMkdir env st k).2 := by
  unfold dplMkdir
  split
  · split_ifs
    · exact .inl rfl
    · exact .inr (.inr ⟨_, rfl⟩)
  · exact .inl rfl

theorem changed_fcopy (env : Env) (st : Store) (p k : Path) :
    Changed k st (dplFcopy env st p k).2 := by
  unfold dplFcopy
  split
  · split_ifs
    · exact .inl rfl
    · split
      · exact .inl rfl
      · split_ifs
        · exact .inl rfl
        · exact .inr (.inr ⟨_, rfl⟩)
  · exact .inl rfl

theorem changed_unlink (env : Env) (st : Store) (k : Path) :
    Changed k st (dplUnlink env st k).2 := by
  unfold dplUnlink
  split
  · split
    · exact .inl rfl
    · exact .inl rfl
    · exact .inr (.inl rfl)
  · exact .inl rfl

theorem changed_rmdir (env : Env) (st : Store) (k : Path) :
    Changed k st (dplRmdir env st k).2 := by
  unfold dplRmdir
  split
  · by_cases hr : k = rootPath
    · rw [if_pos hr]
      exact .inl rfl
    · rw [if_neg hr]
      split
      · exact .inl rfl
      · by_cases hc : st.children k = []
        · rw [if_pos hc]
          exact .inr (.inl rfl)
        · rw [if_neg hc]
          exact .inl rfl
      · exact .inl rfl
  · exact .inl rfl

end Store

/-- At and below `p`, the store and the table are the same. -/
structure World.Same (p : Path) (s t : World) : Prop where
  lookup : ∀ q, Within p q → t.store.lookup q = s.store.lookup q
  children : ∀ q, q ≠ rootPath → Within p q → t.store.children q = s.store.children q
  hash : ∀ q, Within p q → t.hash q = s.hash q

namespace World.Same

variable {s t u : World} {p q k : Path}

theorem refl (p : Path) (s : World) : World.Same p s s :=
  ⟨fun _ _ => rfl, fun _ _ _ => rfl, fun _ _ => rfl⟩

theorem trans (h : World.Same p s t) (h' : World.Same p t u) : World.Same p s u :=
  ⟨fun q hq => (h'.lookup q hq).trans (h.lookup q hq),
    fun q hr hq => (h'.children q hr hq).trans (h.children q hr hq),
    fun q hq => (h'.hash q hq).trans (h.hash q hq)⟩

theorem mono (h : World.Same p s t) (hq : Within p q) : World.Same q s t :=
  ⟨fun r hr => h.lookup r (hq.trans hr), fun r hn hr => h.children r hn (hq.trans hr),
    fun r hr => h.hash r (hq.trans hr)⟩

/-- A change of one path outside leaves `p` alone. -/
theorem of_changed (hk : ¬Within p k) (hst : Store.Changed k s.store t.store)
    (hh : ∀ q, q ≠ k → t.hash q = s.hash q) : World.Same p s t := by
  have hne : ∀ q, Within p q → q ≠ k := by
    rintro q hq rfl
    exact hk hq
  refine ⟨fun q hq => hst.lookup (hne q hq), ?_, fun q hq => hh q (hne q hq)⟩
  intro q hr hq
  apply hst.children
  cases hc : childName q k with
  | none => rfl
  | some x =>
    obtain ⟨rfl, _, _⟩ := childName_some hr hc
    exact (hk (hq.child x)).elim

end World.Same

section Calls

variable {cx : Ctx} {env : Env} {s t : World}

theorem World.onEntry_rest (s : World) (q : Path) (f : Entry → Entry) :
    (s.onEntry q f).store = s.store ∧ (s.onEntry q f).hash = s.hash ∧
    (s.onEntry q f).ring = s.ring ∧ (s.onEntry q f).trace = s.trace := by
  obtain ⟨heap, he⟩ := s.onEntry_eq q f
  rw [he]
  exact ⟨rfl, rfl, rfl, rfl⟩

theorem dfsMkdir_effect (env : Env) (s : World) (q : Path) :
    (dfsMkdir env s q).2.store = (dplMkdir env s.store q).2 ∧
    (dfsMkdir env s q).2.ring = s.ring ∧
    ∀ r, r ≠ q → (dfsMkdir env s q).2.hash r = s.hash r := by
  unfold dfsMkdir
  split
  · rename_i store hst
    dsimp only
    split
    · obtain ⟨heap, he⟩ := World.onEntry_eq { s with store := store } q
        fun pe => { pe with filetype := .dir }
      rw [he, hst]
      exact ⟨rfl, rfl, fun _ _ => rfl⟩
    · split
      · rename_i a u hp
        obtain ⟨_, rfl⟩ := populateHash_some hp
        rw [hst]
        exact ⟨rfl, rfl, fun r hr => Function.update_of_ne hr _ _⟩
      · rw [hst]
        exact ⟨rfl, rfl, fun _ _ => rfl⟩
  · rename_i rc store hne hst
    rw [hst]
    exact ⟨rfl, rfl, fun _ _ => rfl⟩

theorem dfsMkdir_same {p q : Path} (env : Env) (s : World) (h : ¬Within p q) :
    World.Same p s (dfsMkdir env s q).2 := by
  obtain ⟨hst, _, hh⟩ := dfsMkdir_effect env s q
  exact .of_changed h (hst ▸ Store.changed_mkdir env s.store q) hh

theorem dfsUnlink_hash {path : Path} {ret : Int} (h : dfsUnlink cx env s (.ext path) = .ok (ret, t))
    {r : Path} (hr : r ≠ path) : t.hash r = s.hash r := by
  rcases dfsUnlink_cases h with ⟨_, _, rfl⟩ | ⟨store, u, _, _, hu, hcase⟩
  · rfl
  · have hus : u.hash = s.hash := by rw [hu]; rfl
    rcases hcase with ⟨_, _, rfl⟩ | ⟨_, he⟩
    · rw [hus]
    · obtain ⟨_, freed, v, _, hv, ht⟩ := unlinkEntry_cases he
      have hvs : v.hash r = s.hash r := by
        rw [hv]
        change (u.hashRemove path).hash r = s.hash r
        rw [World.hashRemove_hash, if_neg hr, hus]
      rcases ht with ⟨_, rfl⟩ | ⟨parent, _, rfl⟩
      · exact hvs
      · obtain ⟨heap, he⟩ := v.onEntry_eq parent fun dir => pentryRemoveDirent dir
          (v.text (.ext path))
        rw [he]
        exact hvs

/-- The store after a file's rename: the copy, and then the removal of the old name. -/
theorem renameFile_effect {a b : Path} {ret : Int}
    (h : renameFile cx env s (.ext a) (.ext b) = .ok (ret, t)) :
    (t.store = (dplFcopy env s.store a b).2 ∨
      t.store = (dplUnlink env (dplFcopy env s.store a b).2 a).2) ∧
    ∀ r, r ≠ a → t.hash r = s.hash r := by
  rcases renameFile_cases h with ⟨_, _, rfl⟩ | ⟨store, u, hst, hu, ht⟩
  · exact ⟨.inl rfl, fun _ _ => rfl⟩
  · have hst' : dplFcopy env s.store a b = (.success, store) := hst
    have hus : u.store = store ∧ u.hash = s.hash := by
      rcases hu with rfl | ⟨dirname, _, rfl⟩
      · exact ⟨rfl, rfl⟩
      · obtain ⟨heap, he⟩ := World.onEntry_eq { s with store := store } dirname
          fun dir => pentryRemoveDirent dir (s.text (.ext a))
        rw [he]
        exact ⟨rfl, rfl⟩
    refine ⟨.inr ?_, fun r hr => (dfsUnlink_hash ht hr).trans (congrFun hus.2 r)⟩
    rw [dfsUnlink_store ht, hus.1, hst']

theorem renameFile_same {p a b : Path} {ret : Int} (ha : ¬Within p a) (hb : ¬Within p b)
    (h : renameFile cx env s (.ext a) (.ext b) = .ok (ret, t)) : World.Same p s t := by
  obtain ⟨hst, hh⟩ := renameFile_effect h
  have hcopy : World.Same p s { s with store := (dplFcopy env s.store a b).2 } :=
    .of_changed hb (Store.changed_fcopy env s.store a b) fun _ _ => rfl
  refine hcopy.trans (.of_changed ha ?_ hh)
  rcases hst with hst | hst
  · exact .inl hst
  · rw [hst]
    exact Store.changed_unlink env _ a

/-- `dfs_rmdir` on a value: on success the name of the cache directory is in the ring. -/
theorem dfsRmdir_effect {a : Path} {ret : Int} (h : dfsRmdir cx env s (.ext a) = .ok (ret, t)) :
    t.store = (dplRmdir env s.store a).2 ∧ t.hash = s.hash ∧
    t.ring = s.ring.pushAll
    (if (dplRmdir env s.store a).1 = .success then [slashName cx a] else []) ∧
    t.trace = s.trace ++ [.rmdir a (s.store.children a)] := by
  unfold dfsRmdir at h
  dsimp only at h
  split at h
  · rename_i store hst
    have hst' : dplRmdir env s.store a = (.success, store) := hst
    have hl : World.Lasts { s.log (.rmdir a (s.store.children a)) with store := store } (.ext a)
      (0 + 1) := trivial
    rw [show s.text (.ext a) = a from rfl, World.printCacheName hl] at h
    simp only [bind, Except.bind, Except.ok.injEq, Prod.mk.injEq] at h
    rw [← h.2, hst', if_pos rfl]
    exact World.onEntry_rest { s.log (.rmdir a (s.store.children a)) with
      store := store, ring := s.ring.push (slashName cx a) } a _
  · rename_i rc store hne hst
    have hst' : dplRmdir env s.store a = (rc, store) := hst
    simp only [Except.ok.injEq, Prod.mk.injEq] at h
    rw [← h.2, hst', if_neg (fun e => hne e)]
    exact ⟨rfl, rfl, rfl, rfl⟩

theorem dfsRmdir_same {p a : Path} {ret : Int} (ha : ¬Within p a)
    (h : dfsRmdir cx env s (.ext a) = .ok (ret, t)) : World.Same p s t := by
  obtain ⟨hst, hh, _, _⟩ := dfsRmdir_effect h
  exact .of_changed ha (hst ▸ Store.changed_rmdir env s.store a) fun r _ => congrFun hh r

end Calls

/-- The calls a directory rename of `o` to `n` is made of, with the paths they are made on. -/
structure MoveSteps (cx : Ctx) (env : Env) (o n : Path) (I : World → Prop) : Prop where
  aside : ∀ s ring cwd trace, I s → I { s with ring := ring, cwd := cwd, trace := trace }
  mkdir : ∀ s q, Within n q → I s → I (dfsMkdir env s q).2
  file : ∀ s a b ret t, Within o a → Within n b → I s →
    renameFile cx env s (.ext a) (.ext b) = .ok (ret, t) → I t
  rmdir : ∀ s a ret t, Within o a → I s → dfsRmdir cx env s (.ext a) = .ok (ret, t) → I t

theorem MoveSteps.mono {cx : Ctx} {env : Env} {o n o' n' : Path} {I : World → Prop}
    (h : MoveSteps cx env o n I) (ho : Within o o') (hn : Within n n') :
    MoveSteps cx env o' n' I :=
  ⟨h.aside, fun s q hq => h.mkdir s q (hn.trans hq),
    fun s a b ret t ha hb => h.file s a b ret t (ho.trans ha) (hn.trans hb),
    fun s a ret t ha => h.rmdir s a ret t (ho.trans ha)⟩

/-- A path apart from both sides of a rename stays as it is. -/
theorem MoveSteps.same {cx : Ctx} {env : Env} {o n p : Path} (s : World) (ho : Separate p o)
    (hn : Separate p n) : MoveSteps cx env o n (World.Same p s) := by
  have hout : ∀ {q r}, Separate p q → Within q r → ¬Within p r := fun hs hr hp => hs.not_both hp hr
  refine ⟨?_, ?_, ?_, ?_⟩
  · intro u ring cwd trace hu
    exact ⟨hu.lookup, hu.children, hu.hash⟩
  · intro u q hq hu
    exact hu.trans (dfsMkdir_same env u (hout hn hq))
  · intro u a b ret t ha hb hu h
    exact hu.trans (renameFile_same (hout ho ha) (hout hn hb) h)
  · intro u a ret t ha hu h
    exact hu.trans (dfsRmdir_same (hout ho ha) h)

end DropletFs
