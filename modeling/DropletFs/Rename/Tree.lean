import DropletFs.Rename.Merge

/-! What the rename of a directory comes to when its calls go through: the whole tree below the
old path is below the new one, and nothing else has changed. -/

namespace DropletFs

open CText LocalFs

namespace Forest

/-- The paths of the objects, relative to the directory. -/
def rels : Forest → List CStr
  | nil => []
  | file x rest => x :: rest.rels
  | dir x sub rest => x :: (sub.rels.map (child x) ++ rest.rels)

/-- Nothing in `n` is in the way of these entries: no directory where a file is to go, and nothing
but a directory where a directory is to go. -/
def Free (st : Store) (n : Path) : Forest → Prop
  | nil => True
  | file x rest => st.ftype? (child n x) ≠ some .dir ∧ rest.Free st n
  | dir x sub rest => (∀ type, st.ftype? (child n x) = some type → type = .dir) ∧
      sub.Free st (child n x) ∧ rest.Free st n

theorem rels_within {f : Forest} {r : CStr} (h : r ∈ f.rels) : ∃ x ∈ f.names, Within x r := by
  induction f with
  | nil => cases h
  | file x rest ih =>
    rcases List.mem_cons.mp h with rfl | h
    · exact ⟨r, List.mem_cons_self .., Within.refl r⟩
    · obtain ⟨y, hy, hw⟩ := ih h
      exact ⟨y, List.mem_cons_of_mem x hy, hw⟩
  | dir x sub rest _ ih =>
    rcases List.mem_cons.mp h with rfl | h
    · exact ⟨r, List.mem_cons_self .., Within.refl r⟩
    rcases List.mem_append.mp h with h | h
    · obtain ⟨y, _, rfl⟩ := List.mem_map.mp h
      exact ⟨x, List.mem_cons_self .., Within.child_self x y⟩
    · obtain ⟨y, hy, hw⟩ := ih h
      exact ⟨y, List.mem_cons_of_mem x hy, hw⟩

/-- Every path of the forest has an object. -/
theorem In.found {st : Store} {p : Path} {f : Forest} (h : f.In st p) (hp : p ≠ []) {r : CStr}
    (hr : r ∈ f.rels) : (st.lookup (child p r)).isSome := by
  have hsome : ∀ {q x type}, q ≠ [] → st.ftype? (child q x) = some type →
      (st.lookup (child q x)).isSome := by
    intro q x type hq ht
    rw [Store.ftype?_of_ne (child_ne_root hq x)] at ht
    obtain ⟨ob, ho, _⟩ := Option.map_eq_some_iff.mp ht
    rw [ho]
    rfl
  induction f generalizing p r with
  | nil => cases hr
  | file x rest ih =>
    obtain ⟨_, _, ⟨type, ht, _⟩, hrest⟩ := h
    rcases List.mem_cons.mp hr with rfl | hr
    · exact hsome hp ht
    · exact ih hrest hp hr
  | dir x sub rest ihsub ih =>
    obtain ⟨_, _, ht, _, hin, hrest⟩ := h
    rcases List.mem_cons.mp hr with rfl | hr
    · exact hsome hp ht
    rcases List.mem_append.mp hr with hr | hr
    · obtain ⟨z, hz, rfl⟩ := List.mem_map.mp hr
      rw [← child_child]
      exact ihsub hin (child_ne_nil p x) hz
    · exact ih hrest hp hr

theorem names_subset_rels {f : Forest} {x : CStr} (h : x ∈ f.names) : x ∈ f.rels := by
  induction f with
  | nil => cases h
  | file y rest ih =>
    rcases List.mem_cons.mp h with rfl | h
    · exact List.mem_cons_self ..
    · exact List.mem_cons_of_mem y (ih h)
  | dir y sub rest _ ih =>
    rcases List.mem_cons.mp h with rfl | h
    · exact List.mem_cons_self ..
    · exact List.mem_cons_of_mem y (List.mem_append_right _ (ih h))

end Forest

/-- Below two entries of a directory there is no common path. -/
theorem rels_disjoint {x y r r' : CStr} (hx : '/' ∉ x) (hy : '/' ∉ y) (hne : x ≠ y)
    (hr : Within x r) (hr' : Within y r') : r ≠ r' := by
  rintro rfl
  rcases hr.comparable hr' with h | h
  · exact hne (h.eq_of_notMem hy).symm
  · exact hne (h.eq_of_notMem hx)

/-- The objects at the paths `rs` below `o` have gone to the same paths below `n`, and no other
object has changed. -/
structure Relocates (st st' : Store) (o n : Path) (rs : List CStr) : Prop where
  gone : ∀ r ∈ rs, st'.lookup (child o r) = none
  file : ∀ r ∈ rs, ∀ ob, st.lookup (child o r) = some ob → ob.ftype ≠ .dir →
    st'.lookup (child n r) = some ob
  dir : ∀ r ∈ rs, st.ftype? (child o r) = some .dir → st'.ftype? (child n r) = some .dir
  others : ∀ q, (∀ r ∈ rs, q ≠ child o r ∧ q ≠ child n r) → st'.lookup q = st.lookup q

namespace Relocates

variable {st st' st'' : Store} {o n : Path} {rs rs' : List CStr}

theorem nil (st : Store) (o n : Path) : Relocates st st o n [] where
  gone _ h := by cases h
  file _ h := by cases h
  dir _ h := by cases h
  others _ _ := rfl

theorem ftype (h : Relocates st st' o n rs) {q : Path}
    (hq : ∀ r ∈ rs, q ≠ child o r ∧ q ≠ child n r) :
    st'.ftype? q = st.ftype? q := by
  rw [Store.ftype?, Store.ftype?, h.others q hq]

/-- One list of paths and then another one. -/
theorem append (hsep : Separate o n) (h : Relocates st st' o n rs) (h' : Relocates st' st'' o n rs')
    (hne : ∀ r ∈ rs, ∀ r' ∈ rs', r ≠ r') : Relocates st st'' o n (rs ++ rs') := by
  -- what the other list does passes these paths by
  have hold : ∀ r ∈ rs, ∀ r' ∈ rs', child o r ≠ child o r' ∧ child o r ≠ child n r' :=
    fun r hr r' hr' => ⟨fun he => hne r hr r' hr' (child_injective he), hsep.child_ne r r'⟩
  have hnew : ∀ r ∈ rs, ∀ r' ∈ rs', child n r ≠ child o r' ∧ child n r ≠ child n r' :=
    fun r hr r' hr' => ⟨(hsep.child_ne r' r).symm, fun he => hne r hr r' hr' (child_injective he)⟩
  have hold' : ∀ r' ∈ rs', ∀ r ∈ rs, child o r' ≠ child o r ∧ child o r' ≠ child n r :=
    fun r' hr' r hr => ⟨(hold r hr r' hr').1.symm, hsep.child_ne r' r⟩
  refine ⟨?_, ?_, ?_, ?_⟩
  · intro r hr
    rcases List.mem_append.mp hr with hr | hr
    · rw [h'.others _ (hold r hr)]
      exact h.gone r hr
    · exact h'.gone r hr
  · intro r hr ob ho hd
    rcases List.mem_append.mp hr with hr | hr
    · rw [h'.others _ (hnew r hr)]
      exact h.file r hr ob ho hd
    · apply h'.file r hr ob _ hd
      rw [h.others _ (hold' r hr)]
      exact ho
  · intro r hr hd
    rcases List.mem_append.mp hr with hr | hr
    · rw [h'.ftype (hnew r hr)]
      exact h.dir r hr hd
    · apply h'.dir r hr
      rw [h.ftype (hold' r hr)]
      exact hd
  · intro q hq
    rw [h'.others q fun r hr => hq r (List.mem_append_right rs hr)]
    exact h.others q fun r hr => hq r (List.mem_append_left rs' hr)

/-- The paths of a directory's entries, seen from the directory it is in. -/
theorem below {x : CStr} (h : Relocates st st' (child o x) (child n x) rs) :
    Relocates st st' o n (rs.map (child x)) := by
  refine ⟨?_, ?_, ?_, ?_⟩
  · intro r hr
    obtain ⟨z, hz, rfl⟩ := List.mem_map.mp hr
    rw [← child_child]
    exact h.gone z hz
  · intro r hr ob ho hd
    obtain ⟨z, hz, rfl⟩ := List.mem_map.mp hr
    rw [← child_child] at ho ⊢
    exact h.file z hz ob ho hd
  · intro r hr hd
    obtain ⟨z, hz, rfl⟩ := List.mem_map.mp hr
    rw [← child_child] at hd ⊢
    exact h.dir z hz hd
  · intro q hq
    apply h.others q
    intro r hr
    rw [child_child, child_child]
    exact hq _ (List.mem_map_of_mem hr)

/-- A file: the copy, and the removal of the old name. -/
theorem single {x : CStr} {ob : Obj} (hne : child o x ≠ child n x)
    (ho : st.lookup (child o x) = some ob) (hd : ob.ftype ≠ .dir) (hroot : child o x ≠ rootPath) :
    Relocates st ((st.insert (child n x) ob).erase (child o x)) o n [x] := by
  refine ⟨?_, ?_, ?_, ?_⟩
  · intro r hr
    obtain rfl := List.mem_singleton.mp hr
    exact AList.lookup_erase _ _
  · intro r hr ob' ho' _
    obtain rfl := List.mem_singleton.mp hr
    obtain rfl : ob = ob' := Option.some.inj (ho.symm.trans ho')
    rw [AList.lookup_erase_ne hne.symm, AList.lookup_insert]
  · intro r hr hdir
    obtain rfl := List.mem_singleton.mp hr
    rw [Store.ftype?_of_ne hroot, ho] at hdir
    exact (hd (Option.some.inj hdir)).elim
  · intro q hq
    obtain ⟨h1, h2⟩ := hq x (List.mem_singleton_self x)
    rw [AList.lookup_erase_ne h1, AList.lookup_insert_ne h2]

end Relocates

/-- Exactly `k` temporary strings lie between the two states, all of them with the property. -/
def World.Printed (s t : World) (k : Nat) (P : CStr → Prop) : Prop :=
  ∃ texts, t.ring = s.ring.pushAll texts ∧ texts.length = k ∧ ∀ text ∈ texts, P text

namespace World.Printed

variable {s t u : World} {k m : Nat} {P Q : CStr → Prop}

theorem of_ring (h : t.ring = s.ring) : s.Printed t 0 P :=
  ⟨[], h, rfl, fun _ ht => by cases ht⟩

theorem trans (h : s.Printed t k P) (h' : t.Printed u m P) : s.Printed u (k + m) P := by
  obtain ⟨texts, hr, hl, hp⟩ := h
  obtain ⟨texts', hr', hl', hp'⟩ := h'
  refine ⟨texts ++ texts', ?_, ?_, ?_⟩
  · rw [hr', hr, RingBuffer.pushAll_append]
  · rw [List.length_append, hl, hl']
  · intro text ht
    exact (List.mem_append.mp ht).elim (hp text) (hp' text)

theorem imp (h : s.Printed t k P) (hPQ : ∀ text, P text → Q text) : s.Printed t k Q := by
  obtain ⟨texts, hr, hl, hp⟩ := h
  exact ⟨texts, hr, hl, fun text ht => hPQ text (hp text ht)⟩

end World.Printed

/-- The freed entry of the path still has a text, and `pentry_get_parent` gets by with it. -/
def Env.FreesWell (env : Env) (path : Path) : Prop :=
  ∃ freed parent, env.stale path = some freed ∧ pentryGetParent (tmpstr freed) = .ok parent

/-- A temporary string of the rename of the object at `a` to `b`. -/
def PathText (cx : Ctx) (env : Env) (a b : Path) (text : CStr) : Prop :=
  text = a ∨ text = b ∨ text = slashName cx a ∨
    ∃ freed, env.stale a = some freed ∧ text = tmpstr freed

/-- A temporary string of the renames of the objects at the paths `rs` below `o`. -/
def TreeText (cx : Ctx) (env : Env) (o n : Path) (rs : List CStr) (text : CStr) : Prop :=
  ∃ r ∈ rs, PathText cx env (child o r) (child n r) text

section Calls

variable {cx : Ctx} {env : Env} {s t u : World} {o n a b : Path}

theorem unlinkEntry_done (cx : Ctx) (hf : env.FreesWell a) :
    ∃ t, unlinkEntry env s (.ext a) = .ok (0, t) ∧ t.store = s.store ∧
      s.Printed t 1 (PathText cx env a b) := by
  obtain ⟨freed, parent, hstale, hparent⟩ := hf
  have hext : ∀ u : World, u.text (.ext a) = a := fun _ => rfl
  have hno : .tmp (s.hashRemove a).ring.next ∉ [Str.ext freed] := by simp
  have hflat : [Str.ext freed].flatMap (s.hashRemove a).text = freed := by
    simp [World.text, Str.read]
  have hprint : ∀ f : World → World, (∀ u, (f u).ring = u.ring) → s.Printed
      (f { s.hashRemove a with ring := (s.hashRemove a).ring.push (tmpstr freed) }) 1
      (PathText cx env a b) := by
    intro f hring
    refine ⟨[tmpstr freed], ?_, rfl, ?_⟩
    · rw [hring]
      change (s.hashRemove a).ring.push _ = _
      rw [World.hashRemove_ring]
      rfl
    · intro text ht
      obtain rfl := List.mem_singleton.mp ht
      exact .inr (.inr (.inr ⟨freed, hstale, rfl⟩))
  have hbuf : World.text { s.hashRemove a with ring := (s.hashRemove a).ring.push (tmpstr freed) }
      (.tmp (s.hashRemove a).ring.next) = tmpstr freed := RingBuffer.push_slots_next _ _
  unfold unlinkEntry
  simp only [hext, hstale]
  rw [World.tmpstrPrintf_of_notMem hno, hflat]
  simp only [bind, Except.bind, hbuf, hparent]
  cases parent with
  | none => exact ⟨_, rfl, World.hashRemove_store s a, hprint id fun _ => rfl⟩
  | some parent =>
    refine ⟨_, rfl, ?_, hprint _ fun u => World.onEntry_ring u _ _⟩
    rw [(World.onEntry_rest _ _ _).1]
    exact World.hashRemove_store s a

theorem dfsUnlink_done (cx : Ctx) {ob : Obj} (hok : env.RemoteOk) (ho : s.store.lookup a = some ob)
    (hd : ob.ftype ≠ .dir) (hroot : a ≠ rootPath)
    (hf : (s.hash a).isSome → env.FreesWell a) :
    ∃ t, dfsUnlink cx env s (.ext a) = .ok (0, t) ∧ t.store = s.store.erase a ∧
      s.Printed t (1 + if (s.hash a).isSome then 1 else 0) (PathText cx env a b) := by
  have hun : dplUnlink env s.store a = (.success, s.store.erase a) := by
    unfold dplUnlink
    rw [hok.remote, Store.ftype?_of_ne hroot, ho]
    dsimp only [Option.map_some]
    split
    · rename_i h
      cases h
    · rename_i h
      exact (hd (Option.some.inj h)).elim
    · rfl
  let v : World := World.withoutCacheFile cx env { s with store := s.store.erase a } a
  have hcache : s.Printed v 1 (PathText cx env a b) := by
    refine ⟨[slashName cx a], rfl, rfl, ?_⟩
    intro text ht
    obtain rfl := List.mem_singleton.mp ht
    exact .inr (.inr (.inl rfl))
  have hlast : World.Lasts { s with store := s.store.erase a } (.ext a) (0 + 1) := trivial
  have hv : World.unlinkCacheFile cx env { s with store := s.store.erase a } (.ext a) = .ok v :=
    World.unlinkCacheFile_eq hlast
  have hext : ∀ u : World, u.text (.ext a) = a := fun _ => rfl
  unfold dfsUnlink
  rw [hext, hun]
  dsimp only
  rw [hv]
  simp only [bind, Except.bind, hext]
  have hhash : v.hash a = s.hash a := rfl
  cases hh : s.hash a with
  | none =>
    rw [hh] at hhash
    simp only [hhash]
    exact ⟨v, rfl, rfl, hcache⟩
  | some c =>
    rw [hh] at hhash
    simp only [hhash]
    obtain ⟨t, ht, hst, hp⟩ := unlinkEntry_done cx (s := v) (b := b) (hf (by rw [hh]; rfl))
    exact ⟨t, ht, hst, hcache.trans hp⟩

/-- The rename of a file whose calls go through. -/
theorem renameFile_done (cx : Ctx) {ob : Obj} (hok : env.RemoteOk) (ho : s.store.lookup a = some ob)
    (hd : ob.ftype ≠ .dir) (hroot : a ≠ rootPath) (hne : a ≠ b)
    (hb : s.store.ftype? b ≠ some .dir) (hf : (s.hash a).isSome → env.FreesWell a) :
    ∃ t, renameFile cx env s (.ext a) (.ext b) = .ok (0, t) ∧
      t.store = (s.store.insert b ob).erase a ∧
      s.Printed t (1 + if (s.hash a).isSome then 1 else 0) (PathText cx env a b) := by
  have hcopy : dplFcopy env s.store a b = (.success, s.store.insert b ob) := by
    unfold dplFcopy
    rw [hok.remote]
    dsimp only
    rw [if_neg (by rw [not_or]; exact ⟨hroot, hb⟩), ho]
    dsimp only
    rw [if_neg hd]
  have hext : ∀ (u : World) (p : Path), u.text (.ext p) = p := fun _ _ => rfl
  unfold renameFile
  rw [hext, hext, hcopy]
  simp only [hext]
  have hdone : ∀ v : World, v.store = s.store.insert b ob → v.hash = s.hash → v.ring = s.ring →
      ∃ t, dfsUnlink cx env v (.ext a) = .ok (0, t) ∧ t.store = (s.store.insert b ob).erase a ∧
        s.Printed t (1 + if (s.hash a).isSome then 1 else 0) (PathText cx env a b) := by
    intro v hst hhash hring
    have hov : v.store.lookup a = some ob := by rw [hst, AList.lookup_insert_ne hne, ho]
    obtain ⟨t, ht, hts, hp⟩ := dfsUnlink_done cx (b := b) hok hov hd hroot (hhash ▸ hf)
    rw [hhash] at hp
    refine ⟨t, ht, by rw [hts, hst], ?_⟩
    have hp' := (World.Printed.of_ring (P := PathText cx env a b) hring).trans hp
    rwa [Nat.zero_add] at hp'
  cases renameDirname b with
  | none => exact hdone _ rfl rfl rfl
  | some dirname =>
    apply hdone
    · exact (World.onEntry_rest _ _ _).1
    · exact (World.onEntry_rest _ _ _).2.1
    · exact World.onEntry_ring _ _ _

theorem Store.children_eq_nil {st : Store} {p : Path} (hp : p ≠ rootPath)
    (h : ∀ x, x ≠ [] → '/' ∉ x → st.lookup (child p x) = none) : st.children p = [] := by
  rw [Store.children, List.filterMap_eq_nil_iff]
  intro k hk
  cases hc : childName p k with
  | none => rfl
  | some x =>
    obtain ⟨rfl, hx, hs⟩ := childName_some hp hc
    have hnone := h x hx hs
    rw [AList.lookup_eq_none] at hnone
    exact (hnone hk).elim

theorem Store.mem_children {st : Store} {p x : CStr} (hp : p ≠ rootPath) (hx : x ≠ [])
    (hs : '/' ∉ x) (h : (st.lookup (child p x)).isSome) : x ∈ st.children p := by
  rw [Store.children, List.mem_filterMap]
  exact ⟨child p x, AList.lookup_isSome.mp h, childName_child hp hx hs⟩

/-- A directory whose entries have all been moved is removed. -/
theorem dfsRmdir_done (cx : Ctx) (hok : env.RemoteOk) (hroot : a ≠ rootPath)
    (hd : s.store.ftype? a = some .dir) (hc : s.store.children a = []) :
    ∃ t, dfsRmdir cx env s (.ext a) = .ok (0, t) ∧ t.store = s.store.erase a ∧ t.hash = s.hash ∧
      s.Printed t 1 (PathText cx env a b) := by
  have hrm : dplRmdir env s.store a = (.success, s.store.erase a) := by
    unfold dplRmdir
    rw [hok.remote]
    dsimp only
    rw [if_neg hroot, hd]
    dsimp only
    rw [if_pos hc]
  obtain ⟨t, ht⟩ : ∃ t, dfsRmdir cx env s (.ext a) = .ok (0, t) := by
    have hlast : World.Lasts { s.log (.rmdir a (s.store.children a)) with
      store := s.store.erase a } (.ext a) (0 + 1) := trivial
    have hext : ∀ u : World, u.text (.ext a) = a := fun _ => rfl
    unfold dfsRmdir
    simp only [hext]
    rw [show (s.log (.rmdir a (s.store.children a))).store = s.store from rfl, hrm]
    dsimp only
    rw [World.printCacheName hlast]
    exact ⟨_, rfl⟩
  obtain ⟨hst, hh, hring, _⟩ := dfsRmdir_effect ht
  rw [hrm] at hst hring
  refine ⟨t, ht, hst, hh, [slashName cx a], hring, rfl, ?_⟩
  intro text htext
  obtain rfl := List.mem_singleton.mp htext
  exact .inr (.inr (.inl rfl))

end Calls

section Loop

variable {cx : Ctx} {env : Env} {s t u : World} {o n : Path}

/-- What the rename of a tree relies on besides the names: nothing is in its way, the freed
entries are read without harm, and the stack is deep enough. -/
structure Clear (env : Env) (s : World) (o n : Path) (f : Forest) (depth : Nat) : Prop where
  free : f.Free s.store n
  freed : ∀ r ∈ f.rels, (s.hash (child o r)).isSome → env.FreesWell (child o r)
  height : f.height ≤ depth

theorem Forest.Free.congr {f : Forest} {st st' : Store} (h : f.Free st n)
    (hs : ∀ r ∈ f.rels, st'.ftype? (child n r) = st.ftype? (child n r)) : f.Free st' n := by
  induction f generalizing n with
  | nil => trivial
  | file x rest ih =>
    refine ⟨?_, ih h.2 fun r hr => hs r (List.mem_cons_of_mem x hr)⟩
    rw [hs x (List.mem_cons_self ..)]
    exact h.1
  | dir x sub rest ihsub ih =>
    refine ⟨?_, ihsub h.2.1 ?_, ih h.2.2 ?_⟩
    · rw [hs x (List.mem_cons_self ..)]
      exact h.1
    · intro r hr
      rw [child_child]
      apply hs
      exact List.mem_cons_of_mem x (List.mem_append_left _ (List.mem_map_of_mem hr))
    · intro r hr
      exact hs r (List.mem_cons_of_mem x (List.mem_append_right _ hr))

/-- What the rename of one entry leaves for the others. -/
theorem Clear.after_entry {f : Forest} {x : CStr} {depth : Nat} (hc : Clear env s o n f depth)
    (hr : Ready s o n f) (hx : Proper x) (hnew : x ∉ f.names)
    (hkeep : ∀ I, MoveSteps cx env (child o x) (child n x) I → I s → I u) :
    Clear env u o n f depth := by
  have hne : ∀ y ∈ f.names, y ≠ x := by
    rintro y hy rfl
    exact hnew hy
  have hold : ∀ y ∈ f.names, World.Same (child o y) s u := by
    intro y hy
    apply hkeep _ (MoveSteps.same s _ _) (.refl _ _)
    · exact Separate.siblings (hr.entries.proper hy).2.1 hx.2.1 (hne y hy) o
    · exact hr.separate.mono (Within.child_self o y) (Within.child_self n x)
  have hnew' : ∀ y ∈ f.names, World.Same (child n y) s u := by
    intro y hy
    apply hkeep _ (MoveSteps.same s _ _) (.refl _ _)
    · exact (hr.separate.mono (Within.child_self o x) (Within.child_self n y)).symm
    · exact Separate.siblings (hr.entries.proper hy).2.1 hx.2.1 (hne y hy) n
  have hwithin : ∀ p, ∀ r ∈ f.rels, ∃ y ∈ f.names, Within (child p y) (child p r) := by
    intro p r hr
    obtain ⟨y, hy, hw⟩ := Forest.rels_within hr
    refine ⟨y, hy, ?_⟩
    rcases Within.iff_append.mp hw with rfl | ⟨z, rfl⟩
    · exact Within.refl _
    · rw [← child_child]
      exact Within.child_self _ z
  refine ⟨hc.free.congr ?_, ?_, hc.height⟩
  · intro r hr
    obtain ⟨y, hy, hw⟩ := hwithin n r hr
    rw [Store.ftype?, Store.ftype?, (hnew' y hy).lookup _ hw]
  · intro r hr
    obtain ⟨y, hy, hw⟩ := hwithin o r hr
    rw [(hold y hy).hash _ hw]
    exact hc.freed r hr

theorem Ready.of_eq {f : Forest} (h : Ready s o n f) (hst : u.store = s.store)
    (hh : u.hash = s.hash) : Ready u o n f :=
  ⟨h.named, h.separate, hst ▸ h.entries, h.shortOld, h.shortNew, hh ▸ h.safe⟩

theorem Clear.of_eq {f : Forest} {depth : Nat} (h : Clear env s o n f depth)
    (hst : u.store = s.store) (hh : u.hash = s.hash) : Clear env u o n f depth :=
  ⟨hst ▸ h.free, hh ▸ h.freed, h.height⟩

/-- The setup of a directory whose forest is known, and the names it reads. -/
theorem renameSetup_ready (cx : Ctx) {f : Forest} {type : FType} {names : List CStr}
    (hr : Ready s o n f) (hroot : o ≠ rootPath) (hc : s.store.children o = f.names)
    (hset : renameSetup env (s.log (.enter o n)) o n = (.ok (type, names), u)) :
    World.Same o s u ∧ Ready u o n f ∧ f.cost u.hash o = f.cost s.hash o ∧ u.ring = s.ring ∧
      names = ['.'] :: ['.', '.'] :: f.listed := by
  obtain ⟨v, cwd, hv, he, hok⟩ := renameSetup_spec env (s.log (.enter o n)) o n
  obtain ⟨hring, _⟩ := renameSetup_steps cx env (s.log (.enter o n)) o n
  rw [hset] at he hok hring
  have hsame : World.Same o s u := by
    rw [show u = { v with cwd := cwd } from he]
    rcases hv with rfl | rfl
    · exact ⟨fun _ _ => rfl, fun _ _ _ => rfl, fun _ _ => rfl⟩
    · have hmk := dfsMkdir_same env (s.log (.enter o n)) hr.separate.1
      exact ⟨hmk.lookup, hmk.children, hmk.hash⟩
  obtain ⟨hready, hcost⟩ := hr.same fun x _ => hsame.mono (Within.child_self o x)
  refine ⟨hsame, hready, hcost, hring, ?_⟩
  have hstore : v.store = u.store := by rw [show u = { v with cwd := cwd } from he]
  obtain ⟨_, hnames⟩ := hok type names rfl
  rw [hnames, hstore, (hsame.children o hroot (Within.refl o)).trans hc,
    Forest.listed_eq hroot hready.entries]

/-- The directory `o` with the objects at the paths `rs` below it has gone to `n`. -/
structure MovesTree (st st' : Store) (o n : Path) (rs : List CStr) : Prop where
  source : st'.lookup o = none
  target : st'.ftype? n = some .dir
  gone : ∀ r ∈ rs, st'.lookup (child o r) = none
  file : ∀ r ∈ rs, ∀ ob, st.lookup (child o r) = some ob → ob.ftype ≠ .dir →
    st'.lookup (child n r) = some ob
  dir : ∀ r ∈ rs, st.ftype? (child o r) = some .dir → st'.ftype? (child n r) = some .dir
  others : ∀ q, q ≠ o → q ≠ n → (∀ r ∈ rs, q ≠ child o r ∧ q ≠ child n r) →
    st'.lookup q = st.lookup q

/-- Seen from the directory it is in. -/
theorem MovesTree.entry {st st' : Store} {x : CStr} {rs : List CStr}
    (h : MovesTree st st' (child o x) (child n x) rs) (hroot : child o x ≠ rootPath)
    (hd : st.ftype? (child o x) = some .dir) : Relocates st st' o n (x :: rs.map (child x)) := by
  refine ⟨?_, ?_, ?_, ?_⟩
  · intro r hr
    rcases List.mem_cons.mp hr with rfl | hr
    · exact h.source
    · obtain ⟨z, hz, rfl⟩ := List.mem_map.mp hr
      rw [← child_child]
      exact h.gone z hz
  · intro r hr ob ho hfd
    rcases List.mem_cons.mp hr with rfl | hr
    · rw [Store.ftype?_of_ne hroot, ho] at hd
      exact (hfd (Option.some.inj hd)).elim
    · obtain ⟨z, hz, rfl⟩ := List.mem_map.mp hr
      rw [← child_child] at ho ⊢
      exact h.file z hz ob ho hfd
  · intro r hr hrd
    rcases List.mem_cons.mp hr with rfl | hr
    · exact h.target
    · obtain ⟨z, hz, rfl⟩ := List.mem_map.mp hr
      rw [← child_child] at hrd ⊢
      exact h.dir z hz hrd
  · intro q hq
    obtain ⟨h1, h2⟩ := hq x (List.mem_cons_self ..)
    apply h.others q h1 h2
    intro r hr
    rw [child_child, child_child]
    exact hq _ (List.mem_cons_of_mem x (List.mem_map_of_mem hr))

theorem TreeText.mono {rs rs' : List CStr} (hs : ∀ r ∈ rs, r ∈ rs') {text : CStr}
    (h : TreeText cx env o n rs text) : TreeText cx env o n rs' text := by
  obtain ⟨r, hr, ht⟩ := h
  exact ⟨r, hs r hr, ht⟩

theorem TreeText.below {x : CStr} {rs : List CStr} {text : CStr}
    (h : TreeText cx env (child o x) (child n x) rs text) :
    TreeText cx env o n (rs.map (child x)) text := by
  obtain ⟨r, hr, ht⟩ := h
  rw [child_child, child_child] at ht
  exact ⟨child x r, List.mem_map_of_mem hr, ht⟩

/-- The loop on values moves the forest. -/
def LoopMoves (cx : Ctx) (env : Env) (f : Forest) (depth : Nat) (s : World) (o n : Path)
    (type : FType) (ret : Int) : Prop :=
  ∃ t, moveEntries cx env (moveDirectory cx env depth) o n f.listed s type ret =
      .ok (if f = .nil then ret else 0, t) ∧
    Relocates s.store t.store o n f.rels ∧
    s.Printed t (f.cost s.hash o) (TreeText cx env o n f.rels)

/-- A directory, once this is known of its loop. -/
theorem moveDirectory_moves {f : Forest} {depth : Nat} (hok : env.AllOk) (hr : Ready s o n f)
    (hroot : o ≠ rootPath) (hdir : s.store.ftype? o = some .dir)
    (hc : s.store.children o = f.names)
    (htarget : ∀ type, s.store.ftype? n = some type → type = .dir)
    (hclear : Clear env s o n f depth)
    (hloop : ∀ (v : World) (type : FType) (ret : Int), Ready v o n f → Clear env v o n f depth →
      LoopMoves cx env f depth v o n type ret) :
    ∃ t, moveDirectory cx env (depth + 1) s o n = .ok (0, t) ∧
      MovesTree s.store t.store o n f.rels ∧
      s.Printed t (f.cost s.hash o + 1)
        (fun text => TreeText cx env o n f.rels text ∨ PathText cx env o n text) := by
  have hne : o ≠ n := hr.separate.ne
  have hdir' : (s.log (.enter o n)).store.ftype? o = some .dir := hdir
  obtain ⟨v, type, names, hset, hv⟩ := renameSetup_answered hok hdir' hne
  obtain ⟨hsame, hready, hcost, hring, rfl⟩ := renameSetup_ready cx hr hroot hc hset
  have hnt : v.store.ftype? n = some .dir ∧ ∀ q, q ≠ n → v.store.lookup q = s.store.lookup q := by
    rcases hv with ⟨hsome, hst⟩ | ⟨_, hno, hst⟩
    · obtain ⟨t, ht⟩ := Option.isSome_iff_exists.mp hsome
      refine ⟨?_, fun q _ => by rw [hst]; rfl⟩
      rw [hst, ht]
      exact congrArg some (htarget t ht)
    · have hnroot : n ≠ rootPath := by
        rintro rfl
        rw [Store.ftype?_root] at hno
        cases hno
      refine ⟨?_, fun q hq => by rw [hst, AList.lookup_insert_ne hq]; rfl⟩
      rw [hst, Store.ftype?_of_ne hnroot, AList.lookup_insert]
      rfl
  obtain ⟨hvn, hvq⟩ := hnt
  have hclear' : Clear env v o n f depth := by
    refine ⟨hclear.free.congr ?_, ?_, hclear.height⟩
    · intro r _
      have hcn : child n r ≠ n := by
        intro he
        have hl := congrArg List.length he
        rw [child_length] at hl
        omega
      rw [Store.ftype?, Store.ftype?, hvq _ hcn]
    · intro r hr
      rw [hsame.hash _ (Within.child_self o r)]
      exact hclear.freed r hr
  let w := (v.log (.iter o n)).log (.iter o n)
  obtain ⟨t, ht, hmoves, hprint⟩ := hloop w type 0 (hready.of_eq rfl rfl) (hclear'.of_eq rfl rfl)
  have hout : ∀ q, Within q o → ∀ r ∈ f.rels, q ≠ child o r ∧ q ≠ child n r := by
    refine fun q hq r _ => ⟨?_, ?_⟩
    · rintro rfl
      exact Within.not_child_self o r hq
    · rintro rfl
      exact hr.separate.2 ((Within.child_self n r).trans hq)
  have hout' : ∀ r ∈ f.rels, n ≠ child o r ∧ n ≠ child n r := by
    refine fun r _ => ⟨fun he => hr.separate.1 (he ▸ Within.child_self o r), fun he => ?_⟩
    exact Within.not_child_self n r (he ▸ Within.refl n)
  have htdir : t.store.ftype? o = some .dir := by
    rw [hmoves.ftype (hout o (Within.refl o))]
    change v.store.ftype? o = some .dir
    rw [hsame.ftype]
    exact hdir
  have hempty : t.store.children o = [] := by
    apply Store.children_eq_nil hroot
    intro x hx hs
    by_cases hmem : x ∈ f.rels
    · exact hmoves.gone x hmem
    · have hother : ∀ r ∈ f.rels, child o x ≠ child o r ∧ child o x ≠ child n r := by
        refine fun r hrel => ⟨fun he => ?_, hr.separate.child_ne x r⟩
        rw [child_injective he] at hmem
        exact hmem hrel
      rw [hmoves.others _ hother]
      change v.store.lookup (child o x) = none
      rw [hsame.lookup _ (Within.child_self o x)]
      by_contra hsome
      have hch := Store.mem_children hroot hx hs (Option.isSome_iff_ne_none.mpr hsome)
      rw [hc] at hch
      exact hmem (Forest.names_subset_rels hch)
  obtain ⟨u, hu, hust, _, hup⟩ := dfsRmdir_done (b := n) cx hok.toRemoteOk hroot htdir hempty
  have hrun : moveEntries cx env (moveDirectory cx env depth) o n
      (['.'] :: ['.', '.'] :: f.listed) v type 0 = .ok (0, t) := by
    rw [moveEntries, if_pos (.inl rfl), moveEntries, if_pos (.inr rfl)]
    rw [ite_self] at ht
    exact ht
  refine ⟨u, ?_, ?_, ?_⟩
  · rw [moveDirectory, hset]
    simp only [hrun, hu, bind, Except.bind]
    rw [if_neg (by decide)]
  · have htn : t.store.lookup n = v.store.lookup n := hmoves.others n hout'
    refine ⟨?_, ?_, ?_, ?_, ?_, ?_⟩
    · rw [hust]
      exact AList.lookup_erase _ _
    · rw [hust, Store.ftype?, AList.lookup_erase_ne hne.symm, htn]
      exact hvn
    · intro r hrel
      rw [hust, AList.lookup_erase_ne (hout o (Within.refl o) r hrel).1.symm]
      exact hmoves.gone r hrel
    · intro r hrel ob ho hfd
      rw [hust, AList.lookup_erase_ne (hout o (Within.refl o) r hrel).2.symm]
      apply hmoves.file r hrel ob _ hfd
      change v.store.lookup (child o r) = some ob
      rw [hsame.lookup _ (Within.child_self o r)]
      exact ho
    · intro r hrel hrd
      rw [hust, Store.ftype?, AList.lookup_erase_ne (hout o (Within.refl o) r hrel).2.symm]
      apply hmoves.dir r hrel
      change v.store.ftype? (child o r) = some .dir
      rw [Store.ftype?, hsame.lookup _ (Within.child_self o r)]
      exact hrd
    · intro q hqo hqn hq
      rw [hust, AList.lookup_erase_ne hqo, hmoves.others q hq]
      exact hvq q hqn
  · have hfirst : s.Printed w 0
        (fun text => TreeText cx env o n f.rels text ∨ PathText cx env o n text) :=
      .of_ring hring
    have hall := (hfirst.trans (hprint.imp fun _ h => .inl h)).trans (hup.imp fun _ h => .inr h)
    rw [Nat.zero_add, show w.hash = v.hash from rfl, hcost] at hall
    exact hall

/-- One entry that is moved, and the rest of the loop. -/
theorem entry_moves (depth : Nat) {name x : CStr} (names rs : List CStr) (k : Nat) {ft : FType}
    (type : FType) (ret : Int) (hok : env.RemoteOk)
    (hname : ¬(name = ['.'] ∨ name = ['.', '.']))
    (hsrc : entryPath o name = child o x) (hdst : entryPath n name = child n x)
    (hft : s.store.ftype? (child o x) = some ft) (hrs : x ∈ rs)
    (hmove : ∀ u : World, u.store = s.store → u.hash = s.hash →
      ∃ v, descend ft (moveDirectory cx env depth u (child o x) (child n x))
          (renameFile cx env u (.ext (child o x)) (.ext (child n x))) = .ok (0, v) ∧
        Relocates s.store v.store o n rs ∧ u.Printed v k (TreeText cx env o n rs) ∧
        ∀ I, MoveSteps cx env (child o x) (child n x) I → I u → I v) :
    ∃ v, moveEntries cx env (moveDirectory cx env depth) o n (name :: names) s type ret =
        moveEntries cx env (moveDirectory cx env depth) o n names v ft 0 ∧
      Relocates s.store v.store o n rs ∧ s.Printed v (2 + k) (TreeText cx env o n rs) ∧
      ∀ I, MoveSteps cx env (child o x) (child n x) I → I s → I v := by
  let u := (s.paired o n (child o x) (child n x)).log (.pass (child o x) (child n x))
  obtain ⟨v, hv, hmoves, hprint, hkeep⟩ := hmove u rfl rfl
  have hnamei : dplNamei env (s.paired o n (child o x) (child n x)).store (child o x) =
      (.success, some ft) := dplNamei_found (hok.remote _) hft
  refine ⟨v, ?_, hmoves, ?_, ?_⟩
  · rw [moveEntries_cons type ret hname hsrc hdst]
    dsimp only
    rw [hnamei]
    dsimp only
    rw [if_neg (by simp), Option.getD_some, hv]
    rfl
  · have hpair : s.Printed u 2 (TreeText cx env o n rs) := by
      refine ⟨[child o x, child n x], rfl, rfl, ?_⟩
      intro text ht
      rcases List.mem_cons.mp ht with rfl | ht
      · exact ⟨x, hrs, .inl rfl⟩
      · obtain rfl := List.mem_singleton.mp ht
        exact ⟨x, hrs, .inr (.inl rfl)⟩
    exact hpair.trans hprint
  · exact fun I hI hi => hkeep I hI (hI.aside s _ s.cwd _ hi)

/-- The loop on values moves every entry of the directory. -/
theorem moveEntries_moves (f : Forest) (depth : Nat) (s : World) (o n : Path) (type : FType)
    (ret : Int) (hok : env.AllOk) (hr : Ready s o n f) (hclear : Clear env s o n f depth) :
    LoopMoves cx env f depth s o n type ret := by
  induction f generalizing depth s o n type ret with
  | nil => exact ⟨_, rfl, .nil _ o n, .of_ring rfl⟩
  | file x rest ih =>
    obtain ⟨hx, hnew, ⟨ft, hft, hfd⟩, hin⟩ := hr.entries
    have hrest : Ready s o n rest :=
      ⟨hr.named, hr.separate, hin, hr.shortOld.2, hr.shortNew.2, hr.safe⟩
    have hcrest : Clear env s o n rest depth :=
      ⟨hclear.free.2, fun r hr => hclear.freed r (List.mem_cons_of_mem x hr), hclear.height⟩
    have hroot := child_ne_root hr.named x
    obtain ⟨ob, hob, hobt⟩ : ∃ ob, s.store.lookup (child o x) = some ob ∧ ob.ftype = ft := by
      rw [Store.ftype?_of_ne hroot] at hft
      exact Option.map_eq_some_iff.mp hft
    have hobd : ob.ftype ≠ .dir := hobt ▸ hfd
    have hne := hr.separate.child_ne x x
    have hfile : ∀ u : World, u.store = s.store → u.hash = s.hash →
        ∃ v, descend ft (moveDirectory cx env depth u (child o x) (child n x))
            (renameFile cx env u (.ext (child o x)) (.ext (child n x))) = .ok (0, v) ∧
          Relocates s.store v.store o n [x] ∧
          u.Printed v (1 + if (s.hash (child o x)).isSome then 1 else 0)
            (TreeText cx env o n [x]) ∧
          ∀ I, MoveSteps cx env (child o x) (child n x) I → I u → I v := by
      intro u hst hh
      obtain ⟨v, hv, hvst, hp⟩ := renameFile_done cx (s := u) hok.toRemoteOk (hst ▸ hob) hobd
        hroot hne (hst ▸ hclear.free.1)
        (fun hs => hclear.freed x (List.mem_cons_self ..) (hh ▸ hs))
      rw [hh] at hp
      refine ⟨v, ?_, ?_, hp.imp fun _ ht => ⟨x, List.mem_singleton_self x, ht⟩, ?_⟩
      · rw [descend, if_neg hfd, hv]
      · rw [hvst, hst]
        exact .single hne hob hobd hroot
      · exact fun I hI hi => hI.file u _ _ 0 v (Within.refl _) (Within.refl _) hi hv
    obtain ⟨v, hrun, hmoves, hprint, hkeep⟩ := entry_moves depth rest.listed [x]
      (1 + if (s.hash (child o x)).isSome then 1 else 0) type ret hok.toRemoteOk hx.not_dot
      (entryPath_file hx hr.shortOld.1) (entryPath_file hx hr.shortNew.1) hft
      (List.mem_singleton_self x) hfile
    obtain ⟨hready, hcost⟩ := hrest.after_entry hx hnew hkeep
    obtain ⟨t, ht, hmoves', hprint'⟩ := ih depth v o n ft 0 hready
      (hcrest.after_entry hrest hx hnew hkeep)
    refine ⟨t, ?_, ?_, ?_⟩
    · rw [Forest.listed, hrun, ht, ite_self, if_neg (by simp)]
    · apply hmoves.append hr.separate hmoves'
      intro r hr' r' hrel
      obtain rfl := List.mem_singleton.mp hr'
      obtain ⟨y, hy, hw⟩ := Forest.rels_within hrel
      apply rels_disjoint hx.2.1 (hin.proper hy).2.1 _ (Within.refl r) hw
      rintro rfl
      exact hnew hy
    · have hfirst : s.Printed v (2 + (1 + if (s.hash (child o x)).isSome then 1 else 0))
          (TreeText cx env o n (Forest.file x rest).rels) := by
        apply hprint.imp
        intro text h
        apply h.mono
        intro r hr'
        rw [List.mem_singleton.mp hr']
        exact List.mem_cons_self ..
      have hall := hfirst.trans (hprint'.imp fun _ h => h.mono fun r => List.mem_cons_of_mem x)
      have he : (Forest.file x rest).cost s.hash o =
          2 + (1 + if (s.hash (child o x)).isSome then 1 else 0) + rest.cost s.hash o := by
        rw [Forest.cost]
        omega
      rw [he, ← hcost]
      exact hall
  | dir x sub rest ihsub ih =>
    obtain ⟨hx, hnew, hft, hch, hinsub, hin⟩ := hr.entries
    have hrest : Ready s o n rest :=
      ⟨hr.named, hr.separate, hin, hr.shortOld.2.2, hr.shortNew.2.2, hr.safe.2.2⟩
    have hsub : Ready s (child o x) (child n x) sub :=
      ⟨child_ne_nil o x, hr.separate.mono (Within.child_self o x) (Within.child_self n x), hinsub,
        hr.shortOld.2.1, hr.shortNew.2.1, hr.safe.2.1⟩
    obtain ⟨hfree, hfreesub, hfreerest⟩ := hclear.free
    have hheight := hclear.height
    rw [Forest.height] at hheight
    have hcrest : Clear env s o n rest depth := by
      refine ⟨hfreerest, fun r hr => hclear.freed r ?_, by omega⟩
      exact List.mem_cons_of_mem x (List.mem_append_right _ hr)
    have hroot := child_ne_root hr.named x
    obtain ⟨d, rfl⟩ : ∃ d, depth = d + 1 := ⟨depth - 1, by omega⟩
    have hcsub : Clear env s (child o x) (child n x) sub d := by
      refine ⟨hfreesub, fun r hr => ?_, by omega⟩
      rw [child_child]
      apply hclear.freed
      exact List.mem_cons_of_mem x (List.mem_append_left _ (List.mem_map_of_mem hr))
    let rs := x :: sub.rels.map (child x)
    have hdir : ∀ u : World, u.store = s.store → u.hash = s.hash →
        ∃ v, descend .dir (moveDirectory cx env (d + 1) u (child o x) (child n x))
            (renameFile cx env u (.ext (child o x)) (.ext (child n x))) = .ok (0, v) ∧
          Relocates s.store v.store o n rs ∧
          u.Printed v (sub.cost s.hash (child o x) + 1) (TreeText cx env o n rs) ∧
          ∀ I, MoveSteps cx env (child o x) (child n x) I → I u → I v := by
      intro u hst hh
      have hready := hsub.of_eq hst hh
      obtain ⟨v, hv, htree, hp⟩ := moveDirectory_moves hok hready hroot (hst ▸ hft) (hst ▸ hch)
        (hst ▸ hfree) (hcsub.of_eq hst hh)
        (fun w type ret hw hcw => ihsub d w _ _ type ret hw hcw)
      obtain ⟨_, hsteps⟩ := renameDirectory_agree cx env (d + 1) hready hroot (hst ▸ hch)
      rw [hst] at htree
      rw [hh] at hp
      refine ⟨v, ?_, htree.entry hroot hft, hp.imp ?_, (hsteps 0 v hv).2⟩
      · rw [descend, if_pos rfl, hv]
      · intro text ht
        rcases ht with ht | ht
        · exact ht.below.mono fun r => List.mem_cons_of_mem x
        · exact ⟨x, List.mem_cons_self .., ht⟩
    obtain ⟨v, hrun, hmoves, hprint, hkeep⟩ := entry_moves (d + 1) rest.listed rs
      (sub.cost s.hash (child o x) + 1) type ret hok.toRemoteOk (slash_not_dot x)
      (entryPath_dir hx hr.shortOld.1) (entryPath_dir hx hr.shortNew.1) hft
      (List.mem_cons_self ..) hdir
    obtain ⟨hready, hcost⟩ := hrest.after_entry hx hnew hkeep
    obtain ⟨t, ht, hmoves', hprint'⟩ := ih (d + 1) v o n .dir 0 hready
      (hcrest.after_entry hrest hx hnew hkeep)
    refine ⟨t, ?_, ?_, ?_⟩
    · rw [Forest.listed, hrun, ht, ite_self, if_neg (by simp)]
    · apply hmoves.append hr.separate hmoves'
      intro r hr' r' hrel
      obtain ⟨y, hy, hw⟩ := Forest.rels_within hrel
      have hwx : Within x r := by
        rcases List.mem_cons.mp hr' with rfl | hr'
        · exact Within.refl r
        · obtain ⟨z, _, rfl⟩ := List.mem_map.mp hr'
          exact Within.child_self x z
      apply rels_disjoint hx.2.1 (hin.proper hy).2.1 _ hwx hw
      rintro rfl
      exact hnew hy
    · have hfirst : s.Printed v (2 + (sub.cost s.hash (child o x) + 1))
          (TreeText cx env o n (Forest.dir x sub rest).rels) := by
        apply hprint.imp
        intro text h
        apply h.mono
        intro r hr'
        exact List.mem_append_left rest.rels hr'
      have hlast : v.Printed t (rest.cost v.hash o)
          (TreeText cx env o n (Forest.dir x sub rest).rels) := by
        apply hprint'.imp
        intro text h
        apply h.mono
        intro r hr'
        exact List.mem_append_right rs hr'
      have he : (Forest.dir x sub rest).cost s.hash o =
          2 + (sub.cost s.hash (child o x) + 1) + rest.cost s.hash o := by
        rw [Forest.cost]
        omega
      rw [he, ← hcost]
      exact hfirst.trans hlast

end Loop

/-- The directory `old` with all its objects is where `new` was not, and the other objects are as
they were. -/
structure TreeMoved (st st' : Store) (old new : Path) : Prop where
  source : ∀ q, Within old q → st'.lookup q = none
  target : st'.ftype? new = some .dir
  file : ∀ r ob, st.lookup (child old r) = some ob → ob.ftype ≠ .dir →
    st'.lookup (child new r) = some ob
  dir : ∀ r ob, st.lookup (child old r) = some ob → ob.ftype = .dir →
    st'.ftype? (child new r) = some .dir
  others : ∀ q, ¬Within old q → q ≠ new → (∀ r, q = child new r → st.lookup (child old r) = none) →
    st'.lookup q = st.lookup q

/-- The directory `old`, with the forest `f` below it, can be renamed to `new`: the texts of the
paths last, and nothing is in the way. -/
structure Renamable (env : Env) (s : World) (old new : Path) (f : Forest) : Prop where
  notRoot : old ≠ rootPath
  dir : s.store.ftype? old = some .dir
  children : s.store.children old = f.names
  whole : ∀ r, (s.store.lookup (child old r)).isSome → r ∈ f.rels
  absolute : new.head? = some '/'
  target : ∀ type, s.store.ftype? new = some type → type = .dir
  ready : Ready s old new f
  stack : 0 < env.stack
  clear : Clear env s old new f (env.stack - 1)

/-- A directory is renamed with everything below it, at any depth, and nothing else is touched. -/
theorem rename_moves_tree (cx : Ctx) {env : Env} {s : World} {old new : Path} {f : Forest}
    (hok : env.AllOk) (h : Renamable env s old new f) :
    ∃ t, dfsRename cx env s old new = .ok (0, t) ∧ TreeMoved s.store t.store old new := by
  have hnamei : dplNamei env s.store old = (.success, some .dir) :=
    dplNamei_found (hok.remote _) h.dir
  obtain ⟨depth, hdepth⟩ : ∃ d, env.stack = d + 1 := ⟨env.stack - 1, by have := h.stack; omega⟩
  have hclear : Clear env s old new f depth := by
    have hc := h.clear
    rwa [hdepth, Nat.add_sub_cancel] at hc
  obtain ⟨t, hrun, htree, _⟩ := moveDirectory_moves hok h.ready h.notRoot h.dir h.children
    h.target hclear (fun v type ret hv hc => moveEntries_moves f depth v old new type
      ret hok hv hc)
  have hagree := (renameDirectory_agree cx env (depth + 1) h.ready h.notRoot h.children).1
  refine ⟨t, ?_, ?_⟩
  · unfold dfsRename
    rw [renameTarget_absolute h.absolute, hnamei]
    dsimp only
    rw [Option.getD_some]
    dsimp only
    rw [if_pos rfl, hdepth, hagree, hrun]
    rfl
  · have hrel : ∀ r, s.store.lookup (child old r) ≠ none → r ∈ f.rels := fun r hr =>
      h.whole r (Option.isSome_iff_ne_none.mpr hr)
    have hne := h.ready.separate.ne
    refine ⟨?_, htree.target, ?_, ?_, ?_⟩
    · intro q hq
      rcases Within.iff_append.mp hq with rfl | ⟨r, rfl⟩
      · exact htree.source
      · by_cases hr : r ∈ f.rels
        · exact htree.gone r hr
        · have hout : ∀ r' ∈ f.rels, child old r ≠ child old r' ∧ child old r ≠ child new r' := by
            refine fun r' hr' => ⟨fun he => ?_, h.ready.separate.child_ne r r'⟩
            rw [child_injective he] at hr
            exact hr hr'
          have hself : child old r ≠ old := by
            intro he
            have hl := congrArg List.length he
            rw [child_length] at hl
            omega
          have hnew : child old r ≠ new := fun he =>
            h.ready.separate.1 (he ▸ Within.child_self old r)
          rw [htree.others _ hself hnew hout]
          by_contra hsome
          exact hr (hrel r hsome)
    · intro r ob ho hd
      exact htree.file r (hrel r (by rw [ho]; simp)) ob ho hd
    · intro r ob ho hd
      apply htree.dir r (hrel r (by rw [ho]; simp))
      rw [Store.ftype?_of_ne (child_ne_root h.ready.named r), ho]
      exact congrArg some hd
    · intro q hq hqn hfree
      apply htree.others q (fun he => hq (he ▸ Within.refl old)) hqn
      refine fun r hr => ⟨fun he => hq (he ▸ Within.child_self old r), fun he => ?_⟩
      have hsome := h.ready.entries.found h.ready.named hr
      rw [hfree r he] at hsome
      cases hsome

/-- A directory of one file and one directory, which has a file in turn. -/
def nested : List (Path × Obj) :=
  [(['/', 'a'], Sample.dir), (['/', 'a', '/', 'f'], Sample.file [1]),
    (['/', 'a', '/', 'd'], Sample.dir), (['/', 'a', '/', 'd', '/', 'g'], Sample.file [2])]

theorem nested_ready :
    Ready (Sample.daemon nested).world ['/', 'a'] ['/', 'b']
      (.file ['f'] (.dir ['d'] (.file ['g'] .nil) .nil)) := by
  refine ⟨by decide, by decide, ?_, ?_, ?_, ?_⟩
  · exact ⟨by decide, by decide, ⟨.reg, rfl, by decide⟩, by decide, by decide, rfl, rfl,
      ⟨by decide, by decide, ⟨.reg, rfl, by decide⟩, trivial⟩, trivial⟩
  · exact ⟨by decide, by decide, ⟨by decide, trivial⟩, trivial⟩
  · exact ⟨by decide, by decide, ⟨by decide, trivial⟩, trivial⟩
  · exact ⟨by decide, trivial, trivial⟩

theorem rename_moves_tree_sample :
    ∃ t, dfsRename Sample.plain Env.quiet (Sample.daemon nested).world ['/', 'a'] ['/', 'b'] =
        .ok (0, t) ∧
      TreeMoved (Sample.daemon nested).world.store t.store ['/', 'a'] ['/', 'b'] := by
  apply rename_moves_tree Sample.plain Env.quiet_allOk
    (f := .file ['f'] (.dir ['d'] (.file ['g'] .nil) .nil))
  refine ⟨by decide, by decide, by decide, ?_, by decide, ?_, ?_, by decide, ?_⟩
  · intro r hr
    have hkey : child ['/', 'a'] r ∈ (Sample.daemon nested).world.store.keys :=
      AList.lookup_isSome.mp hr
    have hkeys : (Sample.daemon nested).world.store.keys = nested.map (·.1) := by decide
    rw [hkeys] at hkey
    simpa [nested, child, Forest.rels] using hkey
  · intro type ht
    cases ht
  · exact nested_ready
  · refine ⟨⟨by decide, ?_, ⟨by decide, trivial⟩, trivial⟩, ?_, by decide⟩
    · intro type ht
      cases ht
    · intro r _ hs
      cases hs

end DropletFs
