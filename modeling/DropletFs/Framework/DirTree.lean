import Mathlib.Data.List.Basic
import Mathlib.Logic.Function.Basic

/-! Directory trees: names as lists of components below directories, paths as steps between them,
`stat` and `mkdir` along a path, and making all directories of a path in order. -/

namespace DirTree

variable {Name : Type}

inductive Kind
  | dir
  | other
  deriving DecidableEq

/-- Every name but the root lies in a directory. -/
structure Tree (Name : Type) where
  node : List Name → Option Kind
  root : node [] = some .dir
  above : ∀ dir x, node (dir ++ [x]) ≠ none → node dir = some .dir

/-- One component of a path. -/
inductive Step (Name : Type)
  | stay
  | up
  | down (x : Name)
  deriving DecidableEq

def Step.apply (dir : List Name) : Step Name → List Name
  | stay => dir
  | up => dir.dropLast
  | down x => dir ++ [x]

/-- Where a path leads when everything on it is a directory. -/
def reach (dir : List Name) (steps : List (Step Name)) : List Name := steps.foldl Step.apply dir

@[simp] theorem reach_nil (dir : List Name) : reach dir [] = dir := rfl

@[simp] theorem reach_cons (dir : List Name) (s : Step Name) (steps : List (Step Name)) :
    reach dir (s :: steps) = reach (s.apply dir) steps := rfl

theorem reach_concat (dir : List Name) (steps : List (Step Name)) (s : Step Name) :
    reach dir (steps ++ [s]) = s.apply (reach dir steps) := by
  rw [reach, List.foldl_append]
  rfl

inductive Answer
  | found
  | enoent
  | enotdir
  deriving DecidableEq

/-- `stat` along a path. -/
def Tree.stat (t : Tree Name) : List Name → List (Step Name) → Answer
  | dir, [] => if t.node dir = none then .enoent else .found
  | dir, s :: steps =>
    match t.node dir with
    | none => .enoent
    | some .other => .enotdir
    | some .dir => t.stat (s.apply dir) steps

/-- Everything on the way is a directory. -/
def AllDirs (t : Tree Name) (dir : List Name) (steps : List (Step Name)) : Prop :=
  ∀ pre, pre <+: steps → t.node (reach dir pre) = some .dir

/-- The tree has grown by the directories listed, each made when the one above it was there. -/
structure Grown (t t' : Tree Name) (made : List (List Name)) : Prop where
  kept : ∀ d, t.node d ≠ none → t'.node d = t.node d
  fresh : ∀ d, t.node d = none → (d ∈ made ∧ t'.node d = some .dir ∨ d ∉ made ∧ t'.node d = none)
  order : ∀ before d after, made = before ++ d :: after →
    t.node d = none ∧ ∃ p x, d = p ++ [x] ∧ (t.node p = some .dir ∨ p ∈ before)

/-- What has been made of a path: its directories are there, and only they are new. -/
structure Made (t t' : Tree Name) (dir : List Name) (steps : List (Step Name))
    (made : List (List Name)) : Prop where
  grown : Grown t t' made
  dirs : AllDirs t' dir steps
  onPath : ∀ d ∈ made, ∃ pre, pre <+: steps ∧ d = reach dir pre

section Path

variable {t t' : Tree Name} {dir : List Name} {made : List (List Name)} {steps : List (Step Name)}
  {s : Step Name}

theorem Tree.dropLast_dir (t : Tree Name) {d : List Name} (h : t.node d = some .dir) :
    t.node d.dropLast = some .dir := by
  rcases List.eq_nil_or_concat d with rfl | ⟨p, x, rfl⟩
  · exact t.root
  · rw [List.concat_eq_append] at h ⊢
    rw [List.dropLast_concat]
    exact t.above p x (by rw [h]; simp)

theorem AllDirs.nil (h : t.node dir = some .dir) : AllDirs t dir [] := by
  intro pre hpre
  rw [List.prefix_nil.mp hpre]
  exact h

theorem AllDirs.concat (h : AllDirs t dir steps)
    (hs : t.node (reach dir (steps ++ [s])) = some .dir) :
    AllDirs t dir (steps ++ [s]) := by
  intro pre hpre
  rcases List.prefix_concat_iff.mp hpre with rfl | hpre
  · exact hs
  · exact h pre hpre

theorem AllDirs.cons_iff : AllDirs t dir (s :: steps) ↔
    t.node dir = some .dir ∧ AllDirs t (s.apply dir) steps := by
  constructor
  · intro h
    refine ⟨h [] List.nil_prefix, fun pre hpre => ?_⟩
    exact h (s :: pre) (List.cons_prefix_cons.mpr ⟨rfl, hpre⟩)
  · intro ⟨hd, h⟩ pre hpre
    cases pre with
    | nil => exact hd
    | cons s' pre =>
      obtain ⟨rfl, hrest⟩ := List.cons_prefix_cons.mp hpre
      exact h pre hrest

/-- Where everything on the way is there, `stat` finds the end; where nothing on the way is a file,
it finds it or something is missing. -/
theorem stat_found_iff (h : ∀ pre, pre <+: steps → t.node (reach dir pre) ≠ some .other) :
    (t.stat dir steps = .found ∧ AllDirs t dir steps) ∨
      (t.stat dir steps = .enoent ∧ ¬AllDirs t dir steps) := by
  induction steps generalizing dir with
  | nil =>
    have hdir := h [] List.nil_prefix
    rw [reach_nil] at hdir
    rw [Tree.stat]
    cases hnode : t.node dir with
    | none =>
      refine .inr ⟨if_pos rfl, fun hall => ?_⟩
      have hd := hall [] List.nil_prefix
      rw [reach_nil, hnode] at hd
      cases hd
    | some k =>
      cases k with
      | dir => exact .inl ⟨if_neg (by simp), .nil hnode⟩
      | other => exact absurd hnode hdir
  | cons s steps ih =>
    have hdir := h [] List.nil_prefix
    rw [reach_nil] at hdir
    rw [Tree.stat, AllDirs.cons_iff]
    cases hnode : t.node dir with
    | none => exact .inr ⟨rfl, fun hall => by cases hall.1⟩
    | some k =>
      cases k with
      | other => exact absurd hnode hdir
      | dir =>
        have hbelow : ∀ pre, pre <+: steps → t.node (reach (s.apply dir) pre) ≠ some .other := by
          intro pre hpre
          exact h (s :: pre) (List.cons_prefix_cons.mpr ⟨rfl, hpre⟩)
        have hrest := ih hbelow
        simpa using hrest

theorem Grown.refl (t : Tree Name) : Grown t t [] where
  kept _ _ := rfl
  fresh d h := .inr ⟨by simp, h⟩
  order before d after h := by simp at h

theorem Made.start (h : t.node dir = some .dir) : Made t t dir [] [] where
  grown := .refl t
  dirs := .nil h
  onPath d hd := by simp at hd

/-- What was missing on the path has been made. -/
theorem Made.missing (h : Made t t' dir steps made) {pre : List (Step Name)} (hpre : pre <+: steps)
    (hd : t.node (reach dir pre) = none) : reach dir pre ∈ made := by
  rcases h.grown.fresh _ hd with ⟨hm, _⟩ | ⟨_, hn⟩
  · exact hm
  · rw [h.dirs pre hpre] at hn
    cases hn

end Path

variable [DecidableEq Name]

/-- The tree with one more directory. -/
def Tree.insertDir (t : Tree Name) (dir : List Name) (x : Name) (h : t.node dir = some .dir) :
    Tree Name where
  node := Function.update t.node (dir ++ [x]) (some .dir)
  root := by
    rw [Function.update_of_ne (by simp)]
    exact t.root
  above d y hy := by
    by_cases hd : d = dir ++ [x]
    · rw [hd, Function.update_self]
    rw [Function.update_of_ne hd]
    by_cases he : d ++ [y] = dir ++ [x]
    · rw [(List.append_inj' he rfl).1]
      exact h
    · rw [Function.update_of_ne he] at hy
      exact t.above d y hy

@[simp] theorem Tree.insertDir_self (t : Tree Name) {dir : List Name} {x : Name}
    (h : t.node dir = some .dir) : (t.insertDir dir x h).node (dir ++ [x]) = some .dir :=
  Function.update_self ..

theorem Tree.insertDir_ne (t : Tree Name) {dir d : List Name} {x : Name}
    (h : t.node dir = some .dir) (hd : d ≠ dir ++ [x]) :
    (t.insertDir dir x h).node d = t.node d :=
  Function.update_of_ne hd ..

/-- `mkdir` of the last component, with the directory reached before it: the tree, and the
directory made. A name that is there already, or refused, changes nothing. -/
def Tree.mkdirAt (t : Tree Name) (allow : List Name → Bool) (dir : List Name) :
    Step Name → Tree Name × List (List Name)
  | .down x =>
    if h : t.node dir = some .dir then
      if t.node (dir ++ [x]) = none ∧ allow (dir ++ [x]) then
        (t.insertDir dir x h, [dir ++ [x]])
      else (t, [])
    else (t, [])
  | _ => (t, [])

/-- `mkdir` along a path. -/
def Tree.mkdir (t : Tree Name) (allow : List Name → Bool) :
    List Name → List (Step Name) → Tree Name × List (List Name)
  | _, [] => (t, [])
  | dir, [s] => t.mkdirAt allow dir s
  | dir, s :: s' :: steps =>
    if t.node dir = some .dir then t.mkdir allow (s.apply dir) (s' :: steps) else (t, [])

section Grow

variable {t t' t'' : Tree Name} {allow : List Name → Bool} {dir : List Name}
  {made more : List (List Name)} {steps : List (Step Name)} {s : Step Name}

/-- One more directory. -/
theorem Grown.insert (h : Grown t t' made) {x : Name} (hd : t'.node dir = some .dir)
    (hx : t'.node (dir ++ [x]) = none) :
    Grown t (t'.insertDir dir x hd) (made ++ [dir ++ [x]]) := by
  have hnew : t.node (dir ++ [x]) = none := by
    by_contra hold
    exact hold ((h.kept _ hold).symm.trans hx)
  constructor
  · intro d hold
    have hne : d ≠ dir ++ [x] := by
      intro he
      rw [he] at hold
      exact hold hnew
    rw [Tree.insertDir_ne _ hd hne]
    exact h.kept d hold
  · intro d hnone
    by_cases he : d = dir ++ [x]
    · subst he
      exact .inl ⟨by simp, t'.insertDir_self hd⟩
    · have hmem : d ∈ made ++ [dir ++ [x]] ↔ d ∈ made := by simp [he]
      rw [hmem, Tree.insertDir_ne _ hd he]
      exact h.fresh d hnone
  · intro before d after he
    rcases List.eq_nil_or_concat after with rfl | ⟨after, z, rfl⟩
    · obtain ⟨rfl, hlast⟩ := List.append_inj' he rfl
      rw [← (List.cons.inj hlast).1]
      refine ⟨hnew, dir, x, rfl, ?_⟩
      by_cases hold : t.node dir = none
      · rcases h.fresh dir hold with ⟨hm, _⟩ | ⟨_, hn⟩
        · exact .inr hm
        · rw [hd] at hn
          cases hn
      · exact .inl ((h.kept dir hold).symm.trans hd)
    · rw [List.concat_eq_append, ← List.cons_append, ← List.append_assoc] at he
      exact h.order before d after (List.append_inj' he rfl).1

/-- `mkdir` where everything before the last component is a directory. -/
theorem mkdir_concat (h : AllDirs t dir steps) :
    t.mkdir allow dir (steps ++ [s]) = t.mkdirAt allow (reach dir steps) s := by
  induction steps generalizing dir with
  | nil => rfl
  | cons s' steps ih =>
    obtain ⟨hd, hrest⟩ := AllDirs.cons_iff.mp h
    rw [reach_cons, ← ih hrest]
    cases steps with
    | nil => exact if_pos hd
    | cons s'' steps => exact if_pos hd

/-- A directory that is there is not made again. -/
theorem mkdir_there (h : AllDirs t dir steps) : t.mkdir allow dir steps = (t, []) := by
  rcases List.eq_nil_or_concat steps with rfl | ⟨steps, s, rfl⟩
  · rfl
  · rw [List.concat_eq_append] at h ⊢
    have hend := h _ List.prefix_rfl
    rw [mkdir_concat fun pre hpre => h pre (hpre.trans (List.prefix_append _ _))]
    rw [reach_concat] at hend
    cases s with
    | stay => rfl
    | up => rfl
    | down x =>
      have hthere : t.node (reach dir steps ++ [x]) = some .dir := hend
      simp [Tree.mkdirAt, hthere]

/-- `mkdir` of the next directory of the path. -/
theorem Made.mkdir (h : Made t t' dir steps made) (hallow : ∀ d, allow d = true)
    (hs : t.node (reach dir (steps ++ [s])) ≠ some .other) :
    Made t (t'.mkdir allow dir (steps ++ [s])).1 dir (steps ++ [s])
      (made ++ (t'.mkdir allow dir (steps ++ [s])).2) := by
  have hhere : t'.node (reach dir steps) = some .dir := h.dirs steps List.prefix_rfl
  have hmore : ∀ d ∈ made, ∃ pre, pre <+: steps ++ [s] ∧ d = reach dir pre := by
    intro d hd
    obtain ⟨pre, hpre, he⟩ := h.onPath d hd
    exact ⟨pre, hpre.trans (List.prefix_append _ _), he⟩
  have hsame (hend : t'.node (reach dir (steps ++ [s])) = some .dir) :
      Made t (t'.mkdir allow dir (steps ++ [s])).1 dir (steps ++ [s])
        (made ++ (t'.mkdir allow dir (steps ++ [s])).2) := by
    have hall := h.dirs.concat hend
    rw [mkdir_there hall, List.append_nil]
    exact ⟨h.grown, hall, hmore⟩
  rw [reach_concat] at hs hsame
  cases s with
  | stay => exact hsame hhere
  | up => exact hsame (t'.dropLast_dir hhere)
  | down x =>
    by_cases hnone : t'.node (reach dir steps ++ [x]) = none
    · rw [mkdir_concat h.dirs]
      have hmake : t'.mkdirAt allow (reach dir steps) (.down x) =
          (t'.insertDir (reach dir steps) x hhere, [reach dir steps ++ [x]]) := by
        simp [Tree.mkdirAt, hhere, hnone, hallow]
      rw [hmake]
      refine ⟨h.grown.insert hhere hnone, ?_, ?_⟩
      · apply AllDirs.concat
        · intro pre hpre
          by_cases he : reach dir pre = reach dir steps ++ [x]
          · rw [he]
            exact t'.insertDir_self hhere
          · rw [Tree.insertDir_ne _ hhere he]
            exact h.dirs pre hpre
        · rw [reach_concat]
          exact t'.insertDir_self hhere
      · intro d hd
        rcases List.mem_append.mp hd with hm | hm
        · exact hmore d hm
        · refine ⟨steps ++ [.down x], List.prefix_rfl, ?_⟩
          rw [List.mem_singleton.mp hm, reach_concat]
          rfl
    · apply hsame
      -- it was there before, and no file, or has been made
      by_cases hold : t.node (reach dir steps ++ [x]) = none
      · rcases h.grown.fresh _ hold with ⟨_, hd⟩ | ⟨_, hn⟩
        · exact hd
        · exact absurd hn hnone
      · have hkept := h.grown.kept _ hold
        cases hnode : t.node (reach dir steps ++ [x]) with
        | none => exact absurd hnode hold
        | some k =>
          cases k with
          | dir => exact hkept.trans hnode
          | other => exact absurd hnode hs

/-- `mkdir` of the last directory once more. -/
theorem Made.mkdir_again (h : Made t t' dir steps made) :
    Made t (t'.mkdir allow dir steps).1 dir steps (made ++ (t'.mkdir allow dir steps).2) := by
  rw [mkdir_there h.dirs, List.append_nil]
  exact h

end Grow

end DirTree
