import DropletFs.Model.CacheTree
import DropletFs.Model.Sample

/-! After `build_cache_tree` the directory of the cache file is there: each `mkdir` of the loop
makes the next component of the path. -/

namespace DropletFs

open CText DirTree

/-- The directories of a path: what its components but the last lead to, one after the other. -/
def Ancestor (cwd : List CStr) (path : CStr) (d : List CStr) : Prop :=
  ∃ pre, pre <+: (pathSteps path).dropLast ∧ d = reach (pathStart cwd path) pre

/-- The directory a path lies in. -/
def dirAbove (cwd : List CStr) (path : CStr) : List CStr :=
  reach (pathStart cwd path) (pathSteps path).dropLast

section Dirname

variable {cwd : List CStr} {path x : CStr}

theorem stripSlashes_append (path : CStr) :
    ∃ n, path = stripSlashes path ++ List.replicate n '/' := by
  have hsplit := List.takeWhile_append_dropWhile (p := fun c => decide (c = '/'))
    (l := path.reverse)
  have hslashes : path.reverse.takeWhile (· = '/') =
      List.replicate (path.reverse.takeWhile (· = '/')).length '/' := by
    apply List.eq_replicate_of_mem
    intro c hc
    have hall := List.all_takeWhile (p := fun c => decide (c = '/')) (l := path.reverse)
    simpa using List.all_eq_true.mp hall c hc
  refine ⟨(path.reverse.takeWhile (· = '/')).length, ?_⟩
  rw [stripSlashes, ← List.reverse_replicate, ← hslashes, ← List.reverse_append, hsplit,
    List.reverse_reverse]

theorem segments_stripSlashes (path : CStr) : segments (stripSlashes path) = segments path := by
  obtain ⟨n, hn⟩ := stripSlashes_append path
  have hmore : ∀ k, segments (stripSlashes path ++ List.replicate k '/') =
      segments (stripSlashes path) := by
    intro k
    induction k with
    | zero => rw [List.replicate_zero, List.append_nil]
    | succ k ih => rw [List.replicate_succ', ← List.append_assoc, segments_slash, ih]
  conv_rhs => rw [hn]
  exact (hmore n).symm

theorem pathStart_stripSlashes (hne : stripSlashes path ≠ []) :
    pathStart cwd (stripSlashes path) = pathStart cwd path := by
  obtain ⟨n, hn⟩ := stripSlashes_append path
  have hhead : path.head? = (stripSlashes path).head? := by
    conv_lhs => rw [hn]
    exact List.head?_append_of_ne_nil _ hne
  rw [pathStart, pathStart, hhead]

/-- `dirname` leads to the directory of the path. -/
theorem dirname_spec (cwd : List CStr) (path : CStr) :
    pathStart cwd (dirname path) = pathStart cwd path ∧
      ((pathSteps (dirname path) = (pathSteps path).dropLast) ∨
        (pathSteps path).dropLast = [] ∧ pathSteps (dirname path) = [.stay]) := by
  unfold dirname
  cases hlast : beforeLastSlash (stripSlashes path) with
  | none =>
    have hno := beforeLastSlash_none.mp hlast
    dsimp only
    by_cases hempty : stripSlashes path = []
    · have hsteps : pathSteps path = [] := by
        rw [pathSteps, ← segments_stripSlashes, hempty]
        rfl
      rw [hsteps]
      split_ifs with habs
      · exact ⟨by simp [pathStart, habs], .inl rfl⟩
      · exact ⟨by simp [pathStart, habs], .inr ⟨rfl, rfl⟩⟩
    · have hsteps : (pathSteps path).dropLast = [] := by
        rw [pathSteps, ← segments_stripSlashes, segments_of_notMem hno hempty]
        rfl
      have habs : path.head? ≠ some '/' := by
        obtain ⟨n, hn⟩ := stripSlashes_append path
        intro h
        rw [hn, List.head?_append_of_ne_nil _ hempty] at h
        exact hno (List.mem_of_mem_head? h)
      rw [if_neg habs]
      exact ⟨by simp [pathStart, habs], .inr ⟨hsteps, rfl⟩⟩
  | some dir =>
    obtain ⟨x, hx, hxs⟩ := beforeLastSlash_some hlast
    have hne : x ≠ [] := by
      intro h
      rw [h] at hx
      exact stripSlashes_end path (by simp [hx])
    have hsteps : (pathSteps path).dropLast = pathSteps dir := by
      rw [pathSteps, ← segments_stripSlashes, hx, segments_child hxs hne, List.map_append]
      exact List.dropLast_concat
    have hstart : pathStart cwd path = if dir = [] then [] else pathStart cwd dir := by
      rw [← pathStart_stripSlashes (by rw [hx]; simp), hx]
      cases dir <;> rfl
    have hsame : pathSteps (stripSlashes dir) = pathSteps dir := by
      rw [pathSteps, segments_stripSlashes, pathSteps]
    dsimp only
    rw [hsteps, hstart]
    by_cases hroot : stripSlashes dir = []
    · rw [if_pos hroot]
      have habs : dir ≠ [] → pathStart cwd dir = [] := by
        intro hdir
        obtain ⟨n, hn⟩ := stripSlashes_append dir
        rw [hroot, List.nil_append] at hn
        rw [hn] at hdir ⊢
        cases n with
        | zero => exact absurd rfl hdir
        | succ n => rfl
      refine ⟨?_, .inl ?_⟩
      · split_ifs with hdir
        · rfl
        · exact (habs hdir).symm
      · rw [← hsame, hroot]
        rfl
    · have hdir : dir ≠ [] := by
        rintro rfl
        exact hroot rfl
      rw [if_neg hroot, if_neg hdir, hsame, pathStart_stripSlashes hroot]
      exact ⟨rfl, .inl rfl⟩

end Dirname

section Loop

variable {allow : List CStr → Bool} {cwd : List CStr} {t : LocalDirs} {m : Making} {path : CStr}

/-- A `mkdir` of the loop makes the component that ends at the slash. -/
theorem Making.mkdir_made (hallow : ∀ d, allow d = true)
    (hm : Made t m.dirs (pathStart cwd path) ((scan path).done.map pathStep) m.made)
    (hpath : t.node (reach (pathStart cwd path) (pathSteps path)) ≠ some .other) :
    Made t (m.mkdir allow cwd path).dirs (pathStart cwd path) (pathSteps path)
      (m.mkdir allow cwd path).made := by
  unfold Making.mkdir sysMkdir
  rw [pathSteps] at hpath ⊢
  rcases segments_cases path with h | ⟨x, h⟩
  · rw [h]
    exact hm.mkdir_again
  · rw [h, List.map_append] at hpath ⊢
    exact hm.mkdir hallow hpath

theorem pathStart_append {done : CStr} (hne : done ≠ []) (rest : CStr) :
    pathStart cwd (done ++ rest) = pathStart cwd done := by
  rw [pathStart, pathStart, List.head?_append_of_ne_nil _ hne]

/-- The loop makes the components that end before its last character, and leaves the buffer. -/
theorem mkdirTreeLoop_made (hallow : ∀ d, allow d = true) (done rest : CStr) (hne : done ≠ [])
    (hnul : nul ∉ done ++ rest) (junk : List Char)
    (hpath : ∀ pre, pre <+: pathSteps (done ++ rest) →
      t.node (reach (pathStart cwd done) pre) ≠ some .other)
    (hm : Made t m.dirs (pathStart cwd done) ((scan done).done.map pathStep) m.made)
    (fuel : Nat) (hfuel : rest.length < fuel) :
    ∃ m', mkdirTreeLoop allow cwd fuel done.length (done ++ rest ++ nul :: junk) m =
        (done ++ rest ++ nul :: junk, m') ∧
      Made t m'.dirs (pathStart cwd done) ((scan (done ++ rest)).done.map pathStep) m'.made := by
  induction rest generalizing done m fuel with
  | nil =>
    obtain ⟨fuel, rfl⟩ : ∃ k, fuel = k + 1 := ⟨fuel - 1, by simp at hfuel; omega⟩
    rw [List.append_nil]
    exact ⟨m, by simp [mkdirTreeLoop], hm⟩
  | cons c rest ih =>
    obtain ⟨fuel, rfl⟩ : ∃ k, fuel = k + 1 := ⟨fuel - 1, by omega⟩
    have hc : c ≠ nul := by
      rintro rfl
      exact hnul (by simp)
    have hdone : nul ∉ done := fun h => hnul (List.mem_append_left _ h)
    have hsplit : done ++ c :: rest = (done ++ [c]) ++ rest := by simp
    have hat : (done ++ c :: rest ++ nul :: junk)[done.length]? = some c := by simp
    have hlen : (done ++ [c]).length = done.length + 1 := by simp
    have hstart : pathStart cwd (done ++ [c]) = pathStart cwd done := pathStart_append hne [c]
    have hfuel' : rest.length < fuel := by
      rw [List.length_cons] at hfuel
      omega
    rw [mkdirTreeLoop, hat, if_neg (by simp [hc]), ← hlen]
    by_cases hslash : c = '/'
    · subst hslash
      have hcut : cstr ((done ++ '/' :: rest ++ nul :: junk).set done.length nul) = done := by
        rw [List.append_assoc, List.cons_append, set_at_length]
        exact cstr_cut hdone _
      have hback : ((done ++ '/' :: rest ++ nul :: junk).set done.length nul).set done.length '/' =
          done ++ '/' :: rest ++ nul :: junk := by
        rw [List.set_set, List.append_assoc, List.cons_append, set_at_length]
      have hstep : Made t (m.mkdir allow cwd done).dirs (pathStart cwd done) (pathSteps done)
          (m.mkdir allow cwd done).made := by
        apply Making.mkdir_made hallow hm
        apply hpath
        exact (segments_prefix_slash done rest).map pathStep
      rw [if_pos rfl]
      dsimp only
      rw [hcut, hback, hsplit]
      rw [hsplit] at hnul hpath
      rw [← hstart] at hpath hstep ⊢
      apply ih (done ++ ['/']) (by simp) hnul hpath _ fuel hfuel'
      rw [scan_slash]
      exact hstep
    · rw [if_neg (by simpa using hslash), hsplit]
      rw [hsplit] at hnul hpath
      rw [← hstart] at hpath hm ⊢
      apply ih (done ++ [c]) (by simp) hnul hpath _ fuel hfuel'
      rw [scan_concat hslash]
      exact hm

theorem mkdirTree_made (hallow : ∀ d, allow d = true) (hne : path ≠ []) (hnul : nul ∉ path)
    (hfits : path.length < tmpstrMax) (hstart : t.node (pathStart cwd path) = some .dir)
    (hpath : ∀ pre, pre <+: pathSteps path →
      t.node (reach (pathStart cwd path) pre) ≠ some .other) :
    Made t (mkdirTree allow cwd t path).dirs (pathStart cwd path) (pathSteps path)
      (mkdirTree allow cwd t path).made := by
  obtain ⟨c, cs, rfl⟩ := List.exists_cons_of_ne_nil hne
  have hfirst : (scan [c]).done = [] := by
    by_cases hc : c = '/'
    · rw [hc]
      rfl
    · have hscan := scan_concat hc []
      rw [List.nil_append] at hscan
      rw [hscan]
      rfl
  have hbegin : Made t (⟨t, []⟩ : Making).dirs (pathStart cwd [c])
      ((scan [c]).done.map pathStep) (⟨t, []⟩ : Making).made := by
    rw [hfirst]
    exact .start hstart
  have hfuel : cs.length < (c :: cs ++ [nul]).length := by
    rw [List.length_append, List.length_cons]
    omega
  obtain ⟨m', hloop, hm'⟩ := mkdirTreeLoop_made hallow [c] cs (by simp) hnul [] hpath hbegin
    (c :: cs ++ [nul]).length hfuel
  have hrun : mkdirTree allow cwd t (c :: cs) = m'.mkdir allow cwd (c :: cs) := by
    have htmp : tmpstr (c :: cs) = c :: cs := snprintf_of_lt hfits
    have hbuf : mkdirTreeLoop allow cwd (c :: cs ++ [nul]).length 1 (c :: cs ++ [nul]) ⟨t, []⟩ =
        (c :: cs ++ [nul], m') := hloop
    unfold mkdirTree
    rw [htmp]
    simp only [hbuf]
    rw [cstr_cut hnul]
  rw [hrun]
  exact Making.mkdir_made hallow hm' (hpath _ List.prefix_rfl)

end Loop

/-- After `build_cache_tree`: the directory of the name is there, only directories of the name have
been made, each below one that was there, and nothing else has changed. -/
structure TreeBuilt (cwd : List CStr) (t : LocalDirs) (name : Path) (m : Making) : Prop where
  there : m.dirs.node (dirAbove cwd name) = some .dir
  onPath : ∀ d ∈ m.made, Ancestor cwd name d
  missing : ∀ d, Ancestor cwd name d → t.node d = none → d ∈ m.made
  order : ∀ before d after, m.made = before ++ d :: after →
    ∃ p x, d = p ++ [x] ∧ (t.node p = some .dir ∨ p ∈ before)
  kept : ∀ d, t.node d ≠ none → m.dirs.node d = t.node d
  only : ∀ d, t.node d = none → m.dirs.node d ≠ none → d ∈ m.made

section Built

variable {cwd : List CStr} {t : LocalDirs} {m : Making} {name : Path}

/-- The directories of `dirname` are those of the path. -/
theorem ancestor_iff (cwd : List CStr) (path : CStr) (d : List CStr) : Ancestor cwd path d ↔
    ∃ pre, pre <+: pathSteps (dirname path) ∧ d = reach (pathStart cwd path) pre := by
  obtain ⟨_, hsteps | ⟨hnil, hstay⟩⟩ := dirname_spec cwd path
  · rw [hsteps]
    exact Iff.rfl
  · unfold Ancestor
    rw [hnil, hstay]
    constructor
    · intro ⟨pre, hpre, hd⟩
      rw [List.prefix_nil.mp hpre] at hd
      exact ⟨[], List.nil_prefix, hd⟩
    · intro ⟨pre, hpre, hd⟩
      refine ⟨[], List.prefix_rfl, ?_⟩
      rcases List.prefix_cons_iff.mp hpre with rfl | ⟨pre', rfl, hpre'⟩
      · exact hd
      · rw [List.prefix_nil.mp hpre'] at hd
        exact hd

theorem TreeBuilt.of_made
    (h : Made t m.dirs (pathStart cwd name) (pathSteps (dirname name)) m.made) :
    TreeBuilt cwd t name m where
  there := by
    obtain ⟨_, hsteps | ⟨hnil, _⟩⟩ := dirname_spec cwd name
    · rw [dirAbove, ← hsteps]
      exact h.dirs _ List.prefix_rfl
    · rw [dirAbove, hnil]
      exact h.dirs [] List.nil_prefix
  onPath d hd := (ancestor_iff cwd name d).mpr (h.onPath d hd)
  missing d hanc hd := by
    obtain ⟨pre, hpre, rfl⟩ := (ancestor_iff cwd name d).mp hanc
    exact h.missing hpre hd
  order before d after he := (h.grown.order before d after he).2
  kept := h.grown.kept
  only d hnone hthere := by
    rcases h.grown.fresh d hnone with ⟨hm, _⟩ | ⟨_, hn⟩
    · exact hm
    · exact absurd hn hthere

theorem stripSlashes_length_le (path : CStr) : (stripSlashes path).length ≤ path.length := by
  obtain ⟨n, hn⟩ := stripSlashes_append path
  have hlen := congrArg List.length hn
  rw [List.length_append] at hlen
  omega

theorem dirname_length_le {path : CStr} (hne : path ≠ []) :
    (dirname path).length ≤ path.length := by
  have hpos := List.length_pos_iff.mpr hne
  unfold dirname
  cases hlast : beforeLastSlash (stripSlashes path) with
  | none => dsimp only; split_ifs <;> exact hpos
  | some dir =>
    obtain ⟨x, hx, _⟩ := beforeLastSlash_some hlast
    have hpath := stripSlashes_length_le path
    have hdir := stripSlashes_length_le dir
    rw [hx, List.length_append, List.length_cons] at hpath
    dsimp only
    split_ifs
    · exact hpos
    · omega

theorem dirname_ne_nil (path : CStr) : dirname path ≠ [] := by
  unfold dirname
  cases beforeLastSlash (stripSlashes path) with
  | none => dsimp only; split_ifs <;> simp
  | some dir =>
    dsimp only
    split_ifs with h
    · simp
    · exact h

theorem nul_notMem_dirname {path : CStr} (hnul : nul ∉ path) : nul ∉ dirname path := by
  have hstrip : ∀ {p : CStr}, nul ∉ p → nul ∉ stripSlashes p := by
    intro p hp hm
    obtain ⟨n, hn⟩ := stripSlashes_append p
    apply hp
    rw [hn]
    exact List.mem_append_left _ hm
  unfold dirname
  cases hlast : beforeLastSlash (stripSlashes path) with
  | none => dsimp only; split_ifs <;> decide
  | some dir =>
    obtain ⟨x, hx, _⟩ := beforeLastSlash_some hlast
    have hdir : nul ∉ dir := by
      intro hm
      apply hstrip hnul
      rw [hx]
      exact List.mem_append_left _ hm
    dsimp only
    split_ifs
    · decide
    · exact hstrip hdir

end Built

/-- Where no directory of the name is a file, and every `mkdir` below a directory succeeds,
`build_cache_tree` makes what is missing of the name's directories, and nothing else. -/
theorem cache_tree_built (cx : Ctx) (strdup : Bool) (allow : List CStr → Bool)
    (hallow : ∀ d, allow d = true) (cwd : List CStr) (t : LocalDirs) (hcwd : t.node cwd = some .dir)
    (path : Path) (hnul : nul ∉ cx.conf.cacheDir ++ path)
    (hfits : (cx.conf.cacheDir ++ '/' :: path.dropWhile (· = '/')).length < tmpstrMax)
    (hanc : ∀ d, Ancestor cwd (cx.conf.cacheDir ++ '/' :: path.dropWhile (· = '/')) d →
      t.node d = none ∨ t.node d = some .dir) :
    match buildCacheTreeDirs cx strdup allow cwd t path with
    | (none, m) => m.dirs = t ∧ m.made = []
    | (some name, m) => name = cx.conf.cacheDir ++ '/' :: path.dropWhile (· = '/') ∧
        TreeBuilt cwd t name m := by
  set name := cx.conf.cacheDir ++ '/' :: path.dropWhile (· = '/') with hname
  have hprinted : buildCacheTree cx path = name := by
    rw [buildCacheTree, List.append_assoc]
    exact snprintf_of_lt hfits
  have hnulName : nul ∉ name := by
    intro hm
    rw [hname, List.mem_append, List.mem_cons] at hm
    apply hnul
    rcases hm with hm | hm | hm
    · exact List.mem_append_left _ hm
    · exact absurd hm (by decide)
    · exact List.mem_append_right _ ((List.dropWhile_suffix _).subset hm)
  have hne : name ≠ [] := by simp [hname]
  obtain ⟨hstart, _⟩ := dirname_spec cwd name
  have hlen := dirname_length_le hne
  have hdir : tmpstr (dirname name) = dirname name :=
    snprintf_of_lt (by unfold tmpstrMax at *; omega)
  have hpath : ∀ pre, pre <+: pathSteps (dirname name) →
      t.node (reach (pathStart cwd name) pre) ≠ some .other := by
    intro pre hpre
    rcases hanc _ ((ancestor_iff cwd name _).mpr ⟨pre, hpre, rfl⟩) with h | h
    · rw [h]
      simp
    · rw [h]
      simp
  have hbegin : t.node (pathStart cwd name) = some .dir := by
    rw [pathStart]
    split_ifs
    · exact t.root
    · exact hcwd
  cases strdup with
  | false => exact ⟨rfl, rfl⟩
  | true =>
    have hrun : buildCacheTreeDirs cx true allow cwd t path =
        (some name, if sysStat t cwd (dirname name) = .enoent
          then mkdirTree allow cwd t (dirname name) else ⟨t, []⟩) := by
      unfold buildCacheTreeDirs
      simp only [hprinted, hdir, if_true]
    rw [hrun]
    refine ⟨rfl, TreeBuilt.of_made ?_⟩
    rw [sysStat, if_neg (dirname_ne_nil name), hstart]
    rcases stat_found_iff hpath with ⟨hfound, hall⟩ | ⟨hmissing, _⟩
    · rw [hfound, if_neg (by decide)]
      exact ⟨.refl t, hall, fun d hd => by simp at hd⟩
    · rw [hmissing, if_pos rfl, ← hstart]
      rw [← hstart] at hpath hbegin
      apply mkdirTree_made hallow (dirname_ne_nil name) (nul_notMem_dirname hnulName) _ hbegin hpath
      omega

/-- Nothing but the root. -/
def bareDirs : LocalDirs where
  node d := if d = [] then some .dir else none
  root := rfl
  above dir x h := absurd (if_neg (by simp)) h

/-- The cache directory and two more are made. -/
theorem cache_tree_built_sample :
    TreeBuilt [] bareDirs ['/', 'c', '/', 'd', '/', 'e', '/', 'f']
      (buildCacheTreeDirs Sample.plain true (fun _ => true) [] bareDirs
        ['/', 'd', '/', 'e', '/', 'f']).2 := by
  have hbuilt := cache_tree_built Sample.plain true (fun _ => true) (fun _ => rfl) [] bareDirs rfl
    ['/', 'd', '/', 'e', '/', 'f'] (by decide) (by decide) (by
      intro d _
      by_cases hd : d = []
      · exact .inr (if_pos hd)
      · exact .inl (if_neg hd))
  exact hbuilt.2

end DropletFs
