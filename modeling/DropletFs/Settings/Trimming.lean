import DropletFs.Settings.Reading

/-! The loops that trim trailing slashes in place. They stop at a byte that is no slash, and in a
string of slashes there is none. -/

namespace DropletFs

open CText

/-- `t` is the longest prefix of `s` that does not end in a slash. -/
structure LongestUnslashed (s t : CStr) : Prop where
  start : t <+: s
  unslashed : t.getLast? ≠ some '/'
  longest : ∀ t', t' <+: s → t'.getLast? ≠ some '/' → t'.length ≤ t.length

section Strip

theorem stripSlashes_slash (s : CStr) : stripSlashes (s ++ ['/']) = stripSlashes s := by
  simp [stripSlashes]

theorem stripSlashes_other (s : CStr) {c : Char} (hc : c ≠ '/') :
    stripSlashes (s ++ [c]) = s ++ [c] := by
  simp [stripSlashes, hc]

theorem stripSlashes_longest (s : CStr) : LongestUnslashed s (stripSlashes s) := by
  induction s using List.reverseRecOn with
  | nil =>
    refine ⟨List.prefix_refl _, by simp [stripSlashes], ?_⟩
    intro t' ht _
    exact ht.length_le
  | append_singleton s c ih =>
    by_cases hc : c = '/'
    · subst hc
      rw [stripSlashes_slash]
      refine ⟨ih.start.trans (List.prefix_append s _), ih.unslashed, ?_⟩
      intro t' ht hend
      rcases List.prefix_concat_iff.mp ht with rfl | ht
      · simp at hend
      · exact ih.longest t' ht hend
    · rw [stripSlashes_other s hc]
      refine ⟨List.prefix_refl _, by simpa using hc, ?_⟩
      intro t' ht _
      exact ht.length_le

/-- Such a prefix is unique. -/
theorem LongestUnslashed.unique {s t t' : CStr} (h : LongestUnslashed s t)
    (h' : LongestUnslashed s t') : t = t' := by
  have hlen : t.length = t'.length :=
    le_antisymm (h'.longest t h.start h.unslashed) (h.longest t' h'.start h'.unslashed)
  exact (List.prefix_of_prefix_length_le h.start h'.start hlen.le).eq_of_length hlen

end Strip

section Trim

/-- A string of slashes only: the loop runs out of it. -/
theorem trimSlashes_out {s : CStr} (h : ∀ c ∈ s, c = '/') (rest : List Char) :
    trimSlashes (s ++ nul :: rest) s.length = .error .outOfBounds := by
  induction s using List.reverseRecOn generalizing rest with
  | nil => rfl
  | append_singleton s c ih =>
    have hc : c = '/' := h c (by simp)
    subst hc
    have hread : (s ++ ['/'] ++ nul :: rest)[s.length]? = some '/' := by simp
    have hset : (s ++ ['/'] ++ nul :: rest).set s.length nul = s ++ nul :: nul :: rest := by simp
    rw [List.length_append, List.length_singleton, trimSlashes, hread, hset,
      if_pos ⟨by decide, rfl⟩]
    exact ih (fun c hc => h c (List.mem_append_left _ hc)) (nul :: rest)

/-- Any other string: the loop stops within it, at the last byte that is no slash. -/
theorem trimSlashes_stops {s : CStr} (hs : nul ∉ s) (h : ∃ c ∈ s, c ≠ '/') (rest : List Char) :
    ∃ rest', trimSlashes (s ++ nul :: rest) s.length = .ok (stripSlashes s ++ nul :: rest') := by
  induction s using List.reverseRecOn generalizing rest with
  | nil =>
    obtain ⟨c, hc, _⟩ := h
    cases hc
  | append_singleton s c ih =>
    have hread : (s ++ [c] ++ nul :: rest)[s.length]? = some c := by simp
    rw [List.length_append, List.length_singleton, trimSlashes, hread]
    by_cases hc : c = '/'
    · subst hc
      have hset : (s ++ ['/'] ++ nul :: rest).set s.length nul = s ++ nul :: nul :: rest := by simp
      rw [hset, if_pos ⟨by decide, rfl⟩, stripSlashes_slash]
      apply ih (fun hn => hs (List.mem_append_left _ hn))
      obtain ⟨d, hd, hne⟩ := h
      rcases List.mem_append.mp hd with hd | hd
      · exact ⟨d, hd, hne⟩
      · exact (hne (List.mem_singleton.mp hd)).elim
    · rw [if_neg (by simp [hc]), stripSlashes_other s hc]
      exact ⟨rest, rfl⟩

theorem not_mem_stripSlashes {s : CStr} (hs : nul ∉ s) : nul ∉ stripSlashes s :=
  fun h => hs ((stripSlashes_longest s).start.subset h)

/-- The loop stays within the string and leaves the prefix exactly when there is a byte to stop
at. -/
theorem trimSlashes_iff {s : CStr} (hs : nul ∉ s) :
    (∃ buf, trimSlashes (s ++ [nul]) s.length = .ok buf ∧ LongestUnslashed s (cstr buf)) ↔
      ∃ c ∈ s, c ≠ '/' := by
  constructor
  · intro ⟨buf, hrun, _⟩
    by_contra hall
    have hout := trimSlashes_out (s := s) (by simpa using hall) []
    rw [hrun] at hout
    cases hout
  · intro h
    obtain ⟨rest, hrun⟩ := trimSlashes_stops hs h []
    refine ⟨_, hrun, ?_⟩
    rw [cstr_cut (not_mem_stripSlashes hs)]
    exact stripSlashes_longest s

end Trim

/-- Where the loop stays within the string, the functions on texts and on bytes agree. -/
theorem confSetFullCacheDirBytes_eq {u : Startup} {conf : Settings} {cache : CStr}
    (hcache : tmpstr (conf.cacheDir ++ '/' :: u.curBucket) = cache) (hc : nul ∉ cache)
    (hstop : u.mkdir cache → ∃ c ∈ cache, c ≠ '/') :
    confSetFullCacheDirBytes u conf = .ok (confSetFullCacheDir u conf) := by
  unfold confSetFullCacheDirBytes confSetFullCacheDir
  rw [hcache]
  dsimp only
  by_cases hmk : u.mkdir cache
  · obtain ⟨rest, hrun⟩ := trimSlashes_stops hc (hstop hmk) []
    rw [if_pos hmk, if_pos hmk, hrun]
    simp only [bind, Except.bind]
    rw [cstr_cut (not_mem_stripSlashes hc)]
  · rw [if_neg hmk, if_neg hmk]

/-- Trimming the mount point, and the path of the cache directory once that has been made, stays
within the string and leaves its longest prefix that does not end in a slash. -/
theorem trimming_in_bounds_iff (u : Startup) (conf : Settings) (dir cache : CStr)
    (hdir : nul ∉ dir) (hcache : tmpstr (conf.cacheDir ++ '/' :: u.curBucket) = cache)
    (hc : nul ∉ cache) :
    ((∃ t, LongestUnslashed dir t ∧
        confSetRootDir conf (some dir) = .ok { conf with rootDir := some t }) ↔
      ∃ c ∈ dir, c ≠ '/') ∧
    ((u.mkdir cache → ∃ t, LongestUnslashed cache t ∧
        confSetFullCacheDirBytes u conf = .ok (true, { conf with cacheDir := t })) ↔
      (u.mkdir cache → ∃ c ∈ cache, c ≠ '/')) := by
  rw [← trimSlashes_iff hdir]
  unfold confSetRootDir confSetFullCacheDirBytes
  rw [hcache]
  dsimp only
  refine ⟨?_, ?_⟩
  · constructor
    · intro ⟨t, ht, hrun⟩
      obtain ⟨buf, hbuf, he⟩ := Except.bind_ok.mp hrun
      simp only [Except.ok.injEq, Settings.mk.injEq, Option.some.injEq, and_true] at he
      exact ⟨buf, hbuf, he ▸ ht⟩
    · intro ⟨buf, hbuf, ht⟩
      refine ⟨cstr buf, ht, ?_⟩
      rw [hbuf]
      rfl
  · rw [← trimSlashes_iff hc]
    apply forall_congr'
    intro hmk
    rw [if_pos hmk]
    constructor
    · intro ⟨t, ht, hrun⟩
      obtain ⟨buf, hbuf, he⟩ := Except.bind_ok.mp hrun
      simp only [Except.ok.injEq, Prod.mk.injEq, Settings.mk.injEq, true_and, and_true] at he
      exact ⟨buf, hbuf, he ▸ ht⟩
    · intro ⟨buf, hbuf, ht⟩
      refine ⟨cstr buf, ht, ?_⟩
      rw [hbuf]
      rfl

theorem trimming_in_bounds_sample :
    ∃ t, LongestUnslashed ['/', 'm', '/'] t ∧
      confSetRootDir (confCtorDefault Startup.bare none) (some ['/', 'm', '/']) =
        .ok { confCtorDefault Startup.bare none with rootDir := some t } :=
  (trimming_in_bounds_iff Startup.bare (confCtorDefault Startup.bare none) ['/', 'm', '/']
    ['/', 't', 'm', 'p', '/', 'b'] (by decide) rfl (by decide)).1.mpr ⟨'m', by decide, by decide⟩

/-- For a mount point given as `/`, or as the empty string, the loop reads in front of it. -/
theorem root_trimmed_outside :
    confSetRootDir (confCtorDefault Startup.bare none) (some ['/']) = .error .outOfBounds ∧
    confSetRootDir (confCtorDefault Startup.bare none) (some []) = .error .outOfBounds ∧
    ¬∃ t, LongestUnslashed ['/'] t ∧
      confSetRootDir (confCtorDefault Startup.bare none) (some ['/']) =
        .ok { confCtorDefault Startup.bare none with rootDir := some t } := by
  refine ⟨rfl, rfl, ?_⟩
  intro ⟨t, _, hrun⟩
  cases hrun

end DropletFs
