import DropletFs.Model.Remote

/-! What each call on the store does: it is refused and leaves the store, or it goes through under
the conditions stated. -/

namespace DropletFs

open CText

variable (env : Env) (st : Store) (p : Path)

theorem Store.ftype?_root : st.ftype? rootPath = some .dir := by simp [Store.ftype?]

theorem Store.ftype?_of_ne {st : Store} {p : Path} (h : p ≠ rootPath) :
    st.ftype? p = (st.lookup p).map (·.ftype) := by simp [Store.ftype?, h]

theorem Store.ftype?_none {st : Store} {p : Path} :
    st.ftype? p = none ↔ p ≠ rootPath ∧ st.lookup p = none := by
  unfold Store.ftype?
  split_ifs with h
  · simp [h]
  · simp [h]

/-- A type other than a directory's is that of an object. -/
theorem Store.ftype?_file {st : Store} {p : Path} {type : FType} (h : st.ftype? p = some type)
    (hd : type ≠ .dir) : p ≠ rootPath ∧ ∃ o, st.lookup p = some o ∧ o.ftype = type := by
  unfold Store.ftype? at h
  split_ifs at h with hr
  · exact (hd (Option.some.inj h).symm).elim
  · exact ⟨hr, Option.map_eq_some_iff.mp h⟩

theorem dplMknod_cases (path : Path) :
    dplMknod env st path = (.success, st.insert path (emptyObj .reg)) ∨
    (dplMknod env st path).1 ≠ .success ∧ (dplMknod env st path).2 = st := by
  unfold dplMknod
  cases hr : env.remote (.mknod path) with
  | success =>
    by_cases hd : st.ftype? path = some .dir
    · exact .inr (by simp [hd])
    · exact .inl (by simp [hd])
  | _ => exact .inr ⟨by simp, rfl⟩

theorem dplUnlink_cases :
    (dplUnlink env st p).1 ≠ .success ∧ (dplUnlink env st p).2 = st ∨
    env.remote (.unlink p) = .success ∧ p ≠ rootPath ∧
      (∃ o, st.lookup p = some o ∧ o.ftype ≠ .dir) ∧
      dplUnlink env st p = (.success, st.erase p) := by
  unfold dplUnlink
  split
  · rename_i hr
    cases hf : st.ftype? p with
    | none => exact .inl ⟨by simp, rfl⟩
    | some type =>
      cases type with
      | dir => exact .inl ⟨by simp, rfl⟩
      | reg =>
        obtain ⟨hn, o, ho, ht⟩ := Store.ftype?_file hf (by decide)
        exact .inr ⟨hr, hn, ⟨o, ho, by rw [ht]; decide⟩, rfl⟩
      | other =>
        obtain ⟨hn, o, ho, ht⟩ := Store.ftype?_file hf (by decide)
        exact .inr ⟨hr, hn, ⟨o, ho, by rw [ht]; decide⟩, rfl⟩
  · rename_i hne
    exact .inl ⟨fun h => hne h, rfl⟩

theorem dplMkdir_cases :
    (dplMkdir env st p).1 ≠ .success ∧ (dplMkdir env st p).2 = st ∨
    env.remote (.mkdir p) = .success ∧ p ≠ rootPath ∧ st.lookup p = none ∧
      dplMkdir env st p = (.success, st.insert p (emptyObj .dir)) := by
  unfold dplMkdir
  split
  · rename_i hr
    by_cases hs : (st.ftype? p).isSome
    · rw [if_pos hs]
      exact .inl ⟨by simp [eexist], rfl⟩
    · rw [if_neg hs]
      obtain ⟨hn, ho⟩ := Store.ftype?_none.mp (Option.not_isSome_iff_eq_none.mp hs)
      exact .inr ⟨hr, hn, ho, rfl⟩
  · rename_i hne
    exact .inl ⟨fun h => hne h, rfl⟩

theorem dplRmdir_cases :
    (dplRmdir env st p).1 ≠ .success ∧ (dplRmdir env st p).2 = st ∨
    env.remote (.rmdir p) = .success ∧ p ≠ rootPath ∧ st.ftype? p = some .dir ∧
      st.children p = [] ∧ dplRmdir env st p = (.success, st.erase p) := by
  unfold dplRmdir
  split
  · rename_i hr
    by_cases hn : p = rootPath
    · rw [if_pos hn]
      exact .inl ⟨by simp [enotempty], rfl⟩
    rw [if_neg hn]
    cases hf : st.ftype? p with
    | none => exact .inl ⟨by simp, rfl⟩
    | some type =>
      cases type with
      | dir =>
        dsimp only
        by_cases hc : st.children p = []
        · rw [if_pos hc]
          exact .inr ⟨hr, hn, rfl, hc, rfl⟩
        · rw [if_neg hc]
          exact .inl ⟨by simp [enotempty], rfl⟩
      | reg => exact .inl ⟨by simp [enotdir], rfl⟩
      | other => exact .inl ⟨by simp [enotdir], rfl⟩
  · rename_i hne
    exact .inl ⟨fun h => hne h, rfl⟩

theorem dplFcopy_cases (q : Path) :
    (dplFcopy env st p q).1 ≠ .success ∧ (dplFcopy env st p q).2 = st ∨
    env.remote (.fcopy p q) = .success ∧ p ≠ rootPath ∧ st.ftype? q ≠ some .dir ∧
      ∃ o, st.lookup p = some o ∧ o.ftype ≠ .dir ∧
        dplFcopy env st p q = (.success, st.insert q o) := by
  unfold dplFcopy
  split
  · rename_i hr
    by_cases hn : p = rootPath ∨ st.ftype? q = some .dir
    · rw [if_pos hn]
      exact .inl ⟨by simp, rfl⟩
    rw [if_neg hn]
    rw [not_or] at hn
    cases ho : st.lookup p with
    | none => exact .inl ⟨by simp, rfl⟩
    | some o =>
      dsimp only
      by_cases hd : o.ftype = .dir
      · rw [if_pos hd]
        exact .inl ⟨by simp, rfl⟩
      · rw [if_neg hd]
        exact .inr ⟨hr, hn.1, hn.2, o, rfl, hd, rfl⟩
  · rename_i hne
    exact .inl ⟨fun h => hne h, rfl⟩

end DropletFs
