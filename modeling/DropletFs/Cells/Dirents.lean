import DropletFs.Cells.Removal
import DropletFs.Model.Hash

/-! The list of a directory entry in memory: what `hash.c` does to it over a whole run, against the
list of paths that the table has, and what is left when the entry is freed. -/

namespace DropletFs

open CText RefStore

section Walks

variable {β σ : Type} {h : ListHeap β} {ll : Option Ref} {xs : Cells}

theorem walkCells_foldl (f : σ → CellData → σ) (xs : Cells) :
    ∀ (fuel : Nat) (ll : Option Ref) (acc : σ), xs.length < fuel →
      Segment h.cells.cell ll xs none →
      walkCells f fuel ll acc h = .ok (xs.foldl (fun acc e => f acc e.2) acc) := by
  induction xs with
  | nil =>
    intro fuel ll acc hfuel hseg
    obtain ⟨fuel, rfl⟩ : ∃ k, fuel = k + 1 := ⟨fuel - 1, by simp at hfuel; omega⟩
    have hnil : ll = none := hseg
    rw [hnil]
    rfl
  | cons e xs ih =>
    intro fuel ll acc hfuel hseg
    rw [List.length_cons] at hfuel
    obtain ⟨fuel, rfl⟩ : ∃ k, fuel = k + 1 := ⟨fuel - 1, by omega⟩
    obtain ⟨r, a⟩ := e
    obtain ⟨rfl, n, hr, hrest⟩ := hseg
    rw [List.foldl_cons, ← ih fuel n (f acc a) (by omega) hrest, walkCells, Store.read_live hr]
    rfl

theorem foldl_data (xs : Cells) : ∀ refs : List Ref,
    xs.foldl (fun refs e => e.2.data.elim refs fun data => refs ++ [data]) refs =
      refs ++ xs.filterMap (·.2.data) := by
  induction xs with
  | nil =>
    intro refs
    exact (List.append_nil refs).symm
  | cons e xs ih =>
    intro refs
    rw [List.foldl_cons, ih, List.filterMap_cons]
    cases e.2.data with
    | none => rfl
    | some b => exact List.append_assoc refs [b] _

theorem foldl_count (xs : Cells) : ∀ n : Nat,
    xs.foldl (fun ret _ => ret + 1) n = n + xs.length := by
  induction xs with
  | nil =>
    intro n
    rfl
  | cons e xs ih =>
    intro n
    rw [List.foldl_cons, ih, List.length_cons]
    omega

theorem foldl_filled (xs : Cells) : ∀ n : Nat,
    xs.foldl (fun ret e => if e.2.data.isSome then ret + 1 else ret) n =
      n + (xs.filterMap (·.2.data)).length := by
  induction xs with
  | nil =>
    intro n
    rfl
  | cons e xs ih =>
    intro n
    rw [List.foldl_cons, ih, List.filterMap_cons]
    cases e.2.data with
    | none => rfl
    | some b =>
      rw [if_pos Option.isSome_some, List.length_cons]
      omega

/-- One turn of `list_free`: the first cell goes with its data. -/
theorem listFree_first {r : Ref} {a : CellData} {n : Option Ref} (fuel : Nat)
    (hr : h.cells.cell r = some ⟨a, n⟩)
    (hlive : ∀ b, a.data = some b → h.blocks.cell b ≠ none) :
    ∃ h', listFree (fuel + 1) (some r) h = listFree fuel n h' ∧
      h'.cells.cell = Function.update h.cells.cell r none ∧
      ∀ x, h'.blocks.cell x = if a.data = some x then none else h.blocks.cell x := by
  cases hd : a.data with
  | none =>
    obtain ⟨cells, hfree, hc, _⟩ := Store.free_live hr
    refine ⟨{ h with cells := cells }, ?_, hc, fun x => by simp⟩
    rw [listFree, Store.read_live hr]
    simp only [bind, Except.bind, hd, Store.read_live hr, hfree]
  | some b =>
    obtain ⟨c, hb⟩ := Option.ne_none_iff_exists'.mp (hlive b hd)
    obtain ⟨blocks, hfreeb, hbs, _⟩ := Store.free_live hb
    obtain ⟨cells, hwrite, hcs⟩ := Store.write_live
      (a := (⟨{ a with data := none }, n⟩ : Node CellData))
      hr
    have hr' : cells.cell r = some ⟨{ a with data := none }, n⟩ := by
      rw [hcs, Function.update_self]
    obtain ⟨cells', hfree, hc, _⟩ := Store.free_live hr'
    refine ⟨⟨cells', blocks⟩, ?_, ?_, ?_⟩
    · rw [listFree, Store.read_live hr]
      simp only [bind, Except.bind, hd, hfreeb, hwrite, Store.read_live hr', hfree]
    · show cells'.cell = _
      rw [hc, hcs, Function.update_idem]
    · intro x
      show blocks.cell x = _
      rw [hbs]
      by_cases hx : x = b
      · rw [hx, Function.update_self, if_pos rfl]
      · rw [Function.update_of_ne hx, if_neg (fun he => hx (Option.some.inj he).symm)]

/-- `list_free` frees each cell and each block of a list, and nothing else. -/
theorem listFree_freed (xs : Cells) : ∀ (fuel : Nat) (h : ListHeap β) (ll : Option Ref),
    xs.length < fuel → Walk h ll ll [] xs →
      ∃ h', listFree fuel ll h = .ok h' ∧ Freed h h' xs [] := by
  induction xs with
  | nil =>
    intro fuel h ll hfuel hw
    obtain ⟨fuel, rfl⟩ : ∃ k, fuel = k + 1 := ⟨fuel - 1, by simp at hfuel; omega⟩
    have hnil : ll = none := hw.tail
    rw [hnil]
    exact ⟨h, rfl, .refl h _⟩
  | cons e xs ih =>
    intro fuel h ll hfuel hw
    rw [List.length_cons] at hfuel
    obtain ⟨fuel, rfl⟩ : ∃ k, fuel = k + 1 := ⟨fuel - 1, by omega⟩
    obtain ⟨r, a⟩ := e
    obtain ⟨rfl, n, hr, _⟩ := hw.next
    obtain ⟨h1, hstep, hc, hb⟩ := listFree_first fuel hr (hw.live (r, a) (List.mem_cons_self ..))
    obtain ⟨h', hrun, hfreed⟩ := ih fuel h1 n (by omega) (hw.drop_first hr hc hb)
    exact ⟨h', hstep.trans hrun, (freed_first hc hb).trans hfreed⟩

end Walks

/-- The list in memory holds these paths, and `lost` are the other blocks that are live; no other
cell is. -/
structure Owned (h : ListHeap CStr) (ll : Option Ref) (paths : List CStr) (lost : List Ref)
    (xs : Cells) : Prop where
  linked : WellLinked h ll xs
  texts : xs.map (fun e => e.2.data.bind h.blocks.cell) = paths.map some
  cells : ∀ r, h.cells.cell r ≠ none → r ∈ xs.map Prod.fst
  blocks : ∀ b, h.blocks.cell b ≠ none → b ∈ xs.filterMap (·.2.data) ∨ b ∈ lost
  astray : ∀ b ∈ lost, h.blocks.cell b ≠ none ∧ b ∉ xs.filterMap (·.2.data)
  distinct : lost.Nodup

section Owned

variable {h h' : ListHeap CStr} {ll : Option Ref} {paths : List CStr} {lost : List Ref} {xs : Cells}

theorem Owned.start : Owned ⟨Store.empty, Store.empty⟩ none [] [] [] :=
  ⟨.nil _, rfl, fun _ hr => (hr rfl).elim, fun _ hb => (hb rfl).elim, nofun, List.nodup_nil⟩

theorem Owned.length (ho : Owned h ll paths lost xs) : xs.length = paths.length := by
  have hl := congrArg List.length ho.texts
  simpa using hl

/-- No cell is without data. -/
theorem Owned.data (ho : Owned h ll paths lost xs) :
    (xs.filterMap (·.2.data)).map h.blocks.cell = paths.map some := by
  rw [← ho.texts, List.map_filterMap]
  have hsome : ∀ e ∈ xs, (e.2.data.map h.blocks.cell) = some (e.2.data.bind h.blocks.cell) := by
    intro e he
    have hm : e.2.data.bind h.blocks.cell ∈ paths.map some := by
      rw [← ho.texts]
      exact List.mem_map_of_mem he
    cases hd : e.2.data with
    | none =>
      rw [hd] at hm
      obtain ⟨path, _, hpath⟩ := List.mem_map.mp hm
      cases hpath
    | some b => rfl
  rw [List.filterMap_congr hsome, ← List.filterMap_eq_map]
  rfl

/-- A new block that is in no list yet. -/
theorem Owned.copied (ho : Owned h ll paths lost xs) (path : CStr) :
    Owned { h with blocks := (h.blocks.alloc path).2 } ll paths ((h.blocks.alloc path).1 :: lost)
      xs := by
  have hfresh := h.blocks.alloc_fresh path
  have hother : ∀ b, h.blocks.cell b ≠ none →
      (h.blocks.alloc path).2.cell b = h.blocks.cell b := by
    intro b hb
    apply h.blocks.alloc_ne
    rintro rfl
    exact hb hfresh
  have hnot : (h.blocks.alloc path).1 ∉ xs.filterMap (·.2.data) := by
    intro hm
    obtain ⟨e, he, hd⟩ := List.mem_filterMap.mp hm
    exact ho.linked.live e he _ hd hfresh
  refine ⟨⟨ho.linked.linked, ho.linked.distinct, ?_, ho.linked.blocks⟩, ?_, ho.cells, ?_, ?_, ?_⟩
  · intro e he b hb
    have hl := ho.linked.live e he b hb
    show (h.blocks.alloc path).2.cell b ≠ none
    rw [hother b hl]
    exact hl
  · rw [← ho.texts]
    apply List.map_congr_left
    intro e he
    cases hd : e.2.data with
    | none => rfl
    | some b => exact hother b (ho.linked.live e he b hd)
  · intro b hb
    by_cases hnew : b = (h.blocks.alloc path).1
    · exact .inr (hnew ▸ List.mem_cons_self ..)
    · have hb' : h.blocks.cell b ≠ none := by
        rw [← h.blocks.alloc_ne path hnew]
        exact hb
      cases ho.blocks b hb' with
      | inl h => exact .inl h
      | inr h => exact .inr (List.mem_cons_of_mem _ h)
  · intro b hb
    rcases List.mem_cons.mp hb with rfl | hb
    · refine ⟨?_, hnot⟩
      show (h.blocks.alloc path).2.cell (h.blocks.alloc path).1 ≠ none
      rw [h.blocks.alloc_cell path]
      simp
    · obtain ⟨hl, hn⟩ := ho.astray b hb
      refine ⟨?_, hn⟩
      show (h.blocks.alloc path).2.cell b ≠ none
      rw [hother b hl]
      exact hl
  · refine List.nodup_cons.mpr ⟨fun hm => ?_, ho.distinct⟩
    exact (ho.astray _ hm).1 hfresh

/-- `list_add` puts a block that is in no list at the front. -/
theorem Owned.add {b : Ref} {path : CStr} (ho : Owned h ll paths (b :: lost) xs)
    (hb : h.blocks.cell b = some path) (tv : Int × Int) :
    Owned (listAdd tv ll (some b) h).2 (listAdd tv ll (some b) h).1 (path :: paths) lost
      ((h.cells.next, ⟨tv, some b⟩) :: xs) := by
  obtain ⟨hlive, hnot⟩ := ho.astray b (List.mem_cons_self ..)
  obtain ⟨hbl, hdistinct⟩ := List.nodup_cons.mp ho.distinct
  refine ⟨?_, ?_, ?_, ?_, ?_, hdistinct⟩
  · apply ho.linked.add
    intro c hc
    obtain rfl := Option.some.inj hc
    exact ⟨hlive, hnot⟩
  · rw [List.map_cons, List.map_cons, ← ho.texts]
    exact congrArg (· :: _) hb
  · intro r hr
    by_cases hnew : r = h.cells.next
    · exact hnew ▸ List.mem_cons_self ..
    · refine List.mem_cons_of_mem _ (ho.cells r ?_)
      have hsame := Store.alloc_ne h.cells ⟨⟨tv, some b⟩, ll⟩ hnew
      exact hsame ▸ hr
  · intro c hc
    have hmem : c ∈ b :: xs.filterMap (·.2.data) ∨ c ∈ lost := by
      cases ho.blocks c hc with
      | inl h => exact .inl (List.mem_cons_of_mem _ h)
      | inr h =>
        rcases List.mem_cons.mp h with rfl | h
        · exact .inl (List.mem_cons_self ..)
        · exact .inr h
    exact hmem
  · intro c hc
    obtain ⟨hl, hn⟩ := ho.astray c (List.mem_cons_of_mem _ hc)
    refine ⟨hl, ?_⟩
    show c ∉ b :: xs.filterMap (·.2.data)
    rw [List.mem_cons, not_or]
    refine ⟨?_, hn⟩
    rintro rfl
    exact hbl hc

/-- `list_remove` takes the first block with the text of the key, and frees it with its cell. -/
theorem Owned.remove (ho : Owned h ll paths lost xs) (key : Ref) (path : CStr) {fuel : Nat}
    (hfuel : xs.length < fuel) :
    ∃ ll' h' xs', listRemove (cbComparePath h path) fuel ll (some key) h = .ok (ll', h') ∧
      Owned h' ll' (paths.erase path) lost xs' ∧ xs'.length ≤ xs.length := by
  cases ll with
  | none =>
    have hnil : xs = [] := ho.linked.eq_nil
    have hpaths : paths = [] := by
      have hl := ho.length
      rw [hnil] at hl
      exact List.eq_nil_of_length_eq_zero hl.symm
    refine ⟨none, h, xs, rfl, ?_, le_rfl⟩
    rw [hpaths] at ho ⊢
    exact ho
  | some ll =>
    obtain ⟨ll', h', hrun, hp⟩ := listRemoveLoop_pruned (cbComparePath h path) key ll xs fuel h ll
      (some ll) [] hfuel ho.linked.walk (.inl ⟨rfl, rfl⟩)
    rw [List.nil_append] at hp
    generalize hq : (fun e : Ref × CellData => cbComparePath h path key e.2.data) = q at hp
    have hperm := perm_eraseP q xs
    have hsub : (xs.eraseP q).Sublist xs := List.eraseP_sublist
    have hr := hp.removed ho.linked hperm hsub
    have hkept : ∀ b, h'.blocks.cell b ≠ none → h'.blocks.cell b = h.blocks.cell b := by
      intro b hb
      rw [hp.freed.blocks b] at hb ⊢
      split_ifs at hb ⊢ with hm
      · exact (hb rfl).elim
      · rfl
    refine ⟨ll', h', xs.eraseP q, hrun, ⟨hr.linked, ?_, ?_, ?_, ?_, ho.distinct⟩, hsub.length_le⟩
    · have hsame : (xs.eraseP q).map (fun e => e.2.data.bind h'.blocks.cell) =
          (xs.eraseP q).map (fun e => e.2.data.bind h.blocks.cell) := by
        apply List.map_congr_left
        intro e he
        cases hd : e.2.data with
        | none => rfl
        | some b => exact hkept b (hr.linked.live e he b hd)
      have hcomp : q = (fun t => decide (t = some path)) ∘
          fun e : Ref × CellData => e.2.data.bind h.blocks.cell := hq.symm
      rw [hsame, hcomp, ← List.eraseP_map, ho.texts, List.eraseP_map, List.erase_eq_eraseP]
      congr 2
      funext t
      by_cases ht : path = t
      · simp [ht]
      · simp [ht, Ne.symm ht]
    · intro r hr'
      by_contra hno
      by_cases hx : r ∈ xs.map Prod.fst
      · obtain ⟨e, he, rfl⟩ := List.mem_map.mp hx
        rcases List.mem_append.mp (hperm.mem_iff.mp he) with hm | hm
        · exact hno (List.mem_map_of_mem hm)
        · exact hr' (hr.cells e hm)
      · rw [hr.otherCells r hx] at hr'
        exact hx (ho.cells r hr')
    · intro b hb
      have hb' := hb
      rw [hkept b hb] at hb'
      cases ho.blocks b hb' with
      | inr hl => exact .inr hl
      | inl hm =>
        obtain ⟨e, he, hd⟩ := List.mem_filterMap.mp hm
        rcases List.mem_append.mp (hperm.mem_iff.mp he) with hm | hm
        · exact .inl (List.mem_filterMap.mpr ⟨e, hm, hd⟩)
        · exact (hb (hr.blocks e hm b hd)).elim
    · intro b hb
      obtain ⟨hl, hn⟩ := ho.astray b hb
      have hgone : some b ∉ (xs.find? q).toList.map (·.2.data) := by
        intro hm
        obtain ⟨e, he, hd⟩ := List.mem_map.mp hm
        have hx : e ∈ xs := hperm.mem_iff.mpr (List.mem_append_right _ he)
        exact hn (List.mem_filterMap.mpr ⟨e, hx, hd⟩)
      refine ⟨?_, fun hm => hn ?_⟩
      · rw [hr.otherBlocks b hgone]
        exact hl
      · obtain ⟨e, he, hd⟩ := List.mem_filterMap.mp hm
        exact List.mem_filterMap.mpr ⟨e, hsub.subset he, hd⟩

end Owned

/-- What a callback does to the list of a directory entry: `pentry_add_dirent`, with or without
memory for the copy of the path and for the cell, or `pentry_remove_dirent`. -/
inductive DirentCall
  | add (copied celled : Bool) (tv : Int × Int) (path : CStr)
  | remove (filetype : TPathType) (key : Ref) (path : CStr)

namespace DirentCall

def cells (fuel : Nat) (s : Option Ref × ListHeap CStr) :
    DirentCall → Except MemFault (Option Ref × ListHeap CStr)
  | add copied celled tv path => .ok (pentryAddDirentCells copied celled tv path s.1 s.2)
  | remove filetype key path => do
    let (_, s) ← pentryRemoveDirentCells filetype fuel key path s.1 s.2
    .ok s

/-- The same on the entry of the table. -/
def entry (pe : Entry) : DirentCall → Entry
  | add copied celled _ path => if copied && celled then pentryAddDirent pe path else pe
  | remove filetype _ path => pentryRemoveDirent { pe with filetype := filetype } path

/-- A copy that gets no cell. -/
def loses : DirentCall → Bool
  | add copied celled _ _ => copied && !celled
  | remove _ _ _ => false

end DirentCall

section Runs

variable {h : ListHeap CStr} {ll : Option Ref} {lost : List Ref} {xs : Cells}

theorem Owned.call {pe : Entry} (ho : Owned h ll pe.dirent lost xs) (c : DirentCall) {fuel : Nat}
    (hfuel : xs.length < fuel) : ∃ ll' h' lost' xs', c.cells fuel (ll, h) = .ok (ll', h') ∧
      Owned h' ll' (c.entry pe).dirent lost' xs' ∧
      lost'.length = lost.length + [c].countP DirentCall.loses ∧ xs'.length ≤ xs.length + 1 := by
  cases c with
  | add copied celled tv path =>
    cases copied with
    | false => exact ⟨ll, h, lost, xs, rfl, ho, rfl, Nat.le_succ _⟩
    | true =>
      have hcopy := ho.copied path
      cases celled with
      | false => exact ⟨ll, _, _, xs, rfl, hcopy, rfl, Nat.le_succ _⟩
      | true => exact ⟨_, _, lost, _, rfl, hcopy.add (h.blocks.alloc_cell path) tv, rfl, le_rfl⟩
  | remove filetype key path =>
    by_cases hdir : filetype = .dir
    · obtain ⟨ll', h', xs', hrun, ho', hle⟩ := ho.remove key path hfuel
      refine ⟨ll', h', lost, xs', ?_, ?_, rfl, by omega⟩
      · simp [DirentCall.cells, pentryRemoveDirentCells, hdir, hrun, bind, Except.bind]
      · simpa [DirentCall.entry, pentryRemoveDirent, hdir] using ho'
    · refine ⟨ll, h, lost, xs, ?_, ?_, rfl, Nat.le_succ _⟩
      · simp [DirentCall.cells, pentryRemoveDirentCells, hdir, bind, Except.bind]
      · simpa [DirentCall.entry, pentryRemoveDirent, hdir] using ho

theorem Owned.calls (calls : List DirentCall) : ∀ {h : ListHeap CStr} {ll : Option Ref} {pe : Entry}
    {lost : List Ref} {xs : Cells} (fuel : Nat), Owned h ll pe.dirent lost xs →
      xs.length + calls.length < fuel → ∃ ll' h' lost' xs',
        calls.foldlM (DirentCall.cells fuel) (ll, h) = .ok (ll', h') ∧
        Owned h' ll' (calls.foldl DirentCall.entry pe).dirent lost' xs' ∧
        lost'.length = lost.length + calls.countP DirentCall.loses ∧
        xs'.length ≤ xs.length + calls.length := by
  induction calls with
  | nil =>
    intro h ll pe lost xs fuel ho _
    exact ⟨ll, h, lost, xs, rfl, ho, rfl, le_rfl⟩
  | cons c calls ih =>
    intro h ll pe lost xs fuel ho hfuel
    rw [List.length_cons] at hfuel
    have hroom : xs.length < fuel := by omega
    obtain ⟨ll1, h1, lost1, xs1, hrun1, ho1, hlost1, hlen1⟩ := ho.call c hroom
    obtain ⟨ll', h', lost', xs', hrun, ho', hlost, hlen⟩ := ih fuel ho1 (by omega)
    refine ⟨ll', h', lost', xs', ?_, ho', ?_, ?_⟩
    · rw [List.foldlM_cons, hrun1]
      exact hrun
    · have hsplit : (c :: calls).countP DirentCall.loses =
          [c].countP DirentCall.loses + calls.countP DirentCall.loses := by
        rw [← List.countP_append]
        rfl
      omega
    · rw [List.length_cons]
      omega

/-- The memory of a directory's list over any run of its callbacks: no cell or block is used after
it was freed or freed twice, the cells hold just the paths that the entry of the table has, in their
order, and `list_free` leaves no cell and no block but the copies that got no cell. -/
theorem dirents_owned (calls : List DirentCall) (pe : Entry) (hpe : pe.dirent = []) (fuel : Nat)
    (hfuel : calls.length < fuel) : ∃ (ll : Option Ref) (h : ListHeap CStr) (lost : List Ref),
      calls.foldlM (DirentCall.cells fuel) (none, ⟨Store.empty, Store.empty⟩) = .ok (ll, h) ∧
      (∃ refs, listMap (fun refs data => refs ++ [data]) fuel ll [] h = .ok refs ∧
        refs.map h.blocks.cell = (calls.foldl DirentCall.entry pe).dirent.map some) ∧
      listLength fuel ll h = .ok (calls.foldl DirentCall.entry pe).dirent.length ∧
      listNbCells fuel ll h = .ok (calls.foldl DirentCall.entry pe).dirent.length ∧
      lost.Nodup ∧ lost.length = calls.countP DirentCall.loses ∧
      ∃ h', listFree fuel ll h = .ok h' ∧ (∀ r, h'.cells.cell r = none) ∧
        ∀ b, h'.blocks.cell b ≠ none ↔ b ∈ lost := by
  have hstart : Owned ⟨Store.empty, Store.empty⟩ none pe.dirent [] [] := by
    rw [hpe]
    exact .start
  obtain ⟨ll, h, lost, xs, hrun, ho, hlost, hlen⟩ := Owned.calls calls fuel hstart
    (by rw [List.length_nil]; omega)
  rw [List.length_nil] at hlost hlen
  have hxs : xs.length < fuel := by omega
  obtain ⟨h', hfree, hfreed⟩ := listFree_freed xs fuel h ll hxs ho.linked.walk
  refine ⟨ll, h, lost, hrun, ?_, ?_, ?_, ho.distinct, by omega, h', hfree, ?_, ?_⟩
  · refine ⟨_, walkCells_foldl _ xs fuel ll [] hxs ho.linked.linked, ?_⟩
    rw [foldl_data, List.nil_append, ho.data]
  · rw [listLength, walkCells_foldl _ xs fuel ll 0 hxs ho.linked.linked, foldl_count, ho.length,
      Nat.zero_add]
  · have hdata := congrArg List.length ho.data
    rw [List.length_map, List.length_map] at hdata
    rw [listNbCells, walkCells_foldl _ xs fuel ll 0 hxs ho.linked.linked, foldl_filled, hdata,
      Nat.zero_add]
  · intro r
    rw [hfreed.cells r List.not_mem_nil]
    split_ifs with hr
    · rfl
    · by_contra hlive
      exact hr (ho.cells r hlive)
  · intro b
    have hmem : some b ∈ xs.map (·.2.data) ↔ b ∈ xs.filterMap (·.2.data) := by
      rw [List.mem_map, List.mem_filterMap]
    rw [hfreed.blocks b]
    constructor
    · intro hb
      split_ifs at hb with hm
      · exact (hb rfl).elim
      · exact (ho.blocks b hb).resolve_left fun hd => hm (hmem.mpr hd)
    · intro hb
      obtain ⟨hlive, hno⟩ := ho.astray b hb
      rwa [if_neg fun hm => hno (hmem.mp hm)]

/-- Two paths are added, one of them without a cell, and the other is removed. -/
def direntCalls : List DirentCall :=
  [.add true true (0, 0) ['/', 'a'], .add true false (0, 0) ['/', 'b'], .remove .dir 7 ['/', 'a']]

theorem dirents_owned_sample : ∃ (ll : Option Ref) (h : ListHeap CStr) (lost : List Ref),
    direntCalls.foldlM (DirentCall.cells 4) (none, ⟨Store.empty, Store.empty⟩) = .ok (ll, h) ∧
    (∃ refs, listMap (fun refs data => refs ++ [data]) 4 ll [] h = .ok refs ∧
      refs.map h.blocks.cell =
        (direntCalls.foldl DirentCall.entry (pentryNew Env.quiet ['/'] .reg)).dirent.map some) ∧
    listLength 4 ll h =
      .ok (direntCalls.foldl DirentCall.entry (pentryNew Env.quiet ['/'] .reg)).dirent.length ∧
    listNbCells 4 ll h =
      .ok (direntCalls.foldl DirentCall.entry (pentryNew Env.quiet ['/'] .reg)).dirent.length ∧
    lost.Nodup ∧ lost.length = direntCalls.countP DirentCall.loses ∧
    ∃ h', listFree 4 ll h = .ok h' ∧ (∀ r, h'.cells.cell r = none) ∧
      ∀ b, h'.blocks.cell b ≠ none ↔ b ∈ lost :=
  dirents_owned direntCalls (pentryNew Env.quiet ['/'] .reg) rfl 4 (by decide)

end Runs

end DropletFs
