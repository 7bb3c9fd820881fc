import DropletFs.Framework.Fault
import DropletFs.Model.CellList

/-! Removal from cell lists. A loop has a kept part behind it and a rest before it; each step keeps
the next cell, or unlinks and frees it. -/

namespace DropletFs

open RefStore

abbrev Cells := List (Ref × CellData)

variable {β : Type}

/-- A list in memory: its cells are distinct, and so are the blocks of their data. -/
structure WellLinked (h : ListHeap β) (ll : Option Ref) (xs : Cells) : Prop where
  linked : Segment h.cells.cell ll xs none
  distinct : (xs.map Prod.fst).Nodup
  live : ∀ e ∈ xs, ∀ b, e.2.data = some b → h.blocks.cell b ≠ none
  blocks : (xs.filterMap (·.2.data)).Nodup

/-- Cells freed with their data. Of the others only the `next` of some has changed. -/
structure Freed (h h' : ListHeap β) (gone : Cells) (touched : List Ref) : Prop where
  cells : ∀ r, r ∉ touched →
    h'.cells.cell r = if r ∈ gone.map Prod.fst then none else h.cells.cell r
  blocks : ∀ b, h'.blocks.cell b =
    if some b ∈ gone.map (·.2.data) then none else h.blocks.cell b

/-- The loop of a removal: the cells kept so far, and the rest. -/
structure Walk (h : ListHeap β) (orig ll : Option Ref) (kept rest : Cells) : Prop where
  seg : Segment h.cells.cell orig kept ll
  tail : Segment h.cells.cell ll rest none
  nodup : ((kept ++ rest).map Prod.fst).Nodup
  live : ∀ e ∈ rest, ∀ b, e.2.data = some b → h.blocks.cell b ≠ none
  blocks : (rest.filterMap (·.2.data)).Nodup

section Heap

variable {h h' h'' : ListHeap β} {r : Ref} {a : CellData} {n m : Option Ref} {gone gone' : Cells}
  {touched : List Ref}

theorem Freed.refl (h : ListHeap β) (touched : List Ref) : Freed h h [] touched :=
  ⟨fun _ _ => rfl, fun _ => rfl⟩

theorem Freed.trans (h1 : Freed h h' gone touched) (h2 : Freed h' h'' gone' touched) :
    Freed h h'' (gone ++ gone') touched where
  cells r hr := by
    rw [h2.cells r hr, h1.cells r hr]
    simp only [List.map_append, List.mem_append]
    by_cases hg : r ∈ gone.map Prod.fst
    · simp only [hg, true_or, if_true, ite_self]
    · simp only [hg, false_or, if_false]
  blocks b := by
    rw [h2.blocks b, h1.blocks b]
    simp only [List.map_append, List.mem_append]
    by_cases hg : some b ∈ gone.map (·.2.data)
    · simp only [hg, true_or, if_true, ite_self]
    · simp only [hg, false_or, if_false]

theorem freeCell_ok (hr : h.cells.cell r = some ⟨a, n⟩)
    (hlive : ∀ b, a.data = some b → h.blocks.cell b ≠ none) :
    ∃ h', h.freeCell r = .ok h' ∧ h'.cells.cell = Function.update h.cells.cell r none ∧
      ∀ b, h'.blocks.cell b = if a.data = some b then none else h.blocks.cell b := by
  obtain ⟨cells, hcells, hc, _⟩ := Store.free_live hr
  cases hdata : a.data with
  | none =>
    refine ⟨⟨cells, h.blocks⟩, ?_, hc, fun b => by simp⟩
    simp [ListHeap.freeCell, Store.read_live hr, hdata, Store.freeOpt, hcells, bind, Except.bind]
  | some d =>
    obtain ⟨v, hv⟩ := Option.ne_none_iff_exists'.mp (hlive d hdata)
    obtain ⟨blocks, hblocks, hb, _⟩ := Store.free_live hv
    refine ⟨⟨cells, blocks⟩, ?_, hc, fun b => ?_⟩
    · simp [ListHeap.freeCell, Store.read_live hr, hdata, Store.freeOpt, hblocks, hcells, bind,
        Except.bind]
    · rw [hb, Function.update_apply]
      simp [eq_comm]

theorem setNext_ok (hr : h.cells.cell r = some ⟨a, n⟩) (m : Option Ref) :
    ∃ h', h.setNext r m = .ok h' ∧
      h'.cells.cell = Function.update h.cells.cell r (some ⟨a, m⟩) ∧ h'.blocks = h.blocks := by
  obtain ⟨cells, hcells, hc⟩ := Store.write_live (a := (⟨a, m⟩ : Node CellData)) hr
  refine ⟨⟨cells, h.blocks⟩, ?_, hc, rfl⟩
  simp [ListHeap.setNext, Store.read_live hr, hcells, bind, Except.bind]

theorem setNext_freed (hr : h.cells.cell r = none) (m : Option Ref) :
    h.setNext r m = .error .freed := by
  simp [ListHeap.setNext, Store.read_freed hr, bind, Except.bind]

end Heap

section Walk

variable {h h' : ListHeap β} {orig ll n : Option Ref} {kept k rest : Cells} {r q : Ref}
  {a b : CellData} {touched : List Ref}

theorem WellLinked.walk (hw : WellLinked h ll rest) : Walk h ll ll [] rest :=
  ⟨rfl, hw.linked, hw.distinct, hw.live, hw.blocks⟩

/-- The next cell is live. -/
theorem Walk.next (hw : Walk h orig ll kept ((r, a) :: rest)) :
    ll = some r ∧ ∃ n, h.cells.cell r = some ⟨a, n⟩ ∧ Segment h.cells.cell n rest none :=
  hw.tail

/-- The next cell is kept. -/
theorem Walk.keep (hw : Walk h orig ll kept ((r, a) :: rest)) (hr : h.cells.cell r = some ⟨a, n⟩) :
    Walk h orig n (kept ++ [(r, a)]) rest := by
  obtain ⟨hll, m, hm, htail⟩ := hw.tail
  have hnm : m = n := by
    rw [hr] at hm
    exact (congrArg Node.next (Option.some.inj hm)).symm
  subst hnm
  refine ⟨?_, htail, by simpa using hw.nodup,
    fun e he => hw.live e (List.mem_cons_of_mem _ he), ?_⟩
  · apply Segment.append_iff.mpr
    exact ⟨ll, hw.seg, hll, m, hr, rfl⟩
  · have hb := hw.blocks
    rw [List.filterMap_cons] at hb
    split at hb
    · exact hb
    · exact (List.nodup_cons.mp hb).2

/-- What is left of the rest when the next cell is freed. -/
theorem Walk.rest_live (hw : Walk h orig ll kept ((r, a) :: rest))
    (hb : ∀ x, h'.blocks.cell x = if a.data = some x then none else h.blocks.cell x) :
    (∀ e ∈ rest, ∀ x, e.2.data = some x → h'.blocks.cell x ≠ none) ∧
      (rest.filterMap (·.2.data)).Nodup := by
  have hnd := hw.blocks
  rw [List.filterMap_cons] at hnd
  constructor
  · intro e he x hx
    rw [hb x, if_neg ?_]
    · exact hw.live e (List.mem_cons_of_mem _ he) x hx
    · intro hax
      simp only [hax] at hnd
      exact (List.nodup_cons.mp hnd).1 (List.mem_filterMap.mpr ⟨e, he, hx⟩)
  · split at hnd
    · exact hnd
    · exact (List.nodup_cons.mp hnd).2

/-- The first cell is freed. -/
theorem Walk.drop_first (hw : Walk h orig ll [] ((r, a) :: rest))
    (hr : h.cells.cell r = some ⟨a, n⟩) (hc : h'.cells.cell = Function.update h.cells.cell r none)
    (hb : ∀ x, h'.blocks.cell x = if a.data = some x then none else h.blocks.cell x) :
    Walk h' n n [] rest := by
  obtain ⟨hlive, hblocks⟩ := hw.rest_live hb
  obtain ⟨hr', hnd⟩ := List.nodup_cons.mp hw.nodup
  obtain ⟨_, m, hm, htail⟩ := hw.tail
  have hnm : m = n := by
    rw [hr] at hm
    exact (congrArg Node.next (Option.some.inj hm)).symm
  subst hnm
  refine ⟨rfl, htail.congr fun e he => ?_, hnd, hlive, hblocks⟩
  have hmem : e.1 ∈ rest.map Prod.fst := List.mem_map_of_mem he
  rw [hc, Function.update_of_ne]
  intro heq
  exact hr' (heq ▸ hmem)

/-- The next cell is freed, and the last one kept linked to what follows. -/
theorem Walk.unlink (hw : Walk h orig ll (k ++ [(q, b)]) ((r, a) :: rest))
    (hr : h.cells.cell r = some ⟨a, n⟩)
    (hc : h'.cells.cell =
      Function.update (Function.update h.cells.cell r none) q (some ⟨b, n⟩))
    (hb : ∀ x, h'.blocks.cell x = if a.data = some x then none else h.blocks.cell x) :
    Walk h' orig n (k ++ [(q, b)]) rest := by
  obtain ⟨hlive, hblocks⟩ := hw.rest_live hb
  have hnd := hw.nodup
  rw [List.map_append, List.nodup_append] at hnd
  obtain ⟨hkept, hrest, hapart⟩ := hnd
  obtain ⟨hr', hrest'⟩ := List.nodup_cons.mp hrest
  obtain ⟨_, m, hm, htail⟩ := hw.tail
  have hnm : m = n := by
    rw [hr] at hm
    exact (congrArg Node.next (Option.some.inj hm)).symm
  subst hnm
  have hq : q ∈ (k ++ [(q, b)]).map Prod.fst := by simp
  refine ⟨?_, htail.congr fun e he => ?_, ?_, hlive, hblocks⟩
  · rw [hc]
    apply Segment.relink (q := ll) _ hkept
    apply hw.seg.congr
    intro e he
    rw [Function.update_of_ne]
    exact hapart e.1 (List.mem_map_of_mem he) r (by simp)
  · have hmem : e.1 ∈ rest.map Prod.fst := List.mem_map_of_mem he
    rw [hc, Function.update_of_ne, Function.update_of_ne]
    · intro heq
      exact hr' (heq ▸ hmem)
    · exact fun heq => hapart q hq e.1 (List.mem_cons_of_mem _ hmem) heq.symm
  · rw [List.map_append, List.nodup_append]
    exact ⟨hkept, hrest', fun x hx y hy => hapart x hx y (List.mem_cons_of_mem _ hy)⟩

/-- The last cell kept is live, and not the next one. -/
theorem Walk.last (hw : Walk h orig ll (k ++ [(q, b)]) ((r, a) :: rest)) :
    ∃ m, h.cells.cell q = some ⟨b, m⟩ ∧ q ≠ r := by
  obtain ⟨m, hm⟩ := hw.seg.live (e := (q, b)) (by simp)
  refine ⟨m, hm, ?_⟩
  have hnd := hw.nodup
  rw [List.map_append, List.nodup_append] at hnd
  exact hnd.2.2 q (by simp) r (by simp)

/-- A list that starts with a kept cell does not start with the next one. -/
theorem Walk.orig_ne (hw : Walk h orig ll kept ((r, a) :: rest)) (hk : kept ≠ []) :
    orig ≠ some r := by
  obtain ⟨⟨q, b⟩, kept, rfl⟩ := List.exists_cons_of_ne_nil hk
  obtain ⟨horig, _⟩ := hw.seg
  have hnd := hw.nodup
  rw [List.map_append, List.nodup_append] at hnd
  rw [horig]
  intro he
  exact hnd.2.2 q (by simp) r (by simp) (Option.some.inj he)

theorem freed_first (hc : h'.cells.cell = Function.update h.cells.cell r none)
    (hb : ∀ x, h'.blocks.cell x = if a.data = some x then none else h.blocks.cell x) :
    Freed h h' [(r, a)] touched where
  cells x _ := by
    rw [hc, Function.update_apply]
    simp
  blocks x := by
    rw [hb x]
    simp [eq_comm]

theorem freed_unlink (hq : q ∈ touched)
    (hc : h'.cells.cell =
      Function.update (Function.update h.cells.cell r none) q (some ⟨b, n⟩))
    (hb : ∀ x, h'.blocks.cell x = if a.data = some x then none else h.blocks.cell x) :
    Freed h h' [(r, a)] touched where
  cells x hx := by
    have hxq : x ≠ q := by
      rintro rfl
      exact hx hq
    rw [hc, Function.update_of_ne hxq, Function.update_apply]
    simp
  blocks x := by
    rw [hb x]
    simp [eq_comm]

end Walk

/-- What a removal leaves: a list of some cells, and the others freed with their data. -/
structure Pruned (h h' : ListHeap β) (ll' : Option Ref) (left gone : Cells) : Prop where
  linked : Segment h'.cells.cell ll' left none
  freed : Freed h h' gone (left.map Prod.fst)

section RemoveAll

variable {h : ListHeap β} {orig ll : Option Ref} {kept rest : Cells} {touched : List Ref}

/-- Where the trailing pointer of `list_remove_all` points: to the list when nothing is kept yet,
and otherwise to the last cell kept. -/
def Trails (orig prev : Option Ref) (kept : Cells) : Prop :=
  kept = [] ∧ prev = orig ∨ ∃ k q b, kept = k ++ [(q, b)] ∧ prev = some q

theorem listRemoveAllLoop_pruned (fn : Ref → Option Ref → Bool) (data : Ref) (rest : Cells) :
    ∀ (fuel : Nat) (h : ListHeap β) (orig prev ll : Option Ref) (kept : Cells),
      rest.length < fuel → Walk h orig ll kept rest → Trails orig prev kept →
      ∃ orig' h', listRemoveAllLoop fn data fuel orig prev ll h = .ok (orig', h') ∧
        Pruned h h' orig' (kept ++ rest.filter fun e => !fn data e.2.data)
          (rest.filter fun e => fn data e.2.data) := by
  induction rest with
  | nil =>
    intro fuel h orig prev ll kept hfuel hw _
    obtain ⟨fuel, rfl⟩ : ∃ k, fuel = k + 1 := ⟨fuel - 1, by simp at hfuel; omega⟩
    have hnil : ll = none := hw.tail
    subst hnil
    refine ⟨orig, h, rfl, ?_, .refl h _⟩
    simpa using hw.seg
  | cons e rest ih =>
    intro fuel h orig prev ll kept hfuel hw ht
    obtain ⟨fuel, rfl⟩ : ∃ k, fuel = k + 1 := ⟨fuel - 1, by omega⟩
    obtain ⟨r, a⟩ := e
    rw [List.length_cons] at hfuel
    obtain ⟨rfl, n, hr, _⟩ := hw.next
    cases hmatch : fn data a.data with
    | false =>
      obtain ⟨orig', h', hrun, ⟨hseg, hfreed⟩⟩ := ih fuel h orig (some r) n (kept ++ [(r, a)])
        (by omega) (hw.keep hr) (.inr ⟨kept, r, a, rfl, rfl⟩)
      refine ⟨orig', h', ?_, ?_, ?_⟩
      · simp [listRemoveAllLoop, Store.read_live hr, hmatch, hrun, bind, Except.bind]
      · simpa [List.filter_cons, hmatch] using hseg
      · simpa [List.filter_cons, hmatch] using hfreed
    | true =>
      have hlive := hw.live (r, a) (List.mem_cons_self ..)
      obtain ⟨h1, hfree, hc, hb⟩ := freeCell_ok hr hlive
      rcases ht with ⟨rfl, rfl⟩ | ⟨k, q, b, rfl, rfl⟩
      · have horig : prev = some r := hw.seg
        subst horig
        obtain ⟨orig', h', hrun, ⟨hseg, hfreed⟩⟩ := ih fuel h1 n n n [] (by omega)
          (hw.drop_first hr hc hb) (.inl ⟨rfl, rfl⟩)
        refine ⟨orig', h', ?_, ?_, ?_⟩
        · simp [listRemoveAllLoop, Store.read_live hr, hmatch, hfree, hrun, bind, Except.bind]
        · simpa [List.filter_cons, hmatch] using hseg
        · have hboth := (freed_first hc hb).trans hfreed
          simpa [List.filter_cons, hmatch] using hboth
      · obtain ⟨m, hq, hqr⟩ := hw.last
        have hq1 : h1.cells.cell q = some ⟨b, m⟩ := by
          rw [hc, Function.update_of_ne hqr, hq]
        obtain ⟨h2, hset, hc2, hb2⟩ := setNext_ok hq1 n
        rw [hc] at hc2
        rw [← hb2] at hb
        obtain ⟨orig', h', hrun, ⟨hseg, hfreed⟩⟩ := ih fuel h2 orig (some q) n (k ++ [(q, b)])
          (by omega) (hw.unlink hr hc2 hb) (.inr ⟨k, q, b, rfl, rfl⟩)
        refine ⟨orig', h', ?_, ?_, ?_⟩
        · simp [listRemoveAllLoop, Store.read_live hr, hmatch, hw.orig_ne (by simp), hfree, nonNull,
            hset, hrun, bind, Except.bind]
        · simpa [List.filter_cons, hmatch] using hseg
        · have hboth := (freed_unlink (by simp) hc2 hb).trans hfreed
          simpa [List.filter_cons, hmatch] using hboth

/-- `list_remove` keeps cells up to the first match, and unlinks it. -/
theorem listRemoveLoop_pruned (fn : Ref → Option Ref → Bool) (data orig : Ref) (rest : Cells) :
    ∀ (fuel : Nat) (h : ListHeap β) (prev : Ref) (ll : Option Ref) (kept : Cells),
      rest.length < fuel → Walk h (some orig) ll kept rest →
      Trails (some orig) (some prev) kept →
      ∃ ll' h', listRemoveLoop fn data orig fuel prev ll h = .ok (ll', h') ∧
        Pruned h h' ll' (kept ++ rest.eraseP fun e => fn data e.2.data)
          (rest.find? fun e => fn data e.2.data).toList := by
  induction rest with
  | nil =>
    intro fuel h prev ll kept hfuel hw _
    obtain ⟨fuel, rfl⟩ : ∃ k, fuel = k + 1 := ⟨fuel - 1, by simp at hfuel; omega⟩
    have hnil : ll = none := hw.tail
    subst hnil
    refine ⟨some orig, h, rfl, ?_, .refl h _⟩
    simpa using hw.seg
  | cons e rest ih =>
    intro fuel h prev ll kept hfuel hw ht
    obtain ⟨fuel, rfl⟩ : ∃ k, fuel = k + 1 := ⟨fuel - 1, by omega⟩
    obtain ⟨r, a⟩ := e
    rw [List.length_cons] at hfuel
    obtain ⟨rfl, n, hr, _⟩ := hw.next
    cases hmatch : fn data a.data with
    | false =>
      obtain ⟨ll', h', hrun, ⟨hseg, hfreed⟩⟩ := ih fuel h r n (kept ++ [(r, a)]) (by omega)
        (hw.keep hr) (.inr ⟨kept, r, a, rfl, rfl⟩)
      refine ⟨ll', h', ?_, ?_, ?_⟩
      · simp [listRemoveLoop, Store.read_live hr, hmatch, hrun, bind, Except.bind]
      · simpa [List.eraseP_cons, hmatch] using hseg
      · simpa [List.eraseP_cons, List.find?_cons, hmatch] using hfreed
    | true =>
      have hlive := hw.live (r, a) (List.mem_cons_self ..)
      rcases ht with ⟨rfl, hprev⟩ | ⟨k, q, b, rfl, hprev⟩
      · have horig : r = orig := (Option.some.inj hw.seg).symm
        subst horig
        obtain ⟨h1, hfree, hc, hb⟩ := freeCell_ok hr hlive
        refine ⟨n, h1, ?_, ?_, ?_⟩
        · simp [listRemoveLoop, Store.read_live hr, hmatch, hfree, bind, Except.bind]
        · simpa [List.eraseP_cons, hmatch] using (hw.drop_first hr hc hb).tail
        · simpa [List.eraseP_cons, List.find?_cons, hmatch] using freed_first hc hb
      · obtain rfl := Option.some.inj hprev
        obtain ⟨m, hq, hqr⟩ := hw.last
        have hne : r ≠ orig := fun he => hw.orig_ne (by simp) (congrArg some he.symm)
        obtain ⟨h1, hset, hc1, hb1⟩ := setNext_ok hq n
        have hr1 : h1.cells.cell r = some ⟨a, n⟩ := by
          rw [hc1, Function.update_of_ne (Ne.symm hqr), hr]
        rw [← hb1] at hlive
        obtain ⟨h2, hfree, hc2, hb2⟩ := freeCell_ok hr1 hlive
        rw [hc1, Function.update_comm hqr] at hc2
        rw [hb1] at hb2
        have hnext := hw.unlink hr hc2 hb2
        refine ⟨some orig, h2, ?_, ?_, ?_⟩
        · simp [listRemoveLoop, Store.read_live hr, hmatch, hne, hset, hfree, bind, Except.bind]
        · rw [List.eraseP_cons_of_pos (by simpa using hmatch)]
          apply Segment.append_iff.mpr
          exact ⟨n, hnext.seg, hnext.tail⟩
        · have hone : Freed h h2 [(r, a)] ((k ++ [(prev, b)] ++ rest).map Prod.fst) :=
            freed_unlink (by simp) hc2 hb2
          simpa [List.eraseP_cons, List.find?_cons, hmatch] using hone

end RemoveAll

/-- What a removal from a list must leave: the cells and blocks of what is gone are dead, those left
form a list with their data, and everything else is as it was. -/
structure Removed (h h' : ListHeap β) (ll' : Option Ref) (xs left gone : Cells) : Prop where
  linked : WellLinked h' ll' left
  cells : ∀ e ∈ gone, h'.cells.cell e.1 = none
  blocks : ∀ e ∈ gone, ∀ b, e.2.data = some b → h'.blocks.cell b = none
  otherCells : ∀ r, r ∉ xs.map Prod.fst → h'.cells.cell r = h.cells.cell r
  otherBlocks : ∀ b, some b ∉ gone.map (·.2.data) → h'.blocks.cell b = h.blocks.cell b

/-- Parts of a list with distinct cells and blocks. -/
theorem Pruned.removed {h h' : ListHeap β} {ll ll' : Option Ref} {xs left gone : Cells}
    (hp : Pruned h h' ll' left gone) (hw : WellLinked h ll xs) (hparts : xs.Perm (left ++ gone))
    (hleft : left.Sublist xs) : Removed h h' ll' xs left gone := by
  have hrefs : ((left ++ gone).map Prod.fst).Nodup := (hparts.map Prod.fst).nodup_iff.mp hw.distinct
  have hdatas : ((left ++ gone).filterMap (·.2.data)).Nodup :=
    (hparts.filterMap (·.2.data)).nodup_iff.mp hw.blocks
  rw [List.map_append, List.nodup_append] at hrefs
  rw [List.filterMap_append, List.nodup_append] at hdatas
  obtain ⟨hleftRefs, _, hapart⟩ := hrefs
  obtain ⟨hleftDatas, _, hapartDatas⟩ := hdatas
  refine ⟨⟨hp.linked, hleftRefs, ?_, hleftDatas⟩, ?_, ?_, ?_, ?_⟩
  · intro e he b hb
    rw [hp.freed.blocks b, if_neg ?_]
    · exact hw.live e (hleft.subset he) b hb
    · intro hm
      obtain ⟨e', he', hb'⟩ := List.mem_map.mp hm
      exact hapartDatas b (List.mem_filterMap.mpr ⟨e, he, hb⟩) b
        (List.mem_filterMap.mpr ⟨e', he', hb'⟩) rfl
  · intro e he
    have hm : e.1 ∈ gone.map Prod.fst := List.mem_map_of_mem he
    rw [hp.freed.cells e.1 fun hl => hapart e.1 hl e.1 hm rfl, if_pos hm]
  · intro e he b hb
    rw [hp.freed.blocks b, if_pos (List.mem_map.mpr ⟨e, he, hb⟩)]
  · intro r hr
    have hboth : r ∉ (left ++ gone).map Prod.fst := fun hm =>
      hr ((hparts.map Prod.fst).mem_iff.mpr hm)
    rw [List.map_append, List.mem_append, not_or] at hboth
    rw [hp.freed.cells r hboth.1, if_neg hboth.2]
  · intro b hb
    rw [hp.freed.blocks b, if_neg hb]

theorem perm_eraseP {α : Type} (p : α → Bool) (xs : List α) :
    xs.Perm (xs.eraseP p ++ (xs.find? p).toList) := by
  induction xs with
  | nil => exact .refl _
  | cons x xs ih =>
    cases hp : p x with
    | true =>
      rw [List.eraseP_cons_of_pos hp, List.find?_cons_of_pos hp]
      show ([x] ++ xs).Perm (xs ++ [x])
      exact List.perm_append_comm
    | false =>
      rw [List.eraseP_cons_of_neg (by simp [hp]), List.find?_cons_of_neg (by simp [hp])]
      exact ih.cons x

/-- A list that `list_add` makes longer, by a block that it does not have yet. -/
theorem WellLinked.add {h : ListHeap β} {ll data : Option Ref} {xs : Cells}
    (hw : WellLinked h ll xs) (tv : Int × Int)
    (hdata : ∀ b, data = some b → h.blocks.cell b ≠ none ∧ b ∉ xs.filterMap (·.2.data)) :
    WellLinked (listAdd tv ll data h).2 (listAdd tv ll data h).1
      ((h.cells.next, ⟨tv, data⟩) :: xs) := by
  have hfresh : h.cells.next ∉ xs.map Prod.fst := by
    intro hm
    obtain ⟨e, he, heq⟩ := List.mem_map.mp hm
    obtain ⟨n, hn⟩ := hw.linked.live he
    have hlt := Store.lt_next hn
    exact Nat.ne_of_lt hlt heq
  refine ⟨⟨rfl, ll, Store.alloc_cell .., hw.linked.congr fun e he => ?_⟩,
    List.nodup_cons.mpr ⟨hfresh, hw.distinct⟩, ?_, ?_⟩
  · apply Store.alloc_ne
    intro heq
    have hnext : e.1 = h.cells.next := heq
    apply hfresh
    rw [← hnext]
    exact List.mem_map_of_mem he
  · intro e he b hb
    cases he with
    | head => exact (hdata b hb).1
    | tail _ he => exact hw.live e he b hb
  · rw [List.filterMap_cons]
    cases data with
    | none => exact hw.blocks
    | some b => exact List.nodup_cons.mpr ⟨(hdata b rfl).2, hw.blocks⟩

theorem WellLinked.eq_nil {h : ListHeap β} {xs : Cells} (hw : WellLinked h none xs) : xs = [] := by
  cases xs with
  | nil => rfl
  | cons e xs => cases hw.linked.1

theorem WellLinked.nil (h : ListHeap β) : WellLinked h none [] :=
  ⟨rfl, List.nodup_nil, fun _ he => (nomatch he), List.nodup_nil⟩

namespace Sample

/-- Two blocks, and a cell with the first one as its data. -/
def oneCell : Option Ref × ListHeap Unit :=
  listAdd (0, 0) none (some 0) ⟨Store.empty, ((Store.empty.alloc ()).2.alloc ()).2⟩

def twoCells : Option Ref × ListHeap Unit := listAdd (0, 0) oneCell.1 (some 1) oneCell.2

theorem twoCells_linked :
    WellLinked twoCells.2 twoCells.1 [(1, ⟨(0, 0), some 1⟩), (0, ⟨(0, 0), some 0⟩)] := by
  have hone : WellLinked oneCell.2 oneCell.1 [(0, ⟨(0, 0), some 0⟩)] := by
    apply (WellLinked.nil _).add
    intro b hb
    cases hb
    exact ⟨by decide, by decide⟩
  apply hone.add
  intro b hb
  cases hb
  exact ⟨by decide, by decide⟩

end Sample

/-- `list_remove` takes the first match out of a list, and `list_remove_all` all of them. -/
theorem cells_removed (fn : Ref → Option Ref → Bool) (data : Ref) (h : ListHeap β)
    (ll : Option Ref) (xs : Cells) (hw : WellLinked h ll xs) (fuel : Nat)
    (hfuel : xs.length < fuel) :
    (∃ ll' h', listRemove fn fuel ll (some data) h = .ok (ll', h') ∧
      Removed h h' ll' xs (xs.eraseP fun e => fn data e.2.data)
        (xs.find? fun e => fn data e.2.data).toList) ∧
    ∃ ll' h', listRemoveAll fn fuel ll (some data) h = .ok (ll', h') ∧
      Removed h h' ll' xs (xs.filter fun e => !fn data e.2.data)
        (xs.filter fun e => fn data e.2.data) := by
  have hone := perm_eraseP (fun e : Ref × CellData => fn data e.2.data) xs
  have hall : xs.Perm ((xs.filter fun e => !fn data e.2.data) ++
      xs.filter fun e => fn data e.2.data) :=
    ((List.filter_append_perm _ xs).symm.trans List.perm_append_comm)
  cases ll with
  | none =>
    obtain rfl := hw.eq_nil
    have hnone : Pruned h h none [] [] := ⟨rfl, .refl h _⟩
    exact ⟨⟨none, h, rfl, hnone.removed hw (.refl _) (.refl _)⟩,
      none, h, rfl, hnone.removed hw (.refl _) (.refl _)⟩
  | some ll =>
    constructor
    · obtain ⟨ll', h', hrun, hp⟩ := listRemoveLoop_pruned fn data ll xs fuel h ll (some ll) []
        hfuel hw.walk (.inl ⟨rfl, rfl⟩)
      exact ⟨ll', h', hrun, hp.removed hw hone List.eraseP_sublist⟩
    · obtain ⟨ll', h', hrun, hp⟩ := listRemoveAllLoop_pruned fn data xs fuel h (some ll) (some ll)
        (some ll) [] hfuel hw.walk (.inl ⟨rfl, rfl⟩)
      exact ⟨ll', h', hrun, hp.removed hw hall List.filter_sublist⟩

/-- A match at the head. -/
theorem cells_removed_sample :
    (∃ ll' h', listRemove (fun _ d => d == some 1) 3 Sample.twoCells.1 (some 7) Sample.twoCells.2 =
        .ok (ll', h') ∧
      Removed Sample.twoCells.2 h' ll' [(1, ⟨(0, 0), some 1⟩), (0, ⟨(0, 0), some 0⟩)]
        [(0, ⟨(0, 0), some 0⟩)] [(1, ⟨(0, 0), some 1⟩)]) ∧
    ∃ ll' h', listRemoveAll (fun _ d => d == some 1) 3 Sample.twoCells.1 (some 7)
        Sample.twoCells.2 = .ok (ll', h') ∧
      Removed Sample.twoCells.2 h' ll' [(1, ⟨(0, 0), some 1⟩), (0, ⟨(0, 0), some 0⟩)]
        [(0, ⟨(0, 0), some 0⟩)] [(1, ⟨(0, 0), some 1⟩)] :=
  cells_removed (fun _ d => d == some 1) 7 Sample.twoCells.2 Sample.twoCells.1 _
    Sample.twoCells_linked 3 (by decide)

end DropletFs
