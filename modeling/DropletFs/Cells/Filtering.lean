import DropletFs.Cells.Removal

/-! `__filter`. It links through `prev` before it frees a cell, and `prev` still points to the first
cell after that one was freed. -/

namespace DropletFs

open RefStore

variable {β : Type}

/-- The cells that a filter with the predicate `drop` takes out. -/
def drops (drop : Ref → Bool) (e : Ref × CellData) : Bool := e.2.data.all drop

section Loop

variable {h h' : ListHeap β} {orig ll n : Option Ref} {k rest : Cells} {r q : Ref}
  {a b : CellData}

/-- With a cell kept behind it the loop takes out all that it should. -/
theorem filterLoop_pruned (drop : Ref → Bool) (rest : Cells) :
    ∀ (fuel : Nat) (h : ListHeap β) (orig ll : Option Ref) (k : Cells) (q : Ref) (b : CellData),
      rest.length < fuel → Walk h orig ll (k ++ [(q, b)]) rest →
      ∃ orig' h', filterLoop drop fuel orig q ll h = .ok (orig', h') ∧
        Pruned h h' orig' (k ++ [(q, b)] ++ rest.filter fun e => !drops drop e)
          (rest.filter fun e => drops drop e) := by
  induction rest with
  | nil =>
    intro fuel h orig ll k q b hfuel hw
    obtain ⟨fuel, rfl⟩ : ∃ n, fuel = n + 1 := ⟨fuel - 1, by simp at hfuel; omega⟩
    have hnil : ll = none := hw.tail
    subst hnil
    refine ⟨orig, h, rfl, ?_, .refl h _⟩
    simpa using hw.seg
  | cons e rest ih =>
    intro fuel h orig ll k q b hfuel hw
    obtain ⟨fuel, rfl⟩ : ∃ n, fuel = n + 1 := ⟨fuel - 1, by omega⟩
    obtain ⟨r, a⟩ := e
    rw [List.length_cons] at hfuel
    obtain ⟨rfl, n, hr, _⟩ := hw.next
    cases hdrop : a.data.all drop with
    | false =>
      have hkept : drops drop (r, a) = false := hdrop
      obtain ⟨orig', h', hrun, ⟨hseg, hfreed⟩⟩ := ih fuel h orig n (k ++ [(q, b)]) r a (by omega)
        (hw.keep hr)
      refine ⟨orig', h', ?_, ?_, ?_⟩
      · simp [filterLoop, Store.read_live hr, hdrop, hrun, bind, Except.bind]
      · simpa [List.filter_cons, hkept] using hseg
      · simpa [List.filter_cons, hkept] using hfreed
    | true =>
      have hgone : drops drop (r, a) = true := hdrop
      have hlive := hw.live (r, a) (List.mem_cons_self ..)
      obtain ⟨m, hq, hqr⟩ := hw.last
      obtain ⟨h1, hset, hc1, hb1⟩ := setNext_ok hq n
      have hq1 : h1.cells.cell q = some ⟨b, n⟩ := by
        rw [hc1, Function.update_self]
      have hr1 : h1.cells.cell r = some ⟨a, n⟩ := by
        rw [hc1, Function.update_of_ne (Ne.symm hqr), hr]
      rw [← hb1] at hlive
      obtain ⟨h2, hfree, hc2, hb2⟩ := freeCell_ok hr1 hlive
      rw [hc1, Function.update_comm hqr] at hc2
      rw [hb1] at hb2
      obtain ⟨orig', h', hrun, ⟨hseg, hfreed⟩⟩ := ih fuel h2 orig n k q b (by omega)
        (hw.unlink hr hc2 hb2)
      refine ⟨orig', h', ?_, ?_, ?_⟩
      · simp [filterLoop, Store.read_live hr, hdrop, hw.orig_ne (by simp), hset,
          Store.read_live hq1, hfree, hrun, bind, Except.bind]
      · simpa [List.filter_cons, hgone] using hseg
      · have hboth := (freed_unlink (by simp) hc2 hb2).trans hfreed
        simpa [List.filter_cons, hgone] using hboth

/-- The step that takes out the first cell. -/
theorem filterCells_first (drop : Ref → Bool) (fuel : Nat)
    (hw : WellLinked h (some r) ((r, a) :: rest)) (hdrop : a.data.all drop = true) :
    ∃ n h', filterCells drop (fuel + 1) (some r) h = filterLoop drop fuel n r n h' ∧
      h'.cells.cell r = none ∧ Walk h' n n [] rest ∧
      ∀ touched, Freed h h' [(r, a)] touched := by
  obtain ⟨_, n, hr, _⟩ := hw.walk.next
  have hlive := hw.live (r, a) (List.mem_cons_self ..)
  obtain ⟨h1, hset, hc1, hb1⟩ := setNext_ok hr n
  rw [← hr, Function.update_eq_self] at hc1
  have hr1 : h1.cells.cell r = some ⟨a, n⟩ := by rw [hc1, hr]
  rw [← hb1] at hlive
  obtain ⟨h2, hfree, hc2, hb2⟩ := freeCell_ok hr1 hlive
  rw [hc1] at hc2
  rw [hb1] at hb2
  refine ⟨n, h2, ?_, ?_, hw.walk.drop_first hr hc2 hb2, fun touched => freed_first hc2 hb2⟩
  · simp [filterCells, filterLoop, Store.read_live hr, hdrop, hset, Store.read_live hr1, hfree,
      bind, Except.bind]
  · rw [hc2, Function.update_self]

end Loop

section Filter

variable {h : ListHeap β} {ll : Option Ref} {xs rest : Cells} {e e' : Ref × CellData}

/-- The first two cells are both taken out. -/
def FirstTwoDropped (drop : Ref → Bool) : Cells → Prop
  | e :: e' :: _ => drops drop e = true ∧ drops drop e' = true
  | _ => False

/-- The second of two cells taken out at the head is unlinked through the first, which is freed. -/
theorem filterCells_freed (drop : Ref → Bool) (hw : WellLinked h ll xs)
    (htwo : FirstTwoDropped drop xs) (fuel : Nat) :
    filterCells drop (fuel + 2) ll h = .error .freed := by
  match xs, htwo with
  | (r, a) :: (r', a') :: rest, ⟨hdrop, hdrop'⟩ =>
    obtain ⟨rfl, _⟩ := hw.linked
    obtain ⟨n, h', hrun, hfreed, hw', _⟩ := filterCells_first drop (fuel + 1) hw hdrop
    obtain ⟨rfl, m, hr', _⟩ := hw'.next
    have hdata : a'.data.all drop = true := hdrop'
    rw [hrun]
    simp [filterLoop, Store.read_live hr', hdata, setNext_freed hfreed, bind, Except.bind]

theorem filterCells_unfinished (drop : Ref → Bool) (hw : WellLinked h ll xs)
    (htwo : FirstTwoDropped drop xs) {fuel : Nat} (hfuel : fuel < 2) :
    filterCells drop fuel ll h = .error .unfinished := by
  match xs, htwo with
  | (r, a) :: _ :: _, ⟨hdrop, _⟩ =>
    obtain ⟨rfl, _⟩ := hw.linked
    match fuel with
    | 0 => rfl
    | 1 =>
      obtain ⟨n, h', hrun, _⟩ := filterCells_first drop 0 hw hdrop
      exact hrun

theorem filterCells_pruned (drop : Ref → Bool) (hw : WellLinked h ll xs)
    (htwo : ¬ FirstTwoDropped drop xs) (fuel : Nat) (hfuel : xs.length < fuel) :
    ∃ ll' h', filterCells drop fuel ll h = .ok (ll', h') ∧
      Pruned h h' ll' (xs.filter fun e => !drops drop e) (xs.filter fun e => drops drop e) := by
  obtain ⟨fuel, rfl⟩ : ∃ n, fuel = n + 1 := ⟨fuel - 1, by omega⟩
  match xs, htwo with
  | [], _ =>
    have hll : ll = none := hw.linked
    subst hll
    exact ⟨none, h, rfl, rfl, .refl h _⟩
  | (r, a) :: rest, htwo =>
    obtain ⟨rfl, n, hr, _⟩ := hw.linked
    rw [List.length_cons] at hfuel
    cases hdrop : a.data.all drop with
    | false =>
      have hkept : drops drop (r, a) = false := hdrop
      obtain ⟨ll', h', hrun, ⟨hseg, hfreed⟩⟩ := filterLoop_pruned drop rest fuel h (some r) n []
        r a (by omega) (hw.walk.keep hr)
      refine ⟨ll', h', ?_, ?_, ?_⟩
      · simp [filterCells, filterLoop, Store.read_live hr, hdrop, hrun, bind, Except.bind]
      · simpa [List.filter_cons, hkept] using hseg
      · simpa [List.filter_cons, hkept] using hfreed
    | true =>
      have hgone : drops drop (r, a) = true := hdrop
      obtain ⟨n, h1, hfirst, _, hw1, hfreed1⟩ := filterCells_first drop fuel hw hdrop
      obtain ⟨fuel, rfl⟩ : ∃ n, fuel = n + 1 := ⟨fuel - 1, by omega⟩
      match rest, htwo with
      | [], _ =>
        have hnil : n = none := hw1.tail
        subst hnil
        refine ⟨none, h1, hfirst, ?_, ?_⟩
        · simp only [List.filter_cons, hgone]
          rfl
        · simpa [List.filter_cons, hgone] using hfreed1 _
      | (r', a') :: rest, htwo =>
        -- The second cell is kept, and `prev` leaves the freed one.
        have hkept : drops drop (r', a') = false := by
          apply Bool.eq_false_iff.mpr
          intro hdrop'
          exact htwo ⟨hgone, hdrop'⟩
        have hdata : a'.data.all drop = false := hkept
        obtain ⟨rfl, m, hr', _⟩ := hw1.next
        rw [List.length_cons] at hfuel
        obtain ⟨ll', h', hrun, ⟨hseg, hfreed⟩⟩ := filterLoop_pruned drop rest fuel h1 (some r') m
          [] r' a' (by omega) (hw1.keep hr')
        refine ⟨ll', h', ?_, ?_, ?_⟩
        · rw [hfirst]
          simp [filterLoop, Store.read_live hr', hdata, hrun, bind, Except.bind]
        · simpa [List.filter_cons, hgone, hkept] using hseg
        · have hboth := (hfreed1 _).trans hfreed
          simpa [List.filter_cons, hgone, hkept] using hboth

/-- A run of a filter that ends with what the predicate keeps. -/
def Filtered (run : Nat → Except MemFault (Option Ref × ListHeap β)) (h : ListHeap β) (xs : Cells)
    (keep : Ref → Bool) : Prop :=
  ∃ fuel ll' h', run fuel = .ok (ll', h') ∧
    Removed h h' ll' xs (xs.filter fun e => e.2.data.any keep)
      (xs.filter fun e => !e.2.data.any keep)

theorem any_not (drop : Ref → Bool) (e : Ref × CellData) :
    e.2.data.any (fun data => !drop data) = !drops drop e := by
  unfold drops
  cases e.2.data with
  | none => rfl
  | some d => rfl

theorem filterCells_filtered_iff (drop : Ref → Bool) (hw : WellLinked h ll xs) :
    Filtered (fun fuel => filterCells drop fuel ll h) h xs (fun data => !drop data) ↔
      ¬ FirstTwoDropped drop xs := by
  constructor
  · intro ⟨fuel, ll', h', hrun, _⟩ htwo
    dsimp only at hrun
    by_cases hfuel : fuel < 2
    · rw [filterCells_unfinished drop hw htwo hfuel] at hrun
      cases hrun
    · obtain ⟨fuel, rfl⟩ : ∃ n, fuel = n + 2 := ⟨fuel - 2, by omega⟩
      rw [filterCells_freed drop hw htwo fuel] at hrun
      cases hrun
  · intro htwo
    obtain ⟨ll', h', hrun, hp⟩ := filterCells_pruned drop hw htwo (xs.length + 1) (by omega)
    have hparts : xs.Perm ((xs.filter fun e => !drops drop e) ++
        xs.filter fun e => drops drop e) :=
      (List.filter_append_perm _ xs).symm.trans List.perm_append_comm
    refine ⟨_, ll', h', hrun, ?_⟩
    simp only [any_not, Bool.not_not]
    exact hp.removed hw hparts List.filter_sublist

/-- What a predicate and its negation keep. -/
theorem perm_filter_any (keep : Ref → Bool) (xs : Cells) :
    ((xs.filter fun e => e.2.data.any fun data => !keep data) ++
      xs.filter fun e => e.2.data.any keep).Perm (xs.filter fun e => e.2.data.isSome) := by
  have hleft : (xs.filter fun e => e.2.data.any fun data => !keep data) =
      (xs.filter fun e => e.2.data.isSome).filter fun e => !e.2.data.any keep := by
    rw [List.filter_filter]
    apply List.filter_congr
    intro e _
    cases e.2.data with
    | none => rfl
    | some d => simp
  have hright : (xs.filter fun e => e.2.data.any keep) =
      (xs.filter fun e => e.2.data.isSome).filter fun e => e.2.data.any keep := by
    rw [List.filter_filter]
    apply List.filter_congr
    intro e _
    cases e.2.data with
    | none => rfl
    | some d => simp
  rw [hleft, hright]
  exact List.perm_append_comm.trans (List.filter_append_perm _ _)

/-- `list_filter` and `list_rfilter` are exact when they do not take out the first two cells, and
their results make up the cells with data. -/
theorem filters_exact_iff (fn : Ref → Option Ref → Bool) (ctx : Option Ref) (h : ListHeap β)
    (ll : Option Ref) (xs : Cells) (hw : WellLinked h ll xs) :
    (Filtered (fun fuel => listFilter fn fuel ll ctx h) h xs (fun data => !fn data ctx) ↔
      ¬ FirstTwoDropped (fun data => fn data ctx) xs) ∧
    (Filtered (fun fuel => listRfilter fn fuel ll ctx h) h xs (fun data => fn data ctx) ↔
      ¬ FirstTwoDropped (fun data => !fn data ctx) xs) ∧
    ((xs.filter fun e => e.2.data.any fun data => !fn data ctx) ++
      xs.filter fun e => e.2.data.any fun data => fn data ctx).Perm
        (xs.filter fun e => e.2.data.isSome) := by
  have hfilter := filterCells_filtered_iff (fun data => fn data ctx) hw
  have hrfilter := filterCells_filtered_iff (fun data => !fn data ctx) hw
  simp only [Bool.not_not] at hrfilter
  exact ⟨hfilter, hrfilter, perm_filter_any (fun data => fn data ctx) xs⟩

theorem filters_exact_sample :
    Filtered (fun fuel => listFilter (fun d _ => d == 1) fuel Sample.twoCells.1 none
      Sample.twoCells.2) Sample.twoCells.2 [(1, ⟨(0, 0), some 1⟩), (0, ⟨(0, 0), some 0⟩)]
      (fun d => !(d == 1)) := by
  refine (filters_exact_iff (fun d _ => d == 1) none Sample.twoCells.2 Sample.twoCells.1 _
    Sample.twoCells_linked).1.mpr ?_
  intro h
  exact absurd h.2 (by decide)

/-- A predicate that is true of both cells of a list. -/
theorem filter_head_freed :
    listFilter (fun _ _ => true) 3 Sample.twoCells.1 none Sample.twoCells.2 = .error .freed ∧
    ¬ Filtered (fun fuel => listFilter (fun _ _ => true) fuel Sample.twoCells.1 none
        Sample.twoCells.2) Sample.twoCells.2 [(1, ⟨(0, 0), some 1⟩), (0, ⟨(0, 0), some 0⟩)]
        (fun _ => false) := by
  have htwo : FirstTwoDropped (fun _ => true)
      [(1, ⟨(0, 0), some 1⟩), (0, ⟨(0, 0), some 0⟩)] := ⟨rfl, rfl⟩
  constructor
  · exact filterCells_freed (fun _ => true) Sample.twoCells_linked htwo 1
  · intro hrun
    exact (filterCells_filtered_iff (fun _ => true) Sample.twoCells_linked).mp hrun htwo

end Filter

end DropletFs
