import DropletFs.Framework.RefStore
import DropletFs.Model.Types

/-! `list.c` on a heap of cells and a heap of the blocks their data points to. -/

namespace DropletFs

open CText RefStore

/-- The fields of `struct list` besides `next`. -/
structure CellData where
  tv : Int × Int
  data : Option Ref
  deriving DecidableEq

structure ListHeap (β : Type) where
  cells : RefStore.Store (Node CellData)
  blocks : RefStore.Store β

namespace ListHeap

variable {β : Type}

/-- `ll->next = next`. -/
def setNext (h : ListHeap β) (ll : Ref) (next : Option Ref) : Except MemFault (ListHeap β) := do
  let c ← h.cells.read ll
  let cells ← h.cells.write ll { c with next := next }
  .ok { h with cells := cells }

/-- `free(ll->data); free(ll)`. -/
def freeCell (h : ListHeap β) (ll : Ref) : Except MemFault (ListHeap β) := do
  let c ← h.cells.read ll
  let blocks ← h.blocks.freeOpt c.val.data
  let cells ← h.cells.free ll
  .ok ⟨cells, blocks⟩

end ListHeap

/-- A pointer that is dereferenced. -/
def nonNull : Option Ref → Except MemFault Ref
  | none => .error .null
  | some r => .ok r

section

variable {β : Type}

/-- `list_add`; `tv` is what `malloc` left in the cell. -/
def listAdd (tv : Int × Int) (ll data : Option Ref) (h : ListHeap β) : Option Ref × ListHeap β :=
  let n := h.cells.alloc ⟨⟨tv, data⟩, ll⟩
  (some n.1, { h with cells := n.2 })

/-- The loop of `list_remove`; `fn` is the comparison. -/
def listRemoveLoop (fn : Ref → Option Ref → Bool) (data orig : Ref) :
    Nat → Ref → Option Ref → ListHeap β → Except MemFault (Option Ref × ListHeap β)
  | 0, _, _, _ => .error .unfinished
  | _ + 1, _, none, h => .ok (some orig, h)
  | fuel + 1, prev, some ll, h => do
    let c ← h.cells.read ll
    if fn data c.val.data then
      if ll = orig then
        let h ← h.freeCell orig
        .ok (c.next, h)
      else
        let h ← h.setNext prev c.next
        let h ← h.freeCell ll
        .ok (some orig, h)
    else listRemoveLoop fn data orig fuel ll c.next h

def listRemove (fn : Ref → Option Ref → Bool) (fuel : Nat) (ll data : Option Ref)
    (h : ListHeap β) : Except MemFault (Option Ref × ListHeap β) :=
  match data, ll with
  | none, _ => .ok (ll, h)
  | some _, none => .ok (none, h)
  | some data, some ll => listRemoveLoop fn data ll fuel ll (some ll) h

/-- The loop of `list_remove_all`. It ends with `ll` null, so that the test behind it fails. -/
def listRemoveAllLoop (fn : Ref → Option Ref → Bool) (data : Ref) :
    Nat → Option Ref → Option Ref → Option Ref → ListHeap β →
      Except MemFault (Option Ref × ListHeap β)
  | 0, _, _, _, _ => .error .unfinished
  | _ + 1, orig, _, none, h => .ok (orig, h)
  | fuel + 1, orig, prev, some ll, h => do
    let c ← h.cells.read ll
    if fn data c.val.data then
      if orig = some ll then
        let h ← h.freeCell ll
        listRemoveAllLoop fn data fuel c.next c.next c.next h
      else
        let h ← h.freeCell ll
        let prev ← nonNull prev
        let h ← h.setNext prev c.next
        listRemoveAllLoop fn data fuel orig (some prev) c.next h
    else listRemoveAllLoop fn data fuel orig (some ll) c.next h

def listRemoveAll (fn : Ref → Option Ref → Bool) (fuel : Nat) (ll data : Option Ref)
    (h : ListHeap β) : Except MemFault (Option Ref × ListHeap β) :=
  match data, ll with
  | none, _ => .ok (ll, h)
  | some _, none => .ok (none, h)
  | some data, some ll => listRemoveAllLoop fn data fuel (some ll) (some ll) (some ll) h

/-- The loop of `__filter`; `drop` is `pred fn(ll->data, ctx)`. -/
def filterLoop (drop : Ref → Bool) :
    Nat → Option Ref → Ref → Option Ref → ListHeap β → Except MemFault (Option Ref × ListHeap β)
  | 0, _, _, _, _ => .error .unfinished
  | _ + 1, orig, _, none, h => .ok (orig, h)
  | fuel + 1, orig, prev, some ll, h => do
    let c ← h.cells.read ll
    if c.val.data.all drop then
      let orig := if orig = some ll then c.next else orig
      let h ← h.setNext prev c.next
      -- `ll = prev->next`
      let p ← h.cells.read prev
      let h ← h.freeCell ll
      filterLoop drop fuel orig prev p.next h
    else filterLoop drop fuel orig ll c.next h

/-- `__filter`. -/
def filterCells (drop : Ref → Bool) (fuel : Nat) (ll : Option Ref) (h : ListHeap β) :
    Except MemFault (Option Ref × ListHeap β) :=
  match ll with
  | none => .ok (none, h)
  | some ll => filterLoop drop fuel (some ll) ll (some ll) h

def listFilter (fn : Ref → Option Ref → Bool) (fuel : Nat) (ll ctx : Option Ref)
    (h : ListHeap β) : Except MemFault (Option Ref × ListHeap β) :=
  filterCells (fun data => fn data ctx) fuel ll h

def listRfilter (fn : Ref → Option Ref → Bool) (fuel : Nat) (ll ctx : Option Ref)
    (h : ListHeap β) : Except MemFault (Option Ref × ListHeap β) :=
  filterCells (fun data => !fn data ctx) fuel ll h

/-- A loop over all cells of a list. -/
def walkCells {σ : Type} (f : σ → CellData → σ) :
    Nat → Option Ref → σ → ListHeap β → Except MemFault σ
  | 0, _, _, _ => .error .unfinished
  | _ + 1, none, acc, _ => .ok acc
  | fuel + 1, some ll, acc, h => do
    let c ← h.cells.read ll
    walkCells f fuel c.next (f acc c.val) h

def listLength (fuel : Nat) (ll : Option Ref) (h : ListHeap β) : Except MemFault Nat :=
  walkCells (fun ret _ => ret + 1) fuel ll 0 h

def listNbCells (fuel : Nat) (ll : Option Ref) (h : ListHeap β) : Except MemFault Nat :=
  walkCells (fun ret c => if c.data.isSome then ret + 1 else ret) fuel ll 0 h

/-- `list_map`, with a callback that changes its context. -/
def listMap {σ : Type} (fn : σ → Ref → σ) (fuel : Nat) (ll : Option Ref) (ctx : σ)
    (h : ListHeap β) : Except MemFault σ :=
  walkCells (fun ctx c => c.data.elim ctx (fn ctx)) fuel ll ctx h

def listFree : Nat → Option Ref → ListHeap β → Except MemFault (ListHeap β)
  | 0, _, _ => .error .unfinished
  | _ + 1, none, h => .ok h
  | fuel + 1, some tmp, h => do
    let c ← h.cells.read tmp
    let h ← match c.val.data with
      | none => .ok h
      | some data => do
        let blocks ← h.blocks.free data
        let cells ← h.cells.write tmp { c with val := { c.val with data := none } }
        .ok ⟨cells, blocks⟩
    let c ← h.cells.read tmp
    let cells ← h.cells.free tmp
    listFree fuel c.next { h with cells := cells }

/-- `cb_compare_path` of a key with this text and the data of a cell. -/
def cbComparePath (h : ListHeap CStr) (path : CStr) : Ref → Option Ref → Bool :=
  fun _ data => decide (data.bind h.blocks.cell = some path)

/-- `pentry_add_dirent`: whether `strdup` and the `malloc` of `list_add` get their memory. -/
def pentryAddDirentCells (copied celled : Bool) (tv : Int × Int) (path : CStr) (dirent : Option Ref)
    (h : ListHeap CStr) : Option Ref × ListHeap CStr :=
  if copied then
    let key := h.blocks.alloc path
    let h := { h with blocks := key.2 }
    if celled then listAdd tv dirent (some key.1) h else (dirent, h)
  else (dirent, h)

/-- `pentry_remove_dirent`; `key` is the address of the path. -/
def pentryRemoveDirentCells (filetype : TPathType) (fuel : Nat) (key : Ref) (path : CStr)
    (dirent : Option Ref) (h : ListHeap CStr) :
    Except MemFault (Int × Option Ref × ListHeap CStr) :=
  if filetype ≠ .dir then .ok (-1, dirent, h)
  else do
    let (dirent, h) ← listRemove (cbComparePath h path) fuel dirent (some key) h
    .ok (0, dirent, h)

end

end DropletFs
