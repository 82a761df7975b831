import ShompOS.Heap.Block
import Mathlib.Algebra.Ring.Int.Defs

/-! The buddy allocator (`heap.c`), function by function.

The routines that only touch headers are functions on memory; the ones that move
`current_brk` are functions on `Heap`. Pointer arithmetic wraps at `2 ^ 32`.
`brk` has loops that need not end (its argument can lie above every value
`current_brk` takes), so it returns an `Option`: `none` is a loop that has gone
once round the address space without stopping, and so never will. -/
namespace ShompOS

structure Heap where
  mem : Memory
  currentBrk : Nat

namespace Heap
open Memory

/-- `32 - __builtin_clz(size - 1)` for `size` with the header added. -/
def sizeToScale (size : Nat) : Nat :=
  let size := wrap (size + headerSize)
  Nat.log2 (size - 1) + 1

variable (L : Layout)

/-- `__blkmngr_add_to_free_list` -/
def addToFreeList (m : Memory) (block : Nat) : Memory :=
  let list := L.list (m.scale block)
  let m := if m.next list = list then m.setNext block block
    else
      let m := m.setNext block (m.next list)
      m.setPrev (m.next list) block
  let m := m.setNext list block
  let m := m.setPrev block list
  m.setIsFree block 1

/-- `__blkmngr_remove_from_free_list` -/
def removeFromFreeList (m : Memory) (block : Nat) : Memory :=
  let m := if m.next block = block then m.setNext (m.prev block) (m.prev block)
    else
      let m := m.setNext (m.prev block) (m.next block)
      m.setPrev (m.next block) (m.prev block)
  let m := m.setPrev block block
  let m := m.setNext block block
  m.setIsFree block 0

/-- The `while` loop of `__blkmngr_find_fit`: `searchScale` steps up over empty
lists, at most `remaining` times, which is what is left to `MAX_BLOCK_SCALE`. -/
def searchFit (m : Memory) : (remaining searchScale : Nat) → Nat
  | 0, searchScale => searchScale
  | remaining + 1, searchScale =>
    if m.next (L.list searchScale) = L.list searchScale then
      searchFit m remaining (searchScale + 1)
    else searchScale

/-- `__blkmngr_find_fit`; the second component is `best_fit`, 0 for `NULL`. -/
def findFit (m : Memory) (requestScale : Nat) : Memory × Nat :=
  let curr := L.list (searchFit L m (maxBlockScale - requestScale) requestScale)
  if m.next curr ≠ curr ∧ m.next curr ≠ 0 then
    let curr := m.next curr
    let m := removeFromFreeList m curr
    (m.setIsFree curr 0, curr)
  else (m, 0)

/-- `__blkmngr_split_block` -/
def splitBlock (m : Memory) (block : Nat) : Memory :=
  if block = 0 ∨ m.scale block ≤ minBlockScale then m
  else
    let m := m.setScale block (m.scale block - 1)
    let newBlock := wrap (block + 2 ^ m.scale block)
    let m := m.setScale newBlock (m.scale block)
    addToFreeList L m newBlock

/-- The `while` loop of `allocate`: each round lowers the block's scale by one,
so there are at most `rounds` of them if that is the scale it starts with. -/
def splitDown (block requestScale : Nat) : (rounds : Nat) → Memory → Memory
  | 0, m => m
  | rounds + 1, m =>
    if m.scale block > requestScale then
      splitDown block requestScale rounds (splitBlock L m block)
    else m

/-- `block_offset`: the subtraction is unsigned, the result signed. -/
def blockOffset (block : Nat) : Int := ((block : Int) - heapLowerBound).bmod addressSpace

/-- `buddy_offset`, with C's signed remainder. -/
def buddyOffset (block scale : Nat) : Int :=
  if (blockOffset block).tmod (2 ^ (scale + 1)) ≠ 0 then -2 ^ scale else 2 ^ scale

/-- `(uint32_t)block + offset` -/
def addOffset (block : Nat) (offset : Int) : Nat := ((block + offset) % addressSpace).toNat

/-- The `while` loop of `__blkmngr_coalesce_block`: each round raises the scale
by one, so there are at most `rounds` of them if that is what is left to
`MAX_BLOCK_SCALE`. -/
def coalesceUp : (rounds : Nat) → Memory → (currBlock : Nat) → Memory × Nat
  | 0, m, currBlock => (m, currBlock)
  | rounds + 1, m, currBlock =>
    let offset := buddyOffset currBlock (m.scale currBlock)
    let buddy := addOffset currBlock offset
    if m.isFree buddy ≠ 0 ∧ m.scale buddy = m.scale currBlock ∧ m.scale currBlock < maxBlockScale then
      let m := removeFromFreeList m buddy
      let currBlock := if offset < 0 then buddy else currBlock
      coalesceUp rounds (m.setScale currBlock (m.scale currBlock + 1)) currBlock
    else (m, currBlock)

/-- `__blkmngr_coalesce_block` -/
def coalesceBlock (m : Memory) (block : Nat) : Memory × Nat :=
  coalesceUp (maxBlockScale - m.scale block) m block

/-- The number of values `current_brk` takes before it repeats, and one more. -/
def brkRounds : Nat := 2 ^ 17 + 1

/-- The growing loop of `brk`. -/
def brkGrow (addr : Nat) : (rounds : Nat) → Heap → Option Heap
  | 0, _ => none
  | rounds + 1, h =>
    if addr > h.currentBrk then
      let m := h.mem.setScale h.currentBrk maxBlockScale
      let m := addToFreeList L m h.currentBrk
      brkGrow addr rounds ⟨m, wrap (h.currentBrk + 2 ^ maxBlockScale)⟩
    else some h

/-- The shrinking loop of `brk`, with the value returned. -/
def brkShrink (addr : Nat) : (rounds : Nat) → Heap → Option (Heap × Int)
  | 0, _ => none
  | rounds + 1, h =>
    if addr < h.currentBrk then
      let block := wrap (h.currentBrk + (addressSpace - 2 ^ maxBlockScale))
      if h.mem.scale block ≠ maxBlockScale ∨ h.mem.isFree block = 0 then some (h, -1)
      else brkShrink addr rounds ⟨removeFromFreeList h.mem block, block⟩
    else some (h, 0)

/-- `brk` -/
def brk (h : Heap) (addr : Nat) : Option (Heap × Int) :=
  if addr > h.currentBrk then (brkGrow L addr brkRounds h).map fun h => (h, 0)
  else brkShrink addr brkRounds h

/-- `sbrk` -/
def sbrk (h : Heap) (inc : Int) : Option (Heap × Int) :=
  if inc = 0 then some (h, -1) else brk L h (addOffset h.currentBrk (inc * 2 ^ maxBlockScale))

/-- The `for` loop of `init_heap`, over the scales from `i` on. -/
def initLists : (count i : Nat) → Memory → Memory
  | 0, _, m => m
  | count + 1, i, m =>
    initLists count (i + 1) ((m.setPrev (L.list i) (L.list i)).setNext (L.list i) (L.list i))

/-- `init_heap` -/
def initHeap (m : Memory) (heapAddr : Nat) : Option Heap :=
  let m := initLists L (maxBlockScale + 1 - minBlockScale) minBlockScale m
  (sbrk L ⟨m, heapAddr⟩ 1).map Prod.fst

/-- `allocate`; the second component is the pointer returned, 0 for `NULL`. -/
def allocate (h : Heap) (requestSize : Nat) : Option (Heap × Nat) :=
  if requestSize > 2 ^ maxBlockScale - headerSize ∨ requestSize = 0 then some (h, 0)
  else
    let requestScale := max (sizeToScale requestSize) minBlockScale
    let (m, block) := findFit L h.mem requestScale
    if block ≠ 0 then
      let m := splitDown L block requestScale (m.scale block) m
      some (⟨m, h.currentBrk⟩, wrap (block + headerSize))
    else
      -- nothing fits: grow the heap by one block and try again, without splitting
      (sbrk L ⟨m, h.currentBrk⟩ 1).map fun (h, ret) =>
        if ret = -1 then (h, 0)
        else
          let (m, block) := findFit L h.mem requestScale
          (⟨m, h.currentBrk⟩, wrap (block + headerSize))

/-- `free`, with the value returned: 0 for success. -/
def free (h : Heap) (data : Nat) : Option (Heap × Nat) :=
  if data = 0 then some (h, 1)
  else
    let block := wrap (data + (addressSpace - headerSize))
    if h.mem.next block ≠ block ∨ h.mem.prev block ≠ block then some (h, 1)
    else
      let (m, block) := coalesceBlock h.mem block
      let m := addToFreeList L m block
      let blockEnd := wrap (block + 2 ^ maxBlockScale)
      if m.scale block = maxBlockScale ∧ h.currentBrk = blockEnd then
        (sbrk L ⟨m, h.currentBrk⟩ (-1)).map fun (h, _) => (h, 0)
      else some (⟨m, h.currentBrk⟩, 0)

end Heap
end ShompOS
