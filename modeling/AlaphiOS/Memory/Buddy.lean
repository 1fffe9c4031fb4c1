import AlaphiOS.Lib.Chain
import AlaphiOS.Lib.Checked
import AlaphiOS.Lib.Run
import Mathlib.Logic.Function.Basic

/-!
# The kernel heap's buddy allocator

`kernel/src/memory/buddy_allocator.rs`, function for function. The allocator
keeps no metadata of its own: `free_lists[i]` is the head of a list of free
blocks of `32 << i` bytes, threaded through the first eight bytes of the blocks
themselves, so the model carries the memory next to the struct (`Arena`).

Mirroring notes:
- Pointers are addresses in `Nat`, null is `0`. Only `init` adds addresses that
  could leave 64 bits; its sums are checked, and `none` is the overflow panic.
- `free_lists` has `MAX_ORDER + 1` entries and is only indexed below that; here
  it is a function of the index.
- Each `while` over an order counts towards a fixed bound, so it is a recursion
  on the distance to that bound. `init`'s outer loop advances by at least
  `MIN_BLOCK_SIZE` each round, which is its fuel.
- The list walk in `dealloc_inner` has no bound of its own: on a cyclic list it
  would not return. `findBuddy` walks with fuel and answers `none` when it runs
  out, which is never the case on a list the allocator built
  (`HeapInv.dealloc_isSome`).
-/

namespace AlaphiOS.Memory

open Lib Function

/-- `MAX_ORDER`. -/
def maxOrder : Nat := 18

/-- `MIN_BLOCK_SIZE`. -/
def minBlockSize : Nat := 32

/-- `MIN_BLOCK_SIZE << ord`. -/
def blockSize (ord : Nat) : Nat := minBlockSize <<< ord

/-- `core::alloc::Layout`: the alignment is a power of two and the size,
rounded up to it, fits `isize`. -/
structure Layout where
  size : Nat
  align : Nat
  align_pow : align.isPowerOfTwo
  fits : size + (align - 1) < 2 ^ 63
  deriving DecidableEq

/-- `BuddyAllocator` together with the memory its pointers lead into. -/
structure Arena where
  freeLists : Nat → Nat
  heapStart : Nat
  heapSize : Nat
  mem : Mem

/-- `BuddyAllocator::empty`, over some memory. -/
def Arena.empty (m : Mem) : Arena := ⟨fun _ => 0, 0, 0, m⟩

/-- `add_to_free_list`: the old head goes into the block's first word. -/
def addToFreeList (h : Arena) (ptr order : Nat) : Arena :=
  { h with
    mem := writeWord h.mem ptr (h.freeLists order)
    freeLists := update h.freeLists order ptr }

/-! ## `init` -/

/-- The inner `while ord > 0`: the largest order whose block at `curr` is
aligned and ends by `end_`, or `0`. -/
def initOrder (curr end_ : Nat) : Nat → Option Nat
  | 0 => some 0
  | ord + 1 => do
    let top ← usizeAdd curr (blockSize (ord + 1))
    if top ≤ end_ ∧ curr &&& (blockSize (ord + 1) - 1) = 0 then some (ord + 1)
    else initOrder curr end_ ord

/-- The outer `while curr < end`. -/
def initLoop (end_ : Nat) : Nat → Nat → Arena → Option Arena
  | 0, _, h => some h
  | fuel + 1, curr, h =>
    if curr < end_ then do
      let ord ← initOrder curr end_ maxOrder
      let top ← usizeAdd curr (blockSize ord)
      if top > end_ then some h
      else initLoop end_ fuel top (addToFreeList h curr ord)
    else some h

/-- `BuddyAllocator::init`. -/
def init (h : Arena) (heapStart heapSize : Nat) : Option Arena := do
  let end_ ← usizeAdd heapStart heapSize
  initLoop end_ (heapSize / minBlockSize + 1) heapStart
    { h with heapStart := heapStart, heapSize := heapSize }

/-! ## `alloc_inner` -/

/-- `layout.size().max(layout.align()).max(MIN_BLOCK_SIZE)`. -/
def requestSize (layout : Layout) : Nat := max (max layout.size layout.align) minBlockSize

/-- `while ord < MAX_ORDER && (MIN_BLOCK_SIZE << ord) < size { ord += 1; }`, with
`MAX_ORDER - ord` rounds left. -/
def orderLoop (size : Nat) : Nat → Nat → Nat
  | 0, ord => ord
  | k + 1, ord => if blockSize ord < size then orderLoop size k (ord + 1) else ord

/-- The order both `alloc_inner` and `dealloc_inner` compute for a layout. -/
def layoutOrder (layout : Layout) : Nat := orderLoop (requestSize layout) maxOrder 0

/-- `while found_ord <= MAX_ORDER && free_lists[found_ord].is_null()`, with
`MAX_ORDER + 1 - found_ord` rounds left. -/
def findOrder (h : Arena) : Nat → Nat → Nat
  | 0, found => found
  | k + 1, found => if h.freeLists found = 0 then findOrder h k (found + 1) else found

/-- `while found_ord > ord`: give back the upper half at each order on the way
down, with `k = found_ord - ord` rounds left. -/
def splitLoop (block ord : Nat) : Nat → Arena → Arena
  | 0, h => h
  | k + 1, h =>
    splitLoop block ord k (addToFreeList h (block + blockSize (ord + k)) (ord + k))

/-- `alloc_inner`. -/
def allocInner (h : Arena) (layout : Layout) : Arena × Nat :=
  let ord := layoutOrder layout
  if blockSize ord < requestSize layout then (h, 0)
  else
    let found := findOrder h (maxOrder + 1 - ord) ord
    if found > maxOrder then (h, 0)
    else
      let block := h.freeLists found
      let h := { h with freeLists := update h.freeLists found (readWord h.mem block) }
      (splitLoop block ord (found - ord) h, block)

/-! ## `dealloc_inner` -/

/-- Where `ptr_to_node` points: at the list head, or at the link word of a node. -/
inductive Slot where
  | head
  | node (addr : Nat)

/-- `*ptr_to_node`. -/
def Slot.load (h : Arena) (ord : Nat) : Slot → Nat
  | head => h.freeLists ord
  | node a => readWord h.mem a

/-- `ptr::write(ptr_to_node, v)`. -/
def Slot.store (h : Arena) (ord v : Nat) : Slot → Arena
  | head => { h with freeLists := update h.freeLists ord v }
  | node a => { h with mem := writeWord h.mem a v }

/-- The inner `while`: walk list `ord` from `slot`, unlinking `buddy` when it is
met. The flag is `is_free`. -/
def findBuddy (h : Arena) (ord buddy : Nat) : Nat → Slot → Option (Arena × Bool)
  | 0, _ => none
  | fuel + 1, slot =>
    let node := slot.load h ord
    if node = 0 then some (h, false)
    else if node = buddy then some (slot.store h ord (readWord h.mem node), true)
    else findBuddy h ord buddy fuel (.node node)

/-- The outer `while ord < MAX_ORDER`, with `MAX_ORDER - ord` rounds left, and
the final `add_to_free_list`. -/
def mergeLoop : Nat → Arena → Nat → Nat → Option Arena
  | 0, h, current, ord => some (addToFreeList h current ord)
  | k + 1, h, current, ord => do
    let buddy := current ^^^ blockSize ord
    let (h, isFree) ← findBuddy h ord buddy (h.heapSize + 1) .head
    if isFree then mergeLoop k h (min current buddy) (ord + 1)
    else some (addToFreeList h current ord)

/-- `dealloc_inner`. -/
def deallocInner (h : Arena) (ptr : Nat) (layout : Layout) : Option Arena :=
  let ord := layoutOrder layout
  mergeLoop (maxOrder - ord) h ptr ord

end AlaphiOS.Memory
