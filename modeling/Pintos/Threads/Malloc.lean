import Pintos.Lib.MemoryLinks
import Pintos.Threads.Palloc

/-!
# The heap

`threads/malloc.c` on the bytes of memory. The descriptors, the headers of the arenas and the links of the free blocks
are where the code has them: the descriptors at a fixed place below the kernel pool, a header in the first twelve bytes
of an arena, and the links of a free block in its first eight bytes. The locks of the descriptors are left out: a call
is one step here.

`Layout` is where all this lies. `Layout.nodes` are the places of `struct list_elem`s, for the list functions.
-/

namespace Pintos
namespace Malloc

open Clib Vaddr Palloc

/-- `ARENA_MAGIC`. -/
def arenaMagic : ℕ := 0x9a548eed

/-- The size of `struct arena`: `magic`, `desc` and `free_cnt`. -/
def arenaSize : ℕ := 12

/-- The size of `struct desc`: `block_size`, `blocks_per_arena`, the sentinels of `free_list`, and `lock`. -/
def descSize : ℕ := 48

/-- The number of elements of `descs`. -/
def descMax : ℕ := 10

/-- Where the allocator's data are. -/
structure Layout where
  /-- The address of `descs`. -/
  descs : ℕ
  /-- The first page of the kernel pool, and the number of its pages. -/
  base : ℕ
  pages : ℕ
  descs_pos : 0 < descs
  descs_le : descs + descSize * descMax ≤ base
  base_aligned : base % pgSize = 0
  fits : base + pgSize * pages ≤ 2 ^ 32

namespace Layout

variable (L : Layout)

/-- `descs + i`. -/
def desc (i : ℕ) : ℕ := L.descs + descSize * i

/-- The places of `list_elem`s: the sentinels in the descriptors, and the beginnings of blocks. -/
def IsNode (x : ℕ) : Prop :=
  (∃ i < descMax, x = L.desc i + 8 ∨ x = L.desc i + 16) ∨
  (L.base ≤ x ∧ x < L.base + pgSize * L.pages ∧ x % 16 = 12 ∧ x % pgSize + 8 ≤ pgSize)

instance : DecidablePred L.IsNode := fun _ => inferInstanceAs (Decidable (_ ∨ _))

theorem isNode_cases {x : ℕ} (h : L.IsNode x) :
    (∃ i < descMax, x = L.descs + 48 * i + 8 ∨ x = L.descs + 48 * i + 16) ∨ (L.base ≤ x ∧ x % 16 = 12) := by
  rcases h with h | ⟨h, -, h', -⟩
  · exact .inl h
  · exact .inr ⟨h, h'⟩

/-- The places of the nodes. -/
def nodes : NodeSpace where
  IsNode := L.IsNode
  dec := inferInstance
  ne_zero x h := by
    have hpos := L.descs_pos
    have hle := L.descs_le
    rcases L.isNode_cases h with ⟨i, -, hx⟩ | ⟨hx, -⟩ <;> omega
  lt x h := by
    have hle := L.descs_le
    have hfits := L.fits
    rcases h with ⟨i, hi, hx⟩ | ⟨-, hx, -, -⟩
    · unfold desc descSize descMax at *
      omega
    · omega
  apart x y hx hy hne := by
    have hle := L.descs_le
    unfold descSize descMax at hle
    rcases L.isNode_cases hx with ⟨i, hi, hx⟩ | ⟨hx, hx'⟩
    · unfold descMax at hi
      rcases L.isNode_cases hy with ⟨j, hj, hy⟩ | ⟨hy, -⟩
      · omega
      · omega
    · rcases L.isNode_cases hy with ⟨j, hj, hy⟩ | ⟨hy, hy'⟩
      · unfold descMax at hj
        omega
      · omega

/-- The links of the nodes. -/
abbrev links : LinkStore Memory L.nodes.Node := L.nodes.links

end Layout

/-- The memory with the pools, and the variable `desc_cnt`. -/
structure Heap where
  ram : Ram
  descCnt : ℕ

/-- Something the allocator does. -/
abbrev HeapOp := StateT Heap (Except Halt)

/-- The memory is replaced. -/
def Heap.setMem (h : Heap) (m : Memory) : Heap := { h with ram := { h.ram with mem := m } }

/-- A call of the page allocator, or of `memset`. -/
def onRam {α : Type} (x : Op α) : HeapOp α := fun h => do
  let (a, r) ← x h.ram
  return (a, { h with ram := r })

/-- A call of a list function that changes links. -/
def onLinks (x : Memory → Except Halt Memory) : HeapOp Unit := fun h => do
  let m ← x h.ram.mem
  return ((), h.setMem m)

/-- The word at an address. -/
def load (a : ℕ) : HeapOp ℕ := return (← get).ram.mem.word a

/-- Write a word. -/
def store (a w : ℕ) : HeapOp Unit := modify fun h => h.setMem (h.ram.mem.writeWord a w)

/-- `memcpy`. -/
def memcpy (dst src n : ℕ) : HeapOp Unit := modify fun h => h.setMem (h.ram.mem.write dst (h.ram.mem.read src n))

variable (L : Layout)

/-- The `list_elem` at an address. -/
def nodeAt (x : ℕ) : Except Halt L.nodes.Node := deref (L.nodes.node? x)

/-- The loop of `malloc_init`. -/
def initLoop : ℕ → ℕ → HeapOp Unit
  | 0, _ => throw .running
  | n + 1, blockSize => do
    if blockSize < pgSize / 2 then
      let descCnt := (← get).descCnt
      let d := L.desc descCnt
      modify fun h => { h with descCnt := descCnt + 1 }
      assert (descCnt + 1 ≤ descMax)
      store d blockSize
      store (d + 4) ((pgSize - arenaSize) / blockSize)
      let head ← nodeAt L (d + 8)
      let tail ← nodeAt L (d + 16)
      onLinks fun m => return listInit L.links head tail m
      initLoop n (blockSize * 2)
    else return

/-- `malloc_init`. -/
def mallocInit : HeapOp Unit := initLoop L 8 16

/-- `block_to_arena`. -/
def blockToArena (b : ℕ) : HeapOp ℕ := do
  let m := (← get).ram.mem
  let a := b / pgSize * pgSize
  assert (a ≠ 0)
  assert (m.word a = arenaMagic)
  assert (m.word (a + 4) = 0 ∨ (b % pgSize + 2 ^ 32 - arenaSize) % 2 ^ 32 % m.word (m.word (a + 4)) = 0)
  assert (m.word (a + 4) ≠ 0 ∨ b % pgSize = arenaSize)
  return a

/-- `arena_to_block`. -/
def arenaToBlock (a idx : ℕ) : HeapOp ℕ := do
  let m := (← get).ram.mem
  assert (a ≠ 0)
  assert (m.word a = arenaMagic)
  assert (idx < m.word (m.word (a + 4) + 4))
  return a + arenaSize + idx * m.word (m.word (a + 4))

/-- The loop of `malloc` over the descriptors: the first one whose blocks are large enough, or the end. -/
def findDesc (m : Memory) (size : UInt32) : ℕ → ℕ → ℕ
  | 0, d => d
  | n + 1, d => if m.word d ≥ size.toNat then d else findDesc m size n (d + descSize)

/-- `malloc` of a block that has pages of its own. -/
def mallocLarge (size : UInt32) : HeapOp (Option ℕ) := do
  -- `DIV_ROUND_UP (size + sizeof *a, PGSIZE)`
  let pageCnt := ((size + 12 + 4096 - 1) / 4096).toNat
  match ← onRam (pallocGetMultiple ⟨false, false, false⟩ pageCnt) with
  | none => return none
  | some a => do
    store a arenaMagic
    store (a + 4) 0
    store (a + 8) pageCnt
    return some (a + arenaSize)

/-- A turn of the loop of `malloc` that puts the blocks of a new arena into the free list. -/
def pushBlock (d a idx : ℕ) : HeapOp Unit := do
  let b ← arenaToBlock a idx
  let elem ← nodeAt L b
  let tail ← nodeAt L (d + 16)
  onLinks (listPushBack L.links tail elem)

/-- The part of `malloc` that makes a new arena if the free list is empty. The result is whether there is a block. -/
def refill (d : ℕ) : HeapOp Bool := do
  let head ← nodeAt L (d + 8)
  let tail ← nodeAt L (d + 16)
  if ← listEmpty L.links head tail (← get).ram.mem then
    match ← onRam (pallocGetPage ⟨false, false, false⟩) with
    | none => return false
    | some a => do
      let blocksPerArena ← load (d + 4)
      store a arenaMagic
      store (a + 4) d
      store (a + 8) blocksPerArena
      (List.range blocksPerArena).forM (pushBlock L d a)
      return true
  else return true

/-- `list_pop_front` of the free list. -/
def popFree (d : ℕ) : HeapOp ℕ := do
  let head ← nodeAt L (d + 8)
  let tail ← nodeAt L (d + 16)
  let (elem, m) ← listPopFront L.links head tail (← get).ram.mem
  modify fun h => h.setMem m
  return elem.1

/-- The end of `malloc`: a block is taken from the free list. -/
def takeBlock (d : ℕ) : HeapOp ℕ := do
  let b ← popFree L d
  let a ← blockToArena b
  let freeCnt ← load (a + 8)
  store (a + 8) ((freeCnt + 2 ^ 32 - 1) % 2 ^ 32)
  return b

/-- `malloc` of a block of a size class. -/
def mallocSmall (d : ℕ) : HeapOp (Option ℕ) := do
  if ← refill L d then return some (← takeBlock L d) else return none

/-- `malloc`. A null pointer is `none`. -/
def malloc (size : UInt32) : HeapOp (Option ℕ) := do
  if size = 0 then return none
  else
    let h ← get
    let d := findDesc h.ram.mem size h.descCnt (L.desc 0)
    if d = L.desc h.descCnt then mallocLarge size else mallocSmall L d

/-- `calloc`. -/
def calloc (a b : UInt32) : HeapOp (Option ℕ) := do
  let size := a * b
  if size < a ∨ size < b then return none
  else
    match ← malloc L size with
    | none => return none
    | some p => do
      onRam (memset p 0 size.toNat)
      return some p

/-- `block_size`. -/
def blockSize (block : ℕ) : HeapOp ℕ := do
  let a ← blockToArena block
  let d ← load (a + 4)
  if d ≠ 0 then load d
  else
    let freeCnt ← load (a + 8)
    return (pgSize * freeCnt + 2 ^ 32 - block % pgSize) % 2 ^ 32

/-- A turn of the loop of `free` that takes the blocks of an arena out of the free list. -/
def removeBlock (a idx : ℕ) : HeapOp Unit := do
  let b ← arenaToBlock a idx
  let elem ← nodeAt L b
  onLinks fun m => do
    let (_, m) ← listRemove L.links elem m
    return m

/-- The part of `free` that gives back an arena that is not in use any more. -/
def freeArena (d a freeCnt : ℕ) : HeapOp Unit := do
  let blocksPerArena ← load (d + 4)
  if freeCnt ≥ blocksPerArena then
    assert (freeCnt = blocksPerArena)
    (List.range blocksPerArena).forM (removeBlock L a)
    onRam (pallocFreePage a)
  else return

/-- `free` of a block of a size class. -/
def freeSmall (b a d : ℕ) : HeapOp Unit := do
  let size ← load d
  onRam (memset b 0xcc size)
  let elem ← nodeAt L b
  let head ← nodeAt L (d + 8)
  onLinks (listPushFront L.links head elem)
  let freeCnt := ((← load (a + 8)) + 1) % 2 ^ 32
  store (a + 8) freeCnt
  freeArena L d a freeCnt

/-- `free`. -/
def free : Option ℕ → HeapOp Unit
  | none => return
  | some p => do
    let a ← blockToArena p
    let d ← load (a + 4)
    if d ≠ 0 then freeSmall L p a d
    else
      let freeCnt ← load (a + 8)
      onRam (pallocFreeMultiple a freeCnt)

/-- `realloc`. -/
def realloc (oldBlock : Option ℕ) (newSize : UInt32) : HeapOp (Option ℕ) := do
  if newSize = 0 then
    free L oldBlock
    return none
  else
    let newBlock ← malloc L newSize
    match oldBlock, newBlock with
    | some old, some new => do
      let oldSize ← blockSize old
      let minSize := if newSize.toNat < oldSize then newSize.toNat else oldSize
      memcpy new old minSize
      free L (some old)
      return some new
    | _, newBlock => return newBlock

end Malloc
end Pintos
