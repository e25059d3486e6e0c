import Pintos.Threads.Arenas

/-!
# The calls of the heap

What `malloc`, `free` and `realloc` do to the arenas and to the live blocks. `Inv` is what holds between calls; that
every arena has a live block (`Busy`) is separate, since a new arena has none until a block is taken from it.

* `pushLoop_spec`, `removeLoop_spec` — the loops that put all blocks of an arena into the free list, and take them out;
* `takeBlock_spec`, `refill_spec`, `malloc_spec` — allocation;
* `freeSmall_spec`, `free_spec` — a block is freed, and with the last one its arena;
* `blockSize_eq` — how large a block is.
-/

namespace Pintos
namespace Malloc

open Clib Pintos.Action Vaddr Palloc

variable {L : Layout} {arenas : List Arena} {live : List ℕ} {others : List (ℕ × ℕ)} {h h' : Heap} {A : Arena}
  {a b k : ℕ} {i : Fin 7} {m m' : Memory}

/-! ### Steps -/

@[simp] theorem mem_setMem : (h.setMem m).ram.mem = m := rfl

theorem onRam_eq {α : Type} {x : Op α} {y : α} {r : Ram} (hx : x h.ram = .ok (y, r)) :
    onRam x h = .ok (y, { h with ram := r }) := by
  rw [onRam, hx]
  rfl

theorem onLinks_eq {x : Memory → Except Halt Memory} (hx : x h.ram.mem = .ok m) : onLinks x h = .ok ((), h.setMem m) := by
  rw [onLinks, hx]
  rfl

theorem load_eq {w : ℕ} (hw : h.ram.mem.word a = w) : load a h = .ok (w, h) := by
  rw [← hw]
  rfl

theorem store_eq (a w : ℕ) : store a w h = .ok ((), h.setMem (h.ram.mem.writeWord a w)) := rfl

theorem nodeAt_bind {α : Type} (x : L.nodes.Node) (f : L.nodes.Node → HeapOp α) :
    ((liftM (nodeAt L x.1) : HeapOp L.nodes.Node) >>= f) h = f x h :=
  bind_of_ok (lift_apply (by rw [nodeAt, NodeSpace.node?_val]; rfl))

/-! ### The blocks of an arena -/

/-- The header of an arena of a size class, and the descriptor. -/
structure Ready (L : Layout) (i : Fin 7) (a : ℕ) (m : Memory) : Prop where
  pos : a ≠ 0
  magic : m.word a = arenaMagic
  desc : m.word (a + 4) = L.desc i
  size : m.word (L.desc i) = classSize i
  cnt : m.word (L.desc i + 4) = perArena i

theorem Ready.of_writes {T : L.nodes.Node → Prop} (hr : Ready L i a m) (hw : L.links.Writes T m m') (ha : L.base ≤ a)
    (hmod : a % pgSize = 0) : Ready L i a m' where
  pos := hr.pos
  magic := (header_of_writes hw ha hmod (Nat.zero_le 8)).trans hr.magic
  desc := (header_of_writes hw ha hmod (by decide)).trans hr.desc
  size := (field_of_writes hw i (Nat.zero_le 4)).trans hr.size
  cnt := (field_of_writes hw i (Nat.le_refl 4)).trans hr.cnt

theorem arenaToBlock_eq (hr : Ready L i a h.ram.mem) (hk : k < perArena i) :
    arenaToBlock a k h = .ok (a + arenaSize + k * classSize i, h) := by
  rw [arenaToBlock, bind_of_ok get_apply, lift_assert_bind hr.pos, lift_assert_bind hr.magic]
  rw [hr.desc, lift_assert_bind (by rw [hr.cnt]; exact hk), hr.size]
  rfl

theorem blockAddr_ne (i : Fin 7) {a k k' : ℕ} (hne : k ≠ k') :
    a + arenaSize + k * classSize i ≠ a + arenaSize + k' * classSize i := by
  have hpos : 0 < classSize i := by
    have := (classSize_bounds i).1
    omega
  intro heq
  exact hne (Nat.eq_of_mul_eq_mul_right hpos (Nat.add_left_cancel heq))

/-- The loop that puts blocks at the end of the free list. -/
theorem pushLoop_spec (ks : List ℕ) {l : List L.nodes.Node} (hr : Ready L i a h.ram.mem) (ha : L.base ≤ a)
    (hmod : a % pgSize = 0) (hks : ∀ k ∈ ks, k < perArena i) (hnodup : ks.Nodup)
    (hnode : ∀ k ∈ ks, L.IsNode (a + arenaSize + k * classSize i))
    (hl : L.links.IsList h.ram.mem (L.head i) (L.tail i) l)
    (hnew : ∀ k ∈ ks, ∀ x ∈ L.head i :: (l ++ [L.tail i]), x.1 ≠ a + arenaSize + k * classSize i) :
    ∃ m' l', ks.forM (pushBlock L (L.desc i) a) h = .ok (⟨⟩, h.setMem m') ∧
      L.links.IsList m' (L.head i) (L.tail i) l' ∧
      (∀ x, x ∈ l' ↔ x ∈ l ∨ ∃ k ∈ ks, x.1 = a + arenaSize + k * classSize i) ∧
      L.links.Writes (fun x => x ∈ L.head i :: (l ++ [L.tail i]) ∨ ∃ k ∈ ks, x.1 = a + arenaSize + k * classSize i)
        h.ram.mem m' := by
  induction ks generalizing l h with
  | nil => exact ⟨h.ram.mem, l, rfl, hl, by simp, .refl⟩
  | cons k ks ih =>
    obtain ⟨hk, hks'⟩ := List.forall_mem_cons.mp hks
    obtain ⟨hknot, hnodup'⟩ := List.nodup_cons.mp hnodup
    obtain ⟨hnk, hnode'⟩ := List.forall_mem_cons.mp hnode
    obtain ⟨hnew, hnew'⟩ := List.forall_mem_cons.mp hnew
    obtain ⟨x, hx⟩ : ∃ x : L.nodes.Node, x.1 = a + arenaSize + k * classSize i := ⟨⟨_, hnk⟩, rfl⟩
    have hxl : x ∉ L.head i :: (l ++ [L.tail i]) := fun hin => hnew x hin hx
    obtain ⟨m₁, hpush, hl₁, hw₁⟩ := pushBack_isList hl hxl
    have hstep : pushBlock L (L.desc i) a k h = .ok ((), h.setMem m₁) := by
      rw [pushBlock, bind_of_ok (arenaToBlock_eq hr hk), ← hx, nodeAt_bind x]
      exact (nodeAt_bind (L.tail i) _).trans (onLinks_eq hpush)
    obtain ⟨m', l', hloop, hl', hmem', hw'⟩ := ih (h := h.setMem m₁) (hr.of_writes hw₁ ha hmod) hks' hnodup' hnode' hl₁ (by
      intro k' hk' y hy
      by_cases hyx : y = x
      · rw [hyx, hx]
        exact blockAddr_ne i fun heq => hknot (heq ▸ hk')
      · refine hnew' k' hk' y ?_
        simp only [List.mem_cons, List.mem_append, List.not_mem_nil, or_false] at hy ⊢
        tauto)
    refine ⟨m', l', ?_, hl', fun y => ?_, ?_⟩
    · exact (bind_of_ok hstep).trans hloop
    · rw [hmem', List.mem_append, List.mem_singleton, or_assoc, List.exists_mem_cons_iff, ← hx, ← Subtype.ext_iff]
    · refine (hw₁.mono fun y hy => ?_).trans (hw'.mono fun y hy => ?_)
      · rcases List.mem_cons.mp hy with rfl | hy
        · exact .inr ⟨k, List.mem_cons_self, hx⟩
        · exact .inl hy
      · rcases hy with hy | ⟨k', hk', hy⟩
        · by_cases hyx : y = x
          · exact .inr ⟨k, List.mem_cons_self, hyx ▸ hx⟩
          · refine .inl ?_
            simp only [List.mem_cons, List.mem_append, List.not_mem_nil, or_false] at hy ⊢
            tauto
        · exact .inr ⟨k', List.mem_cons_of_mem k hk', hy⟩

/-- The loop that takes blocks out of the free list. -/
theorem removeLoop_spec {ks : List ℕ} {l : List L.nodes.Node} (hr : Ready L i a h.ram.mem) (ha : L.base ≤ a)
    (hmod : a % pgSize = 0) (hks : ∀ k ∈ ks, k < perArena i) (hnodup : ks.Nodup)
    (hl : L.links.IsList h.ram.mem (L.head i) (L.tail i) l)
    (hin : ∀ k ∈ ks, ∃ x ∈ l, x.1 = a + arenaSize + k * classSize i) :
    ∃ m' l', ks.forM (removeBlock L a) h = .ok (⟨⟩, h.setMem m') ∧
      L.links.IsList m' (L.head i) (L.tail i) l' ∧
      (∀ x, x ∈ l' ↔ x ∈ l ∧ ∀ k ∈ ks, x.1 ≠ a + arenaSize + k * classSize i) ∧
      L.links.Writes (· ∈ L.head i :: (l ++ [L.tail i])) h.ram.mem m' := by
  induction ks generalizing l h with
  | nil => exact ⟨h.ram.mem, l, rfl, hl, by simp, .refl⟩
  | cons k ks ih =>
    obtain ⟨hk, hks'⟩ := List.forall_mem_cons.mp hks
    obtain ⟨hknot, hnodup'⟩ := List.nodup_cons.mp hnodup
    obtain ⟨⟨x, hxl, hx⟩, hin'⟩ := List.forall_mem_cons.mp hin
    obtain ⟨l₁, l₂, rfl⟩ := List.append_of_mem hxl
    obtain ⟨q, m₁, hrem, -, hl₁, hw₁⟩ := remove_isList hl
    have hstep : removeBlock L a k h = .ok ((), h.setMem m₁) := by
      rw [removeBlock, bind_of_ok (arenaToBlock_eq hr hk), ← hx, nodeAt_bind x]
      refine onLinks_eq ?_
      rw [hrem]
      rfl
    -- what is left are the nodes other than `x`
    have hleft : ∀ y, y ∈ l₁ ++ l₂ ↔ y ∈ l₁ ++ x :: l₂ ∧ y ≠ x := by
      have hnd : (l₁ ++ x :: l₂).Nodup := (List.nodup_append.mp (List.nodup_cons.mp hl.nodup).2).1
      have hperm : (l₁ ++ x :: l₂).Perm (x :: (l₁ ++ l₂)) := List.perm_middle
      have hxnot := (List.nodup_cons.mp (hperm.nodup_iff.mp hnd)).1
      intro y
      rw [hperm.mem_iff, List.mem_cons]
      constructor
      · exact fun hy => ⟨.inr hy, fun heq => hxnot (heq ▸ hy)⟩
      · rintro ⟨hy | hy, hne⟩
        · exact absurd hy hne
        · exact hy
    obtain ⟨m', l', hloop, hl', hmem', hw'⟩ := ih (h := h.setMem m₁) (hr.of_writes hw₁ ha hmod) hks' hnodup' hl₁ (by
      intro k' hk'
      obtain ⟨y, hy, hyk⟩ := hin' k' hk'
      refine ⟨y, (hleft y).mpr ⟨hy, fun heq => ?_⟩, hyk⟩
      rw [heq, hx] at hyk
      exact blockAddr_ne i (fun heq : k = k' => hknot (heq ▸ hk')) hyk)
    have hsub : ∀ y, y ∈ L.head i :: (l₁ ++ l₂ ++ [L.tail i]) → y ∈ L.head i :: (l₁ ++ x :: l₂ ++ [L.tail i]) := fun y hy =>
      ((((List.sublist_cons_self x l₂).append_left l₁).append_right _).cons_cons _).subset hy
    refine ⟨m', l', ?_, hl', fun y => ?_, (hw₁.mono hsub).trans (hw'.mono hsub)⟩
    · exact (bind_of_ok hstep).trans hloop
    · rw [hmem', hleft, List.forall_mem_cons, ← hx, and_assoc, Ne, Ne, Subtype.ext_iff]

/-! ### Between calls -/

/-- What holds between calls. -/
structure Inv (L : Layout) (arenas : List Arena) (live : List ℕ) (others : List (ℕ × ℕ)) (h : Heap) : Prop where
  placed : Placed L arenas others h.ram
  descCnt : h.descCnt = 7
  books : Books L arenas live h.ram.mem
  liveIn : ∀ p ∈ live, ∃ A ∈ arenas, p ∈ A.blocks L
  nodup : live.Nodup

/-- Every arena has a live block. -/
def Busy (L : Layout) (arenas : List Arena) (live : List ℕ) : Prop := ∀ A ∈ arenas, ∃ p ∈ A.blocks L, p ∈ live

/-- The live blocks keep their contents. -/
def Keeps (L : Layout) (arenas : List Arena) (live : List ℕ) (m m' : Memory) : Prop :=
  ∀ A ∈ arenas, ∀ b ∈ A.blocks L, b ∈ live → ∀ k < A.len, m' (b + k) = m (b + k)

theorem Placed.setMem {r : Ram} (hp : Placed L arenas others r) (m : Memory) :
    Placed L arenas others { r with mem := m } where
  valid := ⟨hp.valid.kernel_aligned, hp.valid.user_aligned, hp.valid.kernel_pos, hp.valid.order, hp.valid.fits⟩
  base := hp.base
  pages := hp.pages
  owns := hp.owns

theorem addr_ne_zero : A.addr L ≠ 0 := by
  have := L.descs_pos
  have := L.descs_le
  have := Arena.base_le_addr (L := L) (A := A)
  omega

theorem desc_ne_zero : L.desc i ≠ 0 := by
  have := L.descs_pos
  have := L.desc_bounds i
  omega

theorem Books.ready (hb : Books L arenas live m) (hA : A ∈ arenas) (hk : A.kind = .small i) : Ready L i (A.addr L) m where
  pos := addr_ne_zero
  magic := (hb.header A hA).1
  desc := by
    rw [(hb.header A hA).2.1]
    simp only [Arena.desc, hk]
  size := (hb.descs i).1
  cnt := (hb.descs i).2

/-- The assertions of `block_to_arena`, for a block of a size class. -/
theorem blockToArena_small (hr : Ready L i (A.addr L) h.ram.mem) (hk : A.kind = .small i) (hb : b ∈ A.blocks L) :
    blockToArena b h = .ok (A.addr L, h) := by
  rw [blockToArena, bind_of_ok get_apply, Arena.round_of_mem_blocks hb, lift_assert_bind hr.pos,
    lift_assert_bind hr.magic, hr.desc, hr.size, lift_assert_bind (.inr (Arena.index_of_mem_blocks hk hb)),
    lift_assert_bind (.inl desc_ne_zero)]
  rfl

/-- **`block_to_arena`** finds the arena of a block, and its assertions hold. -/
theorem blockToArena_eq (hb : Books L arenas live h.ram.mem) (hA : A ∈ arenas) (hp : b ∈ A.blocks L) :
    blockToArena b h = .ok (A.addr L, h) := by
  cases hk : A.kind with
  | small i => exact blockToArena_small (hb.ready hA hk) hk hp
  | large cnt pos =>
    obtain ⟨hmagic, hdesc, -⟩ := hb.header A hA
    simp only [Arena.desc, hk] at hdesc
    have hofs : b % pgSize = arenaSize := by
      have hmod := Arena.addr_mod (L := L) (A := A)
      simp only [Arena.blocks, hk, List.mem_singleton] at hp
      unfold pgSize arenaSize at *
      omega
    rw [blockToArena, bind_of_ok get_apply, Arena.round_of_mem_blocks hp, lift_assert_bind addr_ne_zero,
      lift_assert_bind hmagic, lift_assert_bind (.inl hdesc), lift_assert_bind (.inr hofs)]
    rfl

/-! ### Taking a block -/

theorem popFree_spec {x : L.nodes.Node} {l : List L.nodes.Node}
    (hl : L.links.IsList h.ram.mem (L.head i) (L.tail i) (x :: l)) :
    ∃ m', popFree L (L.desc i) h = .ok (x.1, h.setMem m') ∧ L.links.IsList m' (L.head i) (L.tail i) l ∧
      L.links.Writes (· ∈ L.head i :: (l ++ [L.tail i])) h.ram.mem m' := by
  obtain ⟨m', hpop, hl', hw⟩ := popFront_isList hl
  refine ⟨m', ?_, hl', hw⟩
  refine (nodeAt_bind (L.head i) _).trans ((nodeAt_bind (L.tail i) _).trans ?_)
  rw [bind_of_ok get_apply, bind_of_ok (lift_apply hpop)]
  rfl

/-- The nodes of the free list of a size class. -/
theorem ofClass_of_mem {l : List L.nodes.Node}
    (hl : ∀ x ∈ l, ∃ A ∈ arenas, A.kind = .small i ∧ x.1 ∈ A.blocks L ∧ x.1 ∉ live) {x : L.nodes.Node}
    (hx : x ∈ L.head i :: (l ++ [L.tail i])) : OfClass L arenas live i x := by
  rcases List.mem_cons.mp hx with rfl | hx
  · exact .inl rfl
  · rcases List.mem_append.mp hx with hx | hx
    · exact .inr (.inr (hl x hx))
    · exact .inr (.inl (List.mem_singleton.mp hx))

/-- The first block of the free list becomes live. -/
theorem takeBlock_spec (hinv : Inv L arenas live others h) {x : L.nodes.Node} {l : List L.nodes.Node}
    (hl : L.links.IsList h.ram.mem (L.head i) (L.tail i) (x :: l))
    (hmem : ∀ y, y ∈ x :: l ↔ ∃ A ∈ arenas, A.kind = .small i ∧ y.1 ∈ A.blocks L ∧ y.1 ∉ live) :
    ∃ m', takeBlock L (L.desc i) h = .ok (x.1, h.setMem m') ∧ Inv L arenas (x.1 :: live) others (h.setMem m') ∧
      Keeps L arenas live h.ram.mem m' := by
  obtain ⟨A, hA, hk, hb, hnot⟩ := (hmem x).mp List.mem_cons_self
  obtain ⟨m₁, hpop, hl₁, hw₁⟩ := popFree_spec hl
  have hnodes : ∀ y ∈ l, ∃ A ∈ arenas, A.kind = .small i ∧ y.1 ∈ A.blocks L ∧ y.1 ∉ live := fun y hy =>
    (hmem y).mp (List.mem_cons_of_mem x hy)
  have hw : L.links.Writes (OfClass L arenas live i) h.ram.mem m₁ := hw₁.mono fun y hy => ofClass_of_mem hnodes hy
  have hready : Ready L i (A.addr L) m₁ :=
    (hinv.books.ready hA hk).of_writes hw Arena.base_le_addr Arena.addr_mod
  have hcnt : A.freeCnt L live = A.freeCnt L (x.1 :: live) + 1 :=
    Arena.freeCnt_of_insert hk hb List.mem_cons_self hnot fun p hne => by simp [hne]
  have hle : A.freeCnt L live ≤ 255 := Nat.le_trans (Arena.freeCnt_le hk) (classSize_bounds i).2.2.2.2
  have hload : m₁.word (A.addr L + 8) = A.freeCnt L live :=
    (header_of_writes hw Arena.base_le_addr Arena.addr_mod (Nat.le_refl 8)).trans (hinv.books.header A hA).2.2
  have hnew : (A.freeCnt L live + 2 ^ 32 - 1) % 2 ^ 32 = A.freeCnt L (x.1 :: live) := by omega
  have hxl : x ∉ l := (List.nodup_cons.mp (List.nodup_append.mp (List.nodup_cons.mp hl.nodup).2).1).1
  refine ⟨m₁.writeWord (A.addr L + 8) (A.freeCnt L (x.1 :: live)), ?_, ⟨hinv.placed.setMem _, hinv.descCnt, ?_, ?_, ?_⟩, ?_⟩
  · rw [takeBlock, bind_of_ok hpop, bind_of_ok (blockToArena_small hready hk hb)]
    rw [bind_of_ok (load_eq hload), hnew]
    rfl
  · refine hinv.books.change hinv.placed hA hk hb (fun p hne => by simp [hne]) hw hl₁ fun y => ?_
    constructor
    · intro hy
      obtain ⟨A', hA', hk', hb', hnot'⟩ := hnodes y hy
      refine ⟨A', hA', hk', hb', fun hin => ?_⟩
      rcases List.mem_cons.mp hin with heq | hin
      · exact hxl (Subtype.ext heq ▸ hy)
      · exact hnot' hin
    · rintro ⟨A', hA', hk', hb', hnot'⟩
      rw [List.mem_cons, not_or] at hnot'
      rcases List.mem_cons.mp ((hmem y).mpr ⟨A', hA', hk', hb', hnot'.2⟩) with rfl | hy
      · exact absurd rfl hnot'.1
      · exact hy
  · intro p hp
    rcases List.mem_cons.mp hp with rfl | hp
    · exact ⟨A, hA, hb⟩
    · exact hinv.liveIn p hp
  · exact List.nodup_cons.mpr ⟨hnot, hinv.nodup⟩
  · intro A' hA' p hp hlive k hk'
    have hapart := hinv.placed.block_header_apart hA' hA hp
    rw [Memory.writeWord_of_not_mem _ _ (by omega)]
    exact block_of_writes hinv.placed hw hA' hp hlive hk'

/-! ### New arenas -/

section NewArena

variable {r : Ram} {bm : Bitmap} {A' : Arena}

/-- The heap gets pages. -/
theorem Placed.add (hp : Placed L arenas others r)
    (hheld : Pool.Held ⟨bm, A.range :: (arenas.map Arena.range ++ others)⟩)
    (hcnt : bm.bitCnt = r.kernelPool.usedMap.bitCnt) :
    Placed L (A :: arenas) others (r.gotten false false A.page A.pages bm) :=
  ⟨hp.valid.gotten hcnt, hp.base, hcnt.trans hp.pages, hheld⟩

theorem Placed.head_apart (hp : Placed L (A :: arenas) others r) (hA' : A' ∈ arenas) :
    A.addr L + 4096 * A.pages ≤ A'.addr L ∨ A'.addr L + 4096 * A'.pages ≤ A.addr L :=
  addr_apart ((List.pairwise_cons.mp hp.owns.apart).1 _ (List.mem_append_left _ (List.mem_map_of_mem hA')))

/-- The private bytes are not in the pages of a new arena. -/
theorem private_outside (hp : Placed L (A :: arenas) others r) (ha : Private L arenas live a) :
    a < A.addr L ∨ A.addr L + 4096 * A.pages ≤ a := by
  have hbase := Arena.base_le_addr (L := L) (A := A)
  rcases ha with ⟨-, ha⟩ | ⟨A', hA', ha⟩ | ⟨A', hA', b, hb, -, ha⟩
  · have := L.descs_le
    omega
  · have hapart := hp.head_apart hA'
    have := A'.pages_pos
    unfold arenaSize at ha
    omega
  · have hapart := hp.head_apart hA'
    obtain ⟨h₁, h₂, -⟩ := Arena.bounds_of_mem_blocks hb
    have := A'.len_ge
    omega

/-- The blocks of a new arena belong to no other one. -/
theorem not_mem_of_new (hp : Placed L (A :: arenas) others r) (hA' : A' ∈ arenas) (hb : b ∈ A.blocks L) :
    b ∉ A'.blocks L := by
  intro hb'
  have hapart := hp.head_apart hA'
  obtain ⟨h₁, h₂, -⟩ := Arena.bounds_of_mem_blocks hb
  obtain ⟨h₃, h₄, -⟩ := Arena.bounds_of_mem_blocks hb'
  have := A.len_ge
  have := A'.len_ge
  omega

theorem not_live_of_new (hinv : Inv L arenas live others h) (hp : Placed L (A :: arenas) others r)
    (hb : b ∈ A.blocks L) : b ∉ live := by
  intro hlive
  obtain ⟨A', hA', hb'⟩ := hinv.liveIn b hlive
  exact not_mem_of_new hp hA' hb hb'

/-- The header of an arena is written. -/
def writeHeader (m : Memory) (a d cnt : ℕ) : Memory :=
  ((m.writeWord a arenaMagic).writeWord (a + 4) d).writeWord (a + 8) cnt

theorem storeHeader_bind {α : Type} (a d cnt : ℕ) (f : HeapOp α) :
    (store a arenaMagic >>= fun _ => store (a + 4) d >>= fun _ => store (a + 8) cnt >>= fun _ => f) h =
      f (h.setMem (writeHeader h.ram.mem a d cnt)) := rfl

theorem writeHeader_outside {x d cnt : ℕ} (hx : x < a ∨ a + 12 ≤ x) : writeHeader m a d cnt x = m x := by
  rw [writeHeader, Memory.writeWord_of_not_mem _ _ (by omega), Memory.writeWord_of_not_mem _ _ (by omega),
    Memory.writeWord_of_not_mem _ _ (by omega)]

theorem writeHeader_words {d cnt : ℕ} (hd : d < 2 ^ 32) (hcnt : cnt < 2 ^ 32) :
    (writeHeader m a d cnt).word a = arenaMagic ∧ (writeHeader m a d cnt).word (a + 4) = d ∧
      (writeHeader m a d cnt).word (a + 8) = cnt := by
  rw [writeHeader]
  refine ⟨?_, ?_, Memory.word_writeWord_self _ _ hcnt⟩
  · rw [Memory.word_writeWord_of_disjoint _ _ (by omega), Memory.word_writeWord_of_disjoint _ _ (by omega),
      Memory.word_writeWord_self _ _ (by decide)]
  · rw [Memory.word_writeWord_of_disjoint _ _ (by omega), Memory.word_writeWord_self _ _ hd]

/-- The books of the other arenas, when the header of a new one has been written. -/
theorem Books.writeHeader (hb : Books L arenas live m) (hp : Placed L (A :: arenas) others r) (d cnt : ℕ) :
    Books L arenas live (writeHeader m (A.addr L) d cnt) := by
  refine hb.congr fun a ha => writeHeader_outside ?_
  have := private_outside hp ha
  have := A.pages_pos
  omega

/-- The blocks of other arenas are not in the header of a new one. -/
theorem keeps_writeHeader (live : List ℕ) (hp : Placed L (A :: arenas) others r) (d cnt : ℕ) :
    Keeps L arenas live m (Malloc.writeHeader m (A.addr L) d cnt) := by
  intro A' hA' b hb _ k hk
  refine writeHeader_outside ?_
  have hapart := hp.head_apart hA'
  obtain ⟨h₁, h₂, -⟩ := Arena.bounds_of_mem_blocks hb
  have := A.pages_pos
  omega

theorem desc_lt : L.desc i < 2 ^ 32 := by
  have := L.desc_bounds i
  have := L.fits
  omega

/-- The books with a new arena of a size class whose free list was empty. -/
theorem Books.addSmall (hb : Books L arenas live m) (hp : Placed L (A :: arenas) others r) (hk : A.kind = .small i)
    (hnew : ∀ p ∈ A.blocks L, p ∉ live) (hempty : ∀ A' ∈ arenas, A'.kind = .small i → ∀ p ∈ A'.blocks L, p ∈ live)
    (hheader : m.word (A.addr L) = arenaMagic ∧ m.word (A.addr L + 4) = L.desc i ∧ m.word (A.addr L + 8) = perArena i)
    (hw : L.links.Writes (OfClass L (A :: arenas) live i) m m') {l : List L.nodes.Node}
    (hl : L.links.IsList m' (L.head i) (L.tail i) l) (hmem : ∀ x, x ∈ l ↔ x.1 ∈ A.blocks L) :
    Books L (A :: arenas) live m' := by
  have hword : ∀ A' : Arena, ∀ o ≤ 8, m'.word (A'.addr L + o) = m.word (A'.addr L + o) := fun A' o ho =>
    header_of_writes hw Arena.base_le_addr Arena.addr_mod ho
  refine ⟨fun j => ?_, fun A' hA' => ?_, fun j => ?_⟩
  · rw [field_of_writes hw j (Nat.le_refl 4),
      show m'.word (L.desc j) = m.word (L.desc j) from field_of_writes hw j (Nat.zero_le 4)]
    exact hb.descs j
  · rw [hword A' 4 (by decide), hword A' 8 (by decide),
      show m'.word (A'.addr L) = m.word (A'.addr L) from hword A' 0 (by decide)]
    rcases List.mem_cons.mp hA' with rfl | hA'
    · rw [(Arena.freeCnt_eq_perArena hk).mpr hnew, Arena.desc, hk]
      exact hheader
    · exact hb.header A' hA'
  · by_cases heq : j = i
    · subst heq
      refine ⟨l, hl, fun x => (hmem x).trans ⟨fun hx => ⟨A, List.mem_cons_self, hk, hx, hnew _ hx⟩, ?_⟩⟩
      rintro ⟨A', hA', hk', hx, hnot⟩
      rcases List.mem_cons.mp hA' with rfl | hA'
      · exact hx
      · exact absurd (hempty A' hA' hk' _ hx) hnot
    · obtain ⟨l', hl', hmem'⟩ := hb.lists j
      have hmem'' : ∀ x, x ∈ l' ↔ ∃ A' ∈ A :: arenas, A'.kind = .small j ∧ x.1 ∈ A'.blocks L ∧ x.1 ∉ live := by
        intro x
        rw [hmem', List.exists_mem_cons_iff]
        refine (or_iff_right ?_).symm
        rintro ⟨hk', -⟩
        exact heq (Kind.small.inj (hk'.symm.trans hk))
      exact ⟨l', list_of_writes hp (Ne.symm heq) hw hl' fun x hx => (hmem'' x).mp hx, hmem''⟩

end NewArena

theorem mem_range_iff_blocks (hk : A.kind = .small i) :
    (∃ k ∈ List.range (perArena i), b = A.addr L + arenaSize + k * classSize i) ↔ b ∈ A.blocks L := by
  rw [Arena.mem_blocks_small hk]
  simp only [List.mem_range]

/-- A new arena of a size class, with all its blocks in the free list. -/
theorem newArena_spec (hinv : Inv L arenas live others h) {r : Ram} (hp : Placed L (A :: arenas) others r)
    (hk : A.kind = .small i)
    (hempty : ∀ A' ∈ arenas, A'.kind = .small i → ∀ p ∈ A'.blocks L, p ∈ live)
    (hl : L.links.IsList h.ram.mem (L.head i) (L.tail i) []) :
    ∃ m', (List.range (perArena i)).forM (pushBlock L (L.desc i) (A.addr L))
        { h with ram := { r with mem := writeHeader h.ram.mem (A.addr L) (L.desc i) (perArena i) } } =
        .ok (⟨⟩, { h with ram := { r with mem := m' } }) ∧
      Inv L (A :: arenas) live others { h with ram := { r with mem := m' } } ∧ Keeps L arenas live h.ram.mem m' := by
  have hnew : ∀ p ∈ A.blocks L, p ∉ live := fun p hp' => not_live_of_new hinv hp hp'
  have hwords := writeHeader_words (m := h.ram.mem) (a := A.addr L) (desc_lt (L := L) (i := i))
    (show perArena i < 2 ^ 32 by have := (classSize_bounds i).2.2.2.2; omega)
  have hbooks := hinv.books.writeHeader hp (L.desc i) (perArena i)
  have hready : Ready L i (A.addr L) (writeHeader h.ram.mem (A.addr L) (L.desc i) (perArena i)) :=
    ⟨addr_ne_zero, hwords.1, hwords.2.1, (hbooks.descs i).1, (hbooks.descs i).2⟩
  -- the sentinels are not in the page
  have houtside : ∀ x ∈ [L.head i, L.tail i], x.1 + 8 ≤ A.addr L := by
    have hle := (L.desc_bounds i).2
    have hbase := Arena.base_le_addr (L := L) (A := A)
    intro x hx
    rcases List.mem_cons.mp hx with rfl | hx
    · change L.desc i + 8 + 8 ≤ _
      omega
    · rw [List.mem_singleton.mp hx]
      change L.desc i + 16 + 8 ≤ _
      omega
  have hl₁ : L.links.IsList (writeHeader h.ram.mem (A.addr L) (L.desc i) (perArena i)) (L.head i) (L.tail i) [] :=
    NodeSpace.isList_congr hl fun x hx k hk => writeHeader_outside (by have := houtside x hx; omega)
  obtain ⟨m', l', hloop, hl', hmem', hw⟩ := pushLoop_spec
    (h := { h with ram := { r with mem := writeHeader h.ram.mem (A.addr L) (L.desc i) (perArena i) } })
    (List.range (perArena i)) hready Arena.base_le_addr Arena.addr_mod (fun k hk => List.mem_range.mp hk)
    List.nodup_range
    (fun k hk' => hp.isNode_block List.mem_cons_self ((mem_range_iff_blocks hk).mp ⟨k, hk', rfl⟩)) hl₁
    (fun k _ x hx => by have := houtside x hx; unfold arenaSize; omega)
  have hclass : L.links.Writes (OfClass L (A :: arenas) live i)
      (writeHeader h.ram.mem (A.addr L) (L.desc i) (perArena i)) m' := by
    refine hw.mono fun x hx => ?_
    rcases hx with hx | hx
    · rcases List.mem_cons.mp hx with rfl | hx
      · exact .inl rfl
      · exact .inr (.inl (List.mem_singleton.mp hx))
    · have hb := (mem_range_iff_blocks hk).mp hx
      exact .inr (.inr ⟨A, List.mem_cons_self, hk, hb, hnew _ hb⟩)
  refine ⟨m', hloop, ⟨hp.setMem m', hinv.descCnt, ?_, ?_, hinv.nodup⟩, ?_⟩
  · refine hbooks.addSmall hp hk hnew hempty hwords hclass hl' fun x => ?_
    rw [hmem', mem_range_iff_blocks hk]
    exact or_iff_right List.not_mem_nil
  · intro p hp'
    obtain ⟨A', hA', hb⟩ := hinv.liveIn p hp'
    exact ⟨A', List.mem_cons_of_mem A hA', hb⟩
  · intro A' hA' p hp' hlive k hk'
    rw [block_of_writes hp hclass (List.mem_cons_of_mem A hA') hp' hlive hk']
    exact keeps_writeHeader live hp _ _ A' hA' p hp' hlive k hk'

/-- **A new arena is made if the free list is empty.** If there is no page for it, nothing changes. -/
theorem refill_spec (hinv : Inv L arenas live others h) (i : Fin 7) :
    refill L (L.desc i) h = .ok (false, h) ∨
    ∃ arenas' h', refill L (L.desc i) h = .ok (true, h') ∧ (∀ A ∈ arenas, A ∈ arenas') ∧
      Inv L arenas' live others h' ∧ Keeps L arenas live h.ram.mem h'.ram.mem ∧
      (∃ A ∈ arenas', A.kind = .small i ∧ ∃ p ∈ A.blocks L, p ∉ live) ∧
      ∀ A ∈ arenas', A ∈ arenas ∨
        ∀ A' ∈ arenas', A'.kind = .small i → ∀ p ∈ A'.blocks L, p ∉ live → p ∈ A.blocks L := by
  obtain ⟨l, hl, hmem⟩ := hinv.books.lists i
  have hstart : refill L (L.desc i) h = _ :=
    (nodeAt_bind (L.head i) _).trans ((nodeAt_bind (L.tail i) _).trans
      ((bind_of_ok get_apply).trans (bind_of_ok (lift_apply (listEmpty_eq hl)))))
  cases l with
  | cons x l =>
    -- there is a free block already
    obtain ⟨A, hA, hk, hb, hnot⟩ := (hmem x).mp List.mem_cons_self
    refine .inr ⟨arenas, h, ?_, fun _ hA => hA, hinv, fun _ _ _ _ _ _ _ => rfl, ⟨A, hA, hk, _, hb, hnot⟩, fun _ hA => .inl hA⟩
    rw [hstart, if_neg (by simp)]
    rfl
  | nil =>
    have hempty : ∀ A' ∈ arenas, A'.kind = .small i → ∀ p ∈ A'.blocks L, p ∈ live := by
      intro A' hA' hk' p hp'
      by_contra hnot
      have hnode := hinv.placed.isNode_block hA' hp'
      exact absurd ((hmem ⟨p, hnode⟩).mpr ⟨A', hA', hk', hp', hnot⟩) List.not_mem_nil
    rw [hstart, if_pos (by simp), pallocGetPage]
    rcases getMultiple_spec hinv.placed.valid hinv.placed.owns false Nat.one_ne_zero with
      hget | ⟨idx, bm, hget, hheld, hsets⟩
    · refine .inl ?_
      rw [bind_of_ok (onRam_eq hget)]
      rfl
    · obtain ⟨A, hA⟩ : ∃ A : Arena, A = ⟨idx, .small i⟩ := ⟨_, rfl⟩
      have hk : A.kind = .small i := by rw [hA]
      have hrange : A.range = (idx, 1) := by rw [hA]; rfl
      have hpage : h.ram.page false idx = A.addr L := by
        rw [hA]
        exact congrArg (· + pgSize * idx) hinv.placed.base
      have hp : Placed L (A :: arenas) others (h.ram.gotten false false idx 1 bm) := by
        have hadd := hinv.placed.add (show Pool.Held ⟨bm, A.range :: _⟩ by rw [hrange]; exact hheld) hsets.bitCnt
        rwa [hA] at hadd ⊢
      obtain ⟨m', hloop, hinv', hkeep⟩ := newArena_spec hinv hp hk hempty hl
      have hfirst : ∀ p ∈ A.blocks L, p ∉ live := fun p hp' => not_live_of_new hinv hp hp'
      refine .inr ⟨A :: arenas, _, ?_, fun A' hA' => List.mem_cons_of_mem A hA', hinv', hkeep, ?_, ?_⟩
      · have hload : load (L.desc i + 4) { h with ram := h.ram.gotten false false idx 1 bm } = .ok (perArena i, _) :=
          load_eq (hinv.books.descs i).2
        rw [bind_of_ok (onRam_eq hget), hpage]
        exact (bind_of_ok hload).trans ((storeHeader_bind _ _ _ _).trans (bind_of_ok hloop))
      · refine ⟨A, List.mem_cons_self, hk, A.addr L + arenaSize + 0 * classSize i, ?_, ?_⟩
        · have := (classSize_bounds i).2.2.1
          exact (Arena.mem_blocks_small hk).mpr ⟨0, by omega, rfl⟩
        · have := (classSize_bounds i).2.2.1
          exact hfirst _ ((Arena.mem_blocks_small hk).mpr ⟨0, by omega, rfl⟩)
      · intro A₁ hA₁
        rcases List.mem_cons.mp hA₁ with rfl | hA₁
        · refine .inr fun A' hA' hk' p hp' hnot => ?_
          rcases List.mem_cons.mp hA' with rfl | hA'
          · exact hp'
          · exact absurd (hempty A' hA' hk' p hp') hnot
        · exact .inl hA₁

/-! ### Allocation -/

/-- A block has been allocated. -/
structure Allocated (L : Layout) (arenas : List Arena) (live : List ℕ) (others : List (ℕ × ℕ)) (h : Heap) (p : ℕ)
    (arenas' : List Arena) (h' : Heap) : Prop where
  inv : Inv L arenas' (p :: live) others h'
  busy : Busy L arenas live → Busy L arenas' (p :: live)
  sub : ∀ A ∈ arenas, A ∈ arenas'
  keeps : Keeps L arenas live h.ram.mem h'.ram.mem

theorem mallocSmall_spec (hinv : Inv L arenas live others h) (i : Fin 7) :
    mallocSmall L (L.desc i) h = .ok (none, h) ∨
    ∃ p arenas' h', mallocSmall L (L.desc i) h = .ok (some p, h') ∧ Allocated L arenas live others h p arenas' h' ∧
      ∃ A ∈ arenas', p ∈ A.blocks L ∧ A.kind = .small i := by
  rcases refill_spec hinv i with hfill | ⟨arenas', h₁, hfill, hsub, hinv₁, hkeep₁, ⟨A, hA, hk, q, hq, hqnot⟩, hbusy⟩
  · refine .inl ?_
    rw [mallocSmall, bind_of_ok hfill]
    rfl
  · obtain ⟨l, hl, hmem⟩ := hinv₁.books.lists i
    obtain ⟨x, l, rfl⟩ : ∃ x l', l = x :: l' :=
      List.exists_cons_of_ne_nil (List.ne_nil_of_mem
        ((hmem ⟨q, hinv₁.placed.isNode_block hA hq⟩).mpr ⟨A, hA, hk, hq, hqnot⟩))
    obtain ⟨m', htake, hinv', hkeep'⟩ := takeBlock_spec hinv₁ hl hmem
    obtain ⟨A, hA, hk, hx, hxnot⟩ := (hmem x).mp List.mem_cons_self
    refine .inr ⟨x.1, arenas', h₁.setMem m', ?_, ⟨hinv', fun hold A' hA' => ?_, hsub, ?_⟩, A, hA, hx, hk⟩
    · rw [mallocSmall, bind_of_ok hfill, if_pos rfl, bind_of_ok htake]
      rfl
    · rcases hbusy A' hA' with hA' | hall
      · obtain ⟨p, hp, hlive⟩ := hold A' hA'
        exact ⟨p, hp, List.mem_cons_of_mem _ hlive⟩
      · exact ⟨x.1, hall A hA hk x.1 hx hxnot, List.mem_cons_self⟩
    · intro A' hA' p hp hlive k hk'
      exact (hkeep' A' (hsub A' hA') p hp hlive k hk').trans (hkeep₁ A' hA' p hp hlive k hk')

/-- The pages `malloc` asks for, if no size class is large enough. -/
def pageCntFor (size : UInt32) : ℕ := ((size + 12 + 4096 - 1) / 4096).toNat

theorem mallocLarge_spec (hinv : Inv L arenas live others h) (size : UInt32) :
    mallocLarge size h = .ok (none, h) ∨
    ∃ p arenas' h', mallocLarge size h = .ok (some p, h') ∧ Allocated L arenas live others h p arenas' h' ∧
      ∃ A ∈ arenas', p ∈ A.blocks L ∧ ∃ pos, A.kind = .large (pageCntFor size) pos := by
  rcases Nat.eq_zero_or_pos (pageCntFor size) with hzero | hpos
  · refine .inl ?_
    have hget : pallocGetMultiple ⟨false, false, false⟩ (pageCntFor size) h.ram = .ok (none, h.ram) := by
      rw [pallocGetMultiple, if_pos hzero]
      rfl
    exact bind_of_ok (onRam_eq hget)
  rcases getMultiple_spec hinv.placed.valid hinv.placed.owns false (Nat.ne_of_gt hpos) with
    hget | ⟨idx, bm, hget, hheld, hsets⟩
  · exact .inl (bind_of_ok (onRam_eq hget))
  · obtain ⟨A, hA⟩ : ∃ A : Arena, A = ⟨idx, .large (pageCntFor size) hpos⟩ := ⟨_, rfl⟩
    have hk : A.kind = .large (pageCntFor size) hpos := by rw [hA]
    have hpage : h.ram.page false idx = A.addr L := by
      rw [hA]
      exact congrArg (· + pgSize * idx) hinv.placed.base
    have hp : Placed L (A :: arenas) others (h.ram.gotten false false idx (pageCntFor size) bm) := by
      have hadd := hinv.placed.add (show Pool.Held ⟨bm, A.range :: _⟩ by rw [hA]; exact hheld) hsets.bitCnt
      rwa [hA] at hadd ⊢
    have hblocks : A.blocks L = [A.addr L + arenaSize] := by simp only [Arena.blocks, hk]
    have hb : A.addr L + arenaSize ∈ A.blocks L := by rw [hblocks]; exact List.mem_cons_self
    have hnot := not_live_of_new hinv hp hb
    have hcnt : pageCntFor size < 2 ^ 32 := UInt32.toNat_lt _
    have hbooks := hinv.books.writeHeader hp 0 (pageCntFor size)
    have hwords := writeHeader_words (m := h.ram.mem) (a := A.addr L) (Nat.two_pow_pos 32) hcnt
    refine .inr ⟨A.addr L + arenaSize, A :: arenas,
      { h with ram := { h.ram.gotten false false idx (pageCntFor size) bm with
        mem := writeHeader h.ram.mem (A.addr L) 0 (pageCntFor size) } }, ?_, ⟨⟨hp.setMem _, hinv.descCnt, ?_, ?_, ?_⟩, ?_,
        fun A' hA' => List.mem_cons_of_mem A hA', keeps_writeHeader live hp _ _⟩, A, List.mem_cons_self, hb, hpos, hk⟩
    · refine (bind_of_ok (onRam_eq hget)).trans ?_
      rw [hpage]
      exact storeHeader_bind _ _ _ _
    · refine ⟨hbooks.descs, fun A' hA' => ?_, fun j => ?_⟩
      · rcases List.mem_cons.mp hA' with rfl | hA'
        · simp only [Arena.desc, Arena.freeCnt, hk]
          exact hwords
        · rw [Arena.freeCnt_congr fun p hp' => ?_]
          · exact hbooks.header A' hA'
          · rw [List.mem_cons, or_iff_right]
            rintro rfl
            exact not_mem_of_new hp hA' hb hp'
      · obtain ⟨l, hl, hmem⟩ := hbooks.lists j
        refine ⟨l, hl, fun x => ?_⟩
        rw [hmem, List.exists_mem_cons_iff]
        constructor
        · rintro ⟨A', hA', hk', hx, hxnot⟩
          refine .inr ⟨A', hA', hk', hx, fun hin => ?_⟩
          rcases List.mem_cons.mp hin with heq | hin
          · exact not_mem_of_new hp hA' hb (heq ▸ hx)
          · exact hxnot hin
        · rintro (⟨hk', -⟩ | ⟨A', hA', hk', hx, hxnot⟩)
          · cases hk.symm.trans hk'
          · exact ⟨A', hA', hk', hx, fun hin => hxnot (List.mem_cons_of_mem _ hin)⟩
    · intro p hp'
      rcases List.mem_cons.mp hp' with rfl | hp'
      · exact ⟨A, List.mem_cons_self, hb⟩
      · obtain ⟨A', hA', hb'⟩ := hinv.liveIn p hp'
        exact ⟨A', List.mem_cons_of_mem A hA', hb'⟩
    · exact List.nodup_cons.mpr ⟨hnot, hinv.nodup⟩
    · intro hold A' hA'
      rcases List.mem_cons.mp hA' with rfl | hA'
      · exact ⟨_, hb, List.mem_cons_self⟩
      · obtain ⟨p, hp', hlive⟩ := hold A' hA'
        exact ⟨p, hp', List.mem_cons_of_mem _ hlive⟩

/-- The loop over the descriptors. -/
theorem findDesc_spec (hdescs : ∀ i : Fin 7, m.word (L.desc i) = classSize i ∧ m.word (L.desc i + 4) = perArena i)
    (size : UInt32) {n j : ℕ} (hn : j + n = 7) (hbefore : ∀ i : Fin 7, i.1 < j → classSize i < size.toNat) :
    (∃ i : Fin 7, findDesc m size n (L.desc j) = L.desc i ∧ size.toNat ≤ classSize i) ∨
    findDesc m size n (L.desc j) = L.desc 7 ∧ 1024 < size.toNat := by
  induction n generalizing j with
  | zero =>
    obtain rfl : j = 7 := hn
    exact .inr ⟨rfl, hbefore 6 (by decide)⟩
  | succ n ih =>
    have hj : j < 7 := by omega
    have hword := (hdescs ⟨j, hj⟩).1
    rw [findDesc]
    by_cases hle : size.toNat ≤ classSize ⟨j, hj⟩
    · exact .inl ⟨⟨j, hj⟩, if_pos (by rw [hword]; exact hle), hle⟩
    · rw [if_neg (by rw [hword]; exact hle)]
      refine ih (j := j + 1) (by omega) fun i hi => ?_
      by_cases heq : i.1 = j
      · obtain rfl : i = ⟨j, hj⟩ := Fin.ext heq
        exact Nat.lt_of_not_le hle
      · exact hbefore i (by omega)

theorem desc_inj {i j : ℕ} (h : L.desc i = L.desc j) : i = j := by
  unfold Layout.desc descSize at h
  omega

/-- How large the block is that `malloc` allocates. -/
def Fit (size : UInt32) (A : Arena) : Prop :=
  (∃ i, A.kind = .small i ∧ size.toNat ≤ classSize i) ∨
  1024 < size.toNat ∧ ∃ pos, A.kind = .large (pageCntFor size) pos

/-- **`malloc`** allocates a block, or it changes nothing. -/
theorem malloc_spec (hinv : Inv L arenas live others h) (size : UInt32) :
    malloc L size h = .ok (none, h) ∨
    ∃ p arenas' h', malloc L size h = .ok (some p, h') ∧ Allocated L arenas live others h p arenas' h' ∧
      ∃ A ∈ arenas', p ∈ A.blocks L ∧ Fit size A := by
  rw [malloc]
  by_cases hzero : size = 0
  · rw [if_pos hzero]
    exact .inl rfl
  rw [if_neg hzero, bind_of_ok get_apply, hinv.descCnt]
  rcases findDesc_spec hinv.books.descs size (n := 7) (j := 0) rfl (fun i hi => absurd hi (Nat.not_lt_zero _)) with
    ⟨i, hd, hle⟩ | ⟨hd, hlt⟩
  · rw [hd, if_neg fun heq => absurd (desc_inj heq) (Nat.ne_of_lt i.2)]
    rcases mallocSmall_spec hinv i with hnone | ⟨p, arenas', h', hok, halloc, A, hA, hb, hk⟩
    · exact .inl hnone
    · exact .inr ⟨p, arenas', h', hok, halloc, A, hA, hb, .inl ⟨i, hk, hle⟩⟩
  · rw [hd, if_pos rfl]
    rcases mallocLarge_spec hinv size with hnone | ⟨p, arenas', h', hok, halloc, A, hA, hb, hk⟩
    · exact .inl hnone
    · exact .inr ⟨p, arenas', h', hok, halloc, A, hA, hb, .inr ⟨hlt, hk⟩⟩

/-! ### Freeing -/

section Free

variable {r : Ram}

/-- The books when the blocks of an arena that is not in use have left the free list. -/
theorem Books.removeSmall (hb : Books L (A :: arenas) live m) (hp : Placed L (A :: arenas) others r)
    (hk : A.kind = .small i) (hw : L.links.Writes (OfClass L (A :: arenas) live i) m m') {l l' : List L.nodes.Node}
    (hmem : ∀ x, x ∈ l ↔ ∃ A' ∈ A :: arenas, A'.kind = .small i ∧ x.1 ∈ A'.blocks L ∧ x.1 ∉ live)
    (hl' : L.links.IsList m' (L.head i) (L.tail i) l') (hmem' : ∀ x, x ∈ l' ↔ x ∈ l ∧ x.1 ∉ A.blocks L) :
    Books L arenas live m' := by
  have hword : ∀ A' : Arena, ∀ o ≤ 8, m'.word (A'.addr L + o) = m.word (A'.addr L + o) := fun A' o ho =>
    header_of_writes hw Arena.base_le_addr Arena.addr_mod ho
  refine ⟨fun j => ?_, fun A' hA' => ?_, fun j => ?_⟩
  · rw [field_of_writes hw j (Nat.le_refl 4),
      show m'.word (L.desc j) = m.word (L.desc j) from field_of_writes hw j (Nat.zero_le 4)]
    exact hb.descs j
  · rw [hword A' 4 (by decide), hword A' 8 (by decide),
      show m'.word (A'.addr L) = m.word (A'.addr L) from hword A' 0 (by decide)]
    exact hb.header A' (List.mem_cons_of_mem A hA')
  · by_cases heq : j = i
    · subst heq
      refine ⟨l', hl', fun x => ?_⟩
      rw [hmem', hmem, List.exists_mem_cons_iff]
      constructor
      · rintro ⟨⟨-, hx, -⟩ | hx, hnot⟩
        · exact absurd hx hnot
        · exact hx
      · rintro ⟨A', hA', hk', hx, hlive⟩
        exact ⟨.inr ⟨A', hA', hk', hx, hlive⟩, fun hin => not_mem_of_new hp hA' hin hx⟩
    · obtain ⟨l₀, hl₀, hmem₀⟩ := hb.lists j
      refine ⟨l₀, list_of_writes hp (Ne.symm heq) hw hl₀ fun x hx => (hmem₀ x).mp hx, fun x => ?_⟩
      rw [hmem₀, List.exists_mem_cons_iff]
      refine or_iff_right ?_
      rintro ⟨hk', -⟩
      exact heq (Kind.small.inj (hk'.symm.trans hk))

/-- The pages of an arena are given back. -/
theorem Placed.remove (hp : Placed L (A :: arenas) others r) :
    ∃ bm, pallocFreeMultiple (A.addr L) A.pages r = .ok ((), r.freed false A.page A.pages bm) ∧
      Placed L arenas others (r.freed false A.page A.pages bm) ∧
      (r.freed false A.page A.pages bm).mem = r.mem.fill (A.addr L) (4096 * A.pages) 0xcc ∧
      ∀ j, A.page ≤ j → j < A.page + A.pages → bm.bit j = false := by
  have hpage : r.page false A.page = A.addr L := congrArg (· + pgSize * A.page) hp.base
  obtain ⟨bm, hfree, hheld, hsets⟩ := freeMultiple_spec hp.valid hp.owns
    (show (A.page, A.pages) ∈ _ from List.mem_cons_self) (Nat.ne_of_gt A.pages_pos)
  rw [hpage] at hfree
  refine ⟨bm, hfree, ?_, ?_, fun j hj hj' => hsets.set j ⟨hj, hj'⟩⟩
  · refine ⟨hp.valid.freed hsets.bitCnt, hp.base, hsets.bitCnt.trans hp.pages, ?_⟩
    have herase : (A.range :: (arenas.map Arena.range ++ others)).erase A.range = arenas.map Arena.range ++ others :=
      List.erase_cons_head _ _
    exact herase ▸ hheld
  · rw [← hpage]
    rfl

/-- `memset` of the pages of an arena. -/
theorem Books.fillArena (hb : Books L arenas live m) (hp : Placed L (A :: arenas) others r) (v : UInt8) :
    Books L arenas live (m.fill (A.addr L) (4096 * A.pages) v) :=
  hb.congr fun _ ha => Memory.fill_of_not_mem _ _ (private_outside hp ha)

theorem keeps_fillArena (live : List ℕ) (hp : Placed L (A :: arenas) others r) (v : UInt8) :
    Keeps L arenas live m (m.fill (A.addr L) (4096 * A.pages) v) := by
  intro A' hA' b hb _ k hk
  refine Memory.fill_of_not_mem _ _ ?_
  have hapart := hp.head_apart hA'
  obtain ⟨h₁, h₂, -⟩ := Arena.bounds_of_mem_blocks hb
  omega

/-- What is written into a live block does not matter. -/
theorem Books.inBlock (hb : Books L arenas live m) (hp : Placed L arenas others r) (hA : A ∈ arenas)
    (hbl : b ∈ A.blocks L) (hlive : b ∈ live) (hout : ∀ x, x < b ∨ b + A.len ≤ x → m' x = m x) : Books L arenas live m' := by
  have hbounds := (Arena.bounds_of_mem_blocks hbl).1
  have hbase := Arena.base_le_addr (L := L) (A := A)
  refine hb.congr fun a ha => hout a ?_
  rcases ha with ⟨-, ha⟩ | ⟨A', hA', ha⟩ | ⟨A', hA', b', hb', hnot, ha⟩
  · have := L.descs_le
    omega
  · have := hp.block_header_apart hA hA' hbl
    unfold arenaSize at ha
    omega
  · have := hp.blocks_apart hA hA' hbl hb' fun heq => hnot (heq ▸ hlive)
    have := A'.len_ge
    omega

/-- The blocks of an arena with no live block leave the free list, and its page is given back. -/
theorem freeArena_spec (hinv : Inv L (A :: arenas) live others h) (hk : A.kind = .small i) :
    ∃ h', freeArena L (L.desc i) (A.addr L) (A.freeCnt L live) h = .ok ((), h') ∧
      Keeps L (A :: arenas) live h.ram.mem h'.ram.mem ∧
      ((∃ q ∈ A.blocks L, q ∈ live) ∧ Inv L (A :: arenas) live others h' ∨
        (∀ q ∈ A.blocks L, q ∉ live) ∧ Inv L arenas live others h' ∧ h'.ram.kernelPool.usedMap.bit A.page = false) := by
  have hp := hinv.placed
  have hload : load (L.desc i + 4) h = .ok (perArena i, h) := load_eq (hinv.books.descs i).2
  have hle : A.freeCnt L live ≤ perArena i := Arena.freeCnt_le hk
  rw [freeArena, bind_of_ok hload]
  by_cases hall : ∀ q ∈ A.blocks L, q ∉ live
  · have hcnt := (Arena.freeCnt_eq_perArena hk).mpr hall
    rw [if_pos (Nat.le_of_eq hcnt.symm), lift_assert_bind hcnt]
    obtain ⟨l, hl, hmem⟩ := hinv.books.lists i
    obtain ⟨m₁, l₁, hloop, hl₁, hmem₁, hw₁⟩ := removeLoop_spec (hinv.books.ready List.mem_cons_self hk)
      Arena.base_le_addr Arena.addr_mod (fun k hk => List.mem_range.mp hk) List.nodup_range hl (by
        intro k hk'
        have hb := (mem_range_iff_blocks (L := L) hk).mp ⟨k, hk', rfl⟩
        exact ⟨⟨_, hp.isNode_block List.mem_cons_self hb⟩,
          (hmem _).mpr ⟨A, List.mem_cons_self, hk, hb, hall _ hb⟩, rfl⟩)
    have hw := hw₁.mono fun x hx => ofClass_of_mem (fun x hx => (hmem x).mp hx) hx
    have hbooks : Books L arenas live m₁ := hinv.books.removeSmall hp hk hw hmem hl₁ fun x => by
      rw [hmem₁, ← mem_range_iff_blocks hk]
      simp only [not_exists, not_and, Ne]
    obtain ⟨bm, hfree, hp', hmem', hbits⟩ := (hp.setMem m₁).remove
    have hpages : A.pages = 1 := by simp only [Arena.pages, hk]
    rw [pallocFreePage, ← hpages]
    refine ⟨_, (bind_of_ok hloop).trans (onRam_eq hfree), fun A' hA' q hq hlive k hk' => ?_, .inr ⟨hall, ⟨hp',
      hinv.descCnt, ?_, fun q hq => ?_, hinv.nodup⟩, hbits _ (Nat.le_refl _) (Nat.lt_add_of_pos_right A.pages_pos)⟩⟩
    · rcases List.mem_cons.mp hA' with rfl | hA'
      · exact absurd hlive (hall q hq)
      · rw [hmem']
        exact (keeps_fillArena live hp _ A' hA' q hq hlive k hk').trans
          (block_of_writes hp hw (List.mem_cons_of_mem A hA') hq hlive hk')
    · rw [hmem']
      exact hbooks.fillArena hp _
    · obtain ⟨A', hA', hq'⟩ := hinv.liveIn q hq
      rcases List.mem_cons.mp hA' with rfl | hA'
      · exact absurd hq (hall q hq')
      · exact ⟨A', hA', hq'⟩
  · rw [if_neg fun hge => hall ((Arena.freeCnt_eq_perArena hk).mp (Nat.le_antisymm hle hge))]
    simp only [not_forall, not_not] at hall
    obtain ⟨q, hq, hlive⟩ := hall
    exact ⟨h, rfl, fun _ _ _ _ _ _ _ => rfl, .inl ⟨⟨q, hq, hlive⟩, hinv⟩⟩

/-- A block of a size class is freed. -/
theorem freeSmall_spec {p : ℕ} (hinv : Inv L (A :: arenas) (p :: live) others h) (hk : A.kind = .small i)
    (hb : p ∈ A.blocks L) :
    ∃ h', freeSmall L p (A.addr L) (L.desc i) h = .ok ((), h') ∧ Keeps L (A :: arenas) live h.ram.mem h'.ram.mem ∧
      ((∃ q ∈ A.blocks L, q ∈ live) ∧ Inv L (A :: arenas) live others h' ∨
        (∀ q ∈ A.blocks L, q ∉ live) ∧ Inv L arenas live others h' ∧ h'.ram.kernelPool.usedMap.bit A.page = false) := by
  have hp := hinv.placed
  have hA : A ∈ A :: arenas := List.mem_cons_self
  obtain ⟨hpnot, hnodup⟩ := List.nodup_cons.mp hinv.nodup
  have hlen : A.len = classSize i := by simp only [Arena.len, hk]
  have hend := (Arena.bounds_of_mem_blocks hb).2.1
  have hbounds := (Arena.bounds_of_mem_blocks hb).1
  have hfits : p + classSize i ≤ 2 ^ 32 := by
    have := hp.end_le hA
    have := L.fits
    unfold pgSize at this
    omega
  -- the block is overwritten
  have hbooks₁ : Books L (A :: arenas) (p :: live) (h.ram.mem.fill p (classSize i) 0xcc) :=
    hinv.books.inBlock hp hA hb List.mem_cons_self fun x hx => Memory.fill_of_not_mem _ _ (by omega)
  obtain ⟨l, hl, hmem⟩ := hbooks₁.lists i
  obtain ⟨x, hx⟩ : ∃ x : L.nodes.Node, x.1 = p := ⟨⟨p, hp.isNode_block hA hb⟩, rfl⟩
  have hxnot : x ∉ L.head i :: (l ++ [L.tail i]) := by
    intro hin
    rcases (ofClass_of_mem (fun y hy => (hmem y).mp hy) hin).place with hplace | ⟨-, -, -, -, hnot⟩
    · have := (L.desc_bounds i).2
      have := Arena.base_le_addr (L := L) (A := A)
      omega
    · exact hnot (hx ▸ List.mem_cons_self)
  -- it joins the free list
  obtain ⟨m₂, hpush, hl₂, hw₂⟩ := pushFront_isList hl hxnot
  have hw : L.links.Writes (OfClass L (A :: arenas) live i) (h.ram.mem.fill p (classSize i) 0xcc) m₂ := by
    refine hw₂.mono fun y hy => ?_
    rcases List.mem_cons.mp hy with rfl | hy
    · exact .inr (.inr ⟨A, hA, hk, hx ▸ hb, hx ▸ hpnot⟩)
    · refine ofClass_of_mem (fun y hy => ?_) hy
      obtain ⟨A', hA', hk', hy', hnot⟩ := (hmem y).mp hy
      exact ⟨A', hA', hk', hy', fun hin => hnot (List.mem_cons_of_mem p hin)⟩
  have hcnt : A.freeCnt L live = A.freeCnt L (p :: live) + 1 :=
    Arena.freeCnt_of_insert hk hb List.mem_cons_self hpnot fun q hne => by simp [hne]
  have hle : A.freeCnt L live ≤ 255 := Nat.le_trans (Arena.freeCnt_le hk) (classSize_bounds i).2.2.2.2
  have hload : m₂.word (A.addr L + 8) = A.freeCnt L (p :: live) :=
    (header_of_writes hw Arena.base_le_addr Arena.addr_mod (Nat.le_refl 8)).trans (hbooks₁.header A hA).2.2
  have hnew : (A.freeCnt L (p :: live) + 1) % 2 ^ 32 = A.freeCnt L live := by omega
  -- the books are in order again
  have hinv₃ : Inv L (A :: arenas) live others (h.setMem (m₂.writeWord (A.addr L + 8) (A.freeCnt L live))) := by
    refine ⟨hp.setMem _, hinv.descCnt, ?_, fun q hq => hinv.liveIn q (List.mem_cons_of_mem p hq), hnodup⟩
    refine hbooks₁.change hp hA hk hb (fun q hne => by simp [hne]) hw hl₂ fun y => ?_
    rw [List.mem_cons, hmem]
    constructor
    · rintro (rfl | ⟨A', hA', hk', hy, hnot⟩)
      · exact ⟨A, hA, hk, hx ▸ hb, hx ▸ hpnot⟩
      · exact ⟨A', hA', hk', hy, fun hin => hnot (List.mem_cons_of_mem p hin)⟩
    · rintro ⟨A', hA', hk', hy, hnot⟩
      by_cases heq : y = x
      · exact .inl heq
      · refine .inr ⟨A', hA', hk', hy, fun hin => ?_⟩
        rcases List.mem_cons.mp hin with hyp | hin
        · exact heq (Subtype.ext (hyp.trans hx.symm))
        · exact hnot hin
  obtain ⟨h', hfree, hkeep, hrest⟩ := freeArena_spec hinv₃ hk
  refine ⟨h', ?_, fun A' hA' q hq hlive k hk' => ?_, hrest⟩
  · rw [freeSmall, bind_of_ok (load_eq (hinv.books.descs i).1), bind_of_ok (onRam_eq (memset_eq hfits _)), ← hx,
      nodeAt_bind x]
    rw [← hx] at hpush
    refine (nodeAt_bind (L.head i) _).trans ((bind_of_ok (onLinks_eq hpush)).trans ?_)
    refine (bind_of_ok (load_eq hload)).trans ?_
    rw [hnew, bind_of_ok (store_eq _ _)]
    exact hfree
  · rw [hkeep A' hA' q hq hlive k hk']
    have hheader := hp.block_header_apart hA' hA hq
    have hapart := hp.blocks_apart hA' hA hq hb fun heq => hpnot (heq ▸ hlive)
    rw [mem_setMem, Memory.writeWord_of_not_mem _ _ (by omega), block_of_writes hp hw hA' hq hlive hk',
      Memory.fill_of_not_mem _ _ (by omega)]

/-- The order of the arenas and of the live blocks does not matter. -/
theorem Inv.perm {arenas' : List Arena} {live' : List ℕ} (hinv : Inv L arenas live others h)
    (harenas : arenas.Perm arenas') (hlive : live.Perm live') : Inv L arenas' live' others h where
  placed := ⟨hinv.placed.valid, hinv.placed.base, hinv.placed.pages,
    Pool.Held.perm hinv.placed.owns ((harenas.map Arena.range).append_right others)⟩
  descCnt := hinv.descCnt
  books := hinv.books.congr_mem (fun _ => harenas.symm.mem_iff) fun _ => hlive.symm.mem_iff
  liveIn p hp := by
    obtain ⟨A, hA, hb⟩ := hinv.liveIn p (hlive.symm.mem_iff.mp hp)
    exact ⟨A, harenas.mem_iff.mp hA, hb⟩
  nodup := hlive.nodup_iff.mp hinv.nodup

/-- A block with pages of its own is freed. -/
theorem freeLarge_spec {p cnt : ℕ} {pos : 0 < cnt} (hinv : Inv L (A :: arenas) (p :: live) others h)
    (hk : A.kind = .large cnt pos) (hb : p ∈ A.blocks L) :
    ∃ h', onRam (pallocFreeMultiple (A.addr L) cnt) h = .ok ((), h') ∧ Keeps L (A :: arenas) live h.ram.mem h'.ram.mem ∧
      (∀ q ∈ A.blocks L, q ∉ live) ∧ Inv L arenas live others h' ∧ h'.ram.kernelPool.usedMap.bit A.page = false := by
  have hp := hinv.placed
  obtain ⟨hpnot, hnodup⟩ := List.nodup_cons.mp hinv.nodup
  have hpages : A.pages = cnt := by simp only [Arena.pages, hk]
  have hall : ∀ q ∈ A.blocks L, q ∉ live := by
    intro q hq
    simp only [Arena.blocks, hk, List.mem_singleton] at hb hq
    rwa [hq, ← hb]
  have hsame : ∀ A' ∈ arenas, ∀ q ∈ A'.blocks L, q ∈ live ↔ q ∈ p :: live := by
    intro A' hA' q hq
    rw [List.mem_cons, or_iff_right]
    rintro rfl
    exact not_mem_of_new hp hA' hb hq
  have hbooks : Books L arenas live h.ram.mem := by
    refine ⟨hinv.books.descs, fun A' hA' => ?_, fun j => ?_⟩
    · rw [Arena.freeCnt_congr (hsame A' hA')]
      exact hinv.books.header A' (List.mem_cons_of_mem A hA')
    · obtain ⟨l, hl, hmem⟩ := hinv.books.lists j
      refine ⟨l, hl, fun x => ?_⟩
      rw [hmem, List.exists_mem_cons_iff, or_iff_right fun hand => by cases hk.symm.trans hand.1]
      refine exists_congr fun A' => and_congr_right fun hA' => and_congr_right fun _ => and_congr_right fun hx => ?_
      rw [hsame A' hA' x.1 hx]
  obtain ⟨bm, hfree, hp', hmem', hbits⟩ := hp.remove
  rw [← hpages]
  refine ⟨_, onRam_eq hfree, fun A' hA' q hq hlive k hk' => ?_, hall, ⟨hp', hinv.descCnt, ?_, fun q hq => ?_, hnodup⟩,
    hbits _ (Nat.le_refl _) (Nat.lt_add_of_pos_right A.pages_pos)⟩
  · rcases List.mem_cons.mp hA' with rfl | hA'
    · exact absurd hlive (hall q hq)
    · rw [hmem']
      exact keeps_fillArena live hp _ A' hA' q hq hlive k hk'
  · rw [hmem']
    exact hbooks.fillArena hp _
  · obtain ⟨A', hA', hq'⟩ := hinv.liveIn q (List.mem_cons_of_mem p hq)
    rcases List.mem_cons.mp hA' with rfl | hA'
    · exact absurd hq (hall q hq')
    · exact ⟨A', hA', hq'⟩

/-- A block has been freed, and with the last one its arena. -/
structure Freed (L : Layout) (arenas : List Arena) (live : List ℕ) (others : List (ℕ × ℕ)) (h : Heap) (p : ℕ)
    (arenas' : List Arena) (h' : Heap) : Prop where
  inv : Inv L arenas' (live.erase p) others h'
  busy : Busy L arenas live → Busy L arenas' (live.erase p)
  sub : ∀ A ∈ arenas', A ∈ arenas
  keeps : Keeps L arenas (live.erase p) h.ram.mem h'.ram.mem
  returned : ∀ A ∈ arenas, p ∈ A.blocks L →
    (h'.ram.kernelPool.usedMap.bit A.page = false ↔ ∀ q ∈ A.blocks L, q ∉ live.erase p)

/-- The part of `free` behind the check of the block. -/
theorem freeBlock_spec {p : ℕ} (hinv : Inv L (A :: arenas) (p :: live) others h) (hb : p ∈ A.blocks L) :
    ∃ h', free L (some p) h = .ok ((), h') ∧ Keeps L (A :: arenas) live h.ram.mem h'.ram.mem ∧
      ((∃ q ∈ A.blocks L, q ∈ live) ∧ Inv L (A :: arenas) live others h' ∨
        (∀ q ∈ A.blocks L, q ∉ live) ∧ Inv L arenas live others h' ∧ h'.ram.kernelPool.usedMap.bit A.page = false) := by
  have hA : A ∈ A :: arenas := List.mem_cons_self
  obtain ⟨-, hdesc, hcnt⟩ := hinv.books.header A hA
  cases hk : A.kind with
  | small i =>
    simp only [Arena.desc, hk] at hdesc
    obtain ⟨h', hfree, hrest⟩ := freeSmall_spec hinv hk hb
    refine ⟨h', ?_, hrest⟩
    rw [free, bind_of_ok (blockToArena_eq hinv.books hA hb), bind_of_ok (load_eq hdesc), if_pos desc_ne_zero]
    exact hfree
  | large cnt pos =>
    simp only [Arena.desc, hk] at hdesc
    simp only [Arena.freeCnt, hk] at hcnt
    obtain ⟨h', hfree, hkeep, hrest⟩ := freeLarge_spec hinv hk hb
    refine ⟨h', ?_, hkeep, .inr hrest⟩
    rw [free, bind_of_ok (blockToArena_eq hinv.books hA hb), bind_of_ok (load_eq hdesc), if_neg (not_not_intro rfl),
      bind_of_ok (load_eq hcnt)]
    exact hfree

/-- **`free`** of a live block: the assertions hold, and the arena is given back if no block of it is live any more. -/
theorem free_spec {p : ℕ} (hinv : Inv L arenas live others h) (hlive : p ∈ live) :
    ∃ arenas' h', free L (some p) h = .ok ((), h') ∧ Freed L arenas live others h p arenas' h' := by
  obtain ⟨A, hA, hb⟩ := hinv.liveIn p hlive
  have hperm := List.perm_cons_erase hA
  have hinv' := hinv.perm hperm (List.perm_cons_erase hlive)
  obtain ⟨h', hfree, hkeep, hrest⟩ := freeBlock_spec hinv' hb
  have hkeep' : Keeps L arenas (live.erase p) h.ram.mem h'.ram.mem := fun A' hA' =>
    hkeep A' (hperm.mem_iff.mp hA')
  have hunique : ∀ A' ∈ arenas, p ∈ A'.blocks L → A' = A := fun A' hA' hb' => hinv.placed.arena_unique hA' hA hb' hb
  -- the other arenas still have a live block
  have hothers : Busy L arenas live → ∀ A' ∈ arenas, A' ≠ A → ∃ q ∈ A'.blocks L, q ∈ live.erase p := by
    intro hbusy A' hA' hne
    obtain ⟨q, hq, hqlive⟩ := hbusy A' hA'
    refine ⟨q, hq, (List.mem_erase_of_ne ?_).mpr hqlive⟩
    rintro rfl
    exact hne (hunique A' hA' hq)
  rcases hrest with ⟨hsome, hinv''⟩ | ⟨hnone, hinv'', hbit⟩
  · refine ⟨arenas, h', hfree, hinv''.perm hperm.symm (.refl _), fun hbusy A' hA' => ?_, fun _ hA => hA, hkeep', ?_⟩
    · by_cases heq : A' = A
      · rw [heq]
        exact hsome
      · exact hothers hbusy A' hA' heq
    · intro A' hA' hb'
      rw [hunique A' hA' hb']
      have hmark : h'.ram.kernelPool.usedMap.bit A.page = true :=
        hinv''.placed.owns.marked A.range List.mem_cons_self A.page (Nat.le_refl _) (Nat.lt_add_of_pos_right A.pages_pos)
      obtain ⟨q, hq, hqlive⟩ := hsome
      rw [hmark]
      exact ⟨fun h => absurd h (by decide), fun h => absurd hqlive (h q hq)⟩
  · refine ⟨arenas.erase A, h', hfree, hinv'', fun hbusy A' hA' => ?_, fun _ hA' => List.mem_of_mem_erase hA', hkeep', ?_⟩
    · refine hothers hbusy A' (List.mem_of_mem_erase hA') ?_
      rintro rfl
      -- the pages of an arena do not occur twice
      have hself := hinv'.placed.head_apart hA'
      have := A'.pages_pos
      omega
    · intro A' hA' hb'
      rw [hunique A' hA' hb', hbit]
      exact ⟨fun _ => hnone, fun _ => rfl⟩

end Free

/-! ### The size of a block -/

theorem blockSize_eq (hinv : Inv L arenas live others h) (hA : A ∈ arenas) (hb : b ∈ A.blocks L) :
    blockSize b h = .ok (A.len, h) := by
  obtain ⟨-, hdesc, hcnt⟩ := hinv.books.header A hA
  rw [blockSize, bind_of_ok (blockToArena_eq hinv.books hA hb), bind_of_ok (load_eq hdesc)]
  cases hk : A.kind with
  | small i =>
    simp only [Arena.desc, Arena.len, hk]
    rw [if_pos desc_ne_zero]
    exact load_eq (hinv.books.descs i).1
  | large cnt pos =>
    simp only [Arena.freeCnt, hk] at hcnt
    simp only [Arena.desc, Arena.len, hk]
    have hsize : (pgSize * cnt + 2 ^ 32 - b % pgSize) % 2 ^ 32 = pgSize * cnt - arenaSize := by
      have hmod := Arena.addr_mod (L := L) (A := A)
      have hend := hinv.placed.end_le hA
      have hfits := L.fits
      have hbase := Arena.base_le_addr (L := L) (A := A)
      have hpos := L.descs_pos
      have hle := L.descs_le
      simp only [Arena.blocks, hk, List.mem_singleton] at hb
      simp only [Arena.pages, hk] at hend
      unfold pgSize arenaSize descSize descMax at *
      omega
    rw [if_neg (not_not_intro rfl), bind_of_ok (load_eq hcnt), hsize]
    rfl

end Malloc
end Pintos
