import Pintos.Threads.Malloc

/-!
# Arenas

What the allocator keeps in memory, and where. An arena holds the blocks of one size class in one page (`Kind.small`),
or one block in pages of its own (`Kind.large`).

* `Arena.bounds_of_mem_blocks`, `Arena.blocks_apart` — blocks lie behind the header and do not overlap;
* `Placed` — the pages of the arenas have been handed out, and to nobody else;
* `Books` — the descriptors, the headers and the free lists are as they should be. All of it is in the bytes `Private`
  (`Books.congr`);
* `Writes` to the nodes of one size class leave alone everything else (`header_of_writes`, `field_of_writes`,
  `block_of_writes`, `list_of_writes`).
-/

namespace Pintos
namespace Malloc

open Clib Vaddr Palloc

/-- `block_size` of a size class. -/
def classSize (i : Fin 7) : ℕ := 16 * 2 ^ i.1

/-- `blocks_per_arena` of a size class. -/
def perArena (i : Fin 7) : ℕ := (pgSize - arenaSize) / classSize i

theorem classSize_bounds : ∀ i : Fin 7, 16 ≤ classSize i ∧ classSize i ≤ 1024 ∧ 3 ≤ perArena i ∧
    perArena i * classSize i ≤ 4084 ∧ perArena i ≤ 255 := by
  decide

/-- The blocks of a size class, or one large block. -/
inductive Kind
  | small (i : Fin 7)
  | large (cnt : ℕ) (pos : 0 < cnt)
deriving DecidableEq

/-- An arena in the kernel pool. -/
structure Arena where
  page : ℕ
  kind : Kind
deriving DecidableEq

namespace Arena

variable (L : Layout) (A : Arena)

/-- The number of its pages. -/
def pages : ℕ :=
  match A.kind with
  | .small _ => 1
  | .large cnt _ => cnt

/-- The range of its pages. -/
def range : ℕ × ℕ := (A.page, A.pages)

/-- The size of its blocks. -/
def len : ℕ :=
  match A.kind with
  | .small i => classSize i
  | .large cnt _ => pgSize * cnt - arenaSize

/-- Its address. -/
def addr : ℕ := L.base + pgSize * A.page

/-- Its blocks. -/
def blocks : List ℕ :=
  match A.kind with
  | .small i => (List.range (perArena i)).map fun k => A.addr L + arenaSize + k * classSize i
  | .large _ _ => [A.addr L + arenaSize]

/-- What its `desc` points to. -/
def desc : ℕ :=
  match A.kind with
  | .small i => L.desc i
  | .large _ _ => 0

/-- Its `free_cnt`: the number of free blocks, or the number of pages. -/
def freeCnt (live : List ℕ) : ℕ :=
  match A.kind with
  | .small _ => (A.blocks L).countP (· ∉ live)
  | .large cnt _ => cnt

variable {L A} {b b' : ℕ}

theorem pages_pos : 0 < A.pages := by
  unfold pages
  split
  · exact Nat.one_pos
  · assumption

theorem addr_mod : A.addr L % pgSize = 0 := by
  rw [addr, Nat.add_mul_mod_self_left]
  exact L.base_aligned

theorem base_le_addr : L.base ≤ A.addr L := Nat.le_add_right _ _

theorem len_ge : 16 ≤ A.len := by
  unfold len
  split
  · exact (classSize_bounds _).1
  · rename_i cnt pos _
    unfold pgSize arenaSize
    omega

/-- A block of a size class. -/
theorem mem_blocks_small {i : Fin 7} (h : A.kind = .small i) :
    b ∈ A.blocks L ↔ ∃ k < perArena i, b = A.addr L + arenaSize + k * classSize i := by
  simp only [blocks, h, List.mem_map, List.mem_range]
  constructor <;> rintro ⟨k, hk, rfl⟩ <;> exact ⟨k, hk, rfl⟩

/-- Where a block lies. -/
theorem bounds_of_mem_blocks (hb : b ∈ A.blocks L) :
    A.addr L + 12 ≤ b ∧ b + A.len ≤ A.addr L + 4096 * A.pages ∧ b + 16 ≤ A.addr L + 4096 ∧ b % 16 = 12 := by
  have hmod := addr_mod (L := L) (A := A)
  unfold pgSize at hmod
  cases hk : A.kind with
  | small i =>
    obtain ⟨k, hlt, rfl⟩ := (mem_blocks_small hk).mp hb
    obtain ⟨hge, -, -, hfit, -⟩ := classSize_bounds i
    have hnext : k * classSize i + classSize i ≤ perArena i * classSize i := by
      rw [← Nat.succ_mul]
      exact Nat.mul_le_mul_right _ hlt
    have hdvd : k * classSize i % 16 = 0 := by
      rw [classSize, Nat.mul_left_comm, Nat.mul_mod_right]
    simp only [len, pages, hk, arenaSize]
    omega
  | large cnt pos =>
    simp only [blocks, hk, List.mem_singleton, arenaSize] at hb
    simp only [len, pages, hk, pgSize, arenaSize]
    omega

/-- `pg_round_down` of a block is its arena. -/
theorem round_of_mem_blocks (hb : b ∈ A.blocks L) : b / pgSize * pgSize = A.addr L := by
  have hmod := addr_mod (L := L) (A := A)
  obtain ⟨h₁, -, h₂, -⟩ := bounds_of_mem_blocks hb
  unfold pgSize at *
  omega

/-- Blocks of an arena do not overlap. -/
theorem blocks_apart (hb : b ∈ A.blocks L) (hb' : b' ∈ A.blocks L) (hne : b ≠ b') :
    b + A.len ≤ b' ∨ b' + A.len ≤ b := by
  cases hk : A.kind with
  | small i =>
    obtain ⟨k, -, rfl⟩ := (mem_blocks_small hk).mp hb
    obtain ⟨k', -, rfl⟩ := (mem_blocks_small hk).mp hb'
    simp only [len, hk]
    rcases Nat.lt_trichotomy k k' with hlt | rfl | hlt
    · have := Nat.mul_le_mul_right (classSize i) (Nat.succ_le_of_lt hlt)
      rw [Nat.succ_mul] at this
      omega
    · exact absurd rfl hne
    · have := Nat.mul_le_mul_right (classSize i) (Nat.succ_le_of_lt hlt)
      rw [Nat.succ_mul] at this
      omega
  | large cnt pos =>
    simp only [blocks, hk, List.mem_singleton] at hb hb'
    exact absurd (hb.trans hb'.symm) hne

theorem nodup_blocks : (A.blocks L).Nodup := by
  unfold blocks
  split
  · rename_i i _
    refine List.Nodup.map (fun k k' h => ?_) List.nodup_range
    have hpos : 0 < classSize i := by
      have := (classSize_bounds i).1
      omega
    exact Nat.eq_of_mul_eq_mul_right hpos (Nat.add_left_cancel h)
  · exact List.nodup_singleton _

theorem length_blocks {i : Fin 7} (h : A.kind = .small i) : (A.blocks L).length = perArena i := by
  simp [blocks, h]

/-- The index of a block, as `block_to_arena` checks it. -/
theorem index_of_mem_blocks {i : Fin 7} (h : A.kind = .small i) (hb : b ∈ A.blocks L) :
    (b % pgSize + 2 ^ 32 - arenaSize) % 2 ^ 32 % classSize i = 0 := by
  have hmod := addr_mod (L := L) (A := A)
  have hbounds := bounds_of_mem_blocks hb
  obtain ⟨k, -, rfl⟩ := (mem_blocks_small h).mp hb
  have hidx : ((A.addr L + arenaSize + k * classSize i) % pgSize + 2 ^ 32 - arenaSize) % 2 ^ 32 = k * classSize i := by
    unfold pgSize arenaSize at *
    omega
  rw [hidx, Nat.mul_mod_left]

/-! ### Counting free blocks -/

variable {live live' : List ℕ}

theorem freeCnt_congr (h : ∀ p ∈ A.blocks L, p ∈ live' ↔ p ∈ live) : A.freeCnt L live' = A.freeCnt L live := by
  unfold freeCnt
  split
  · exact List.countP_congr fun p hp => by simp [h p hp]
  · rfl

/-- One block more is live. -/
theorem freeCnt_of_insert {i : Fin 7} (hk : A.kind = .small i) (hb : b ∈ A.blocks L) (hin : b ∈ live') (hnot : b ∉ live)
    (hsame : ∀ p, p ≠ b → (p ∈ live' ↔ p ∈ live)) : A.freeCnt L live = A.freeCnt L live' + 1 := by
  simp only [freeCnt, hk]
  have hnodup := nodup_blocks (L := L) (A := A)
  obtain ⟨l₁, l₂, heq⟩ := List.append_of_mem hb
  rw [heq] at hnodup ⊢
  have hperm : (l₁ ++ b :: l₂).Perm (b :: (l₁ ++ l₂)) := List.perm_middle
  have hbnot := (List.nodup_cons.mp (hperm.nodup_iff.mp hnodup)).1
  have hrest : (l₁ ++ l₂).countP (fun p => decide (p ∉ live)) = (l₁ ++ l₂).countP fun p => decide (p ∉ live') :=
    List.countP_congr fun p hp => by simp [hsame p fun h => hbnot (h ▸ hp)]
  rw [hperm.countP_eq, hperm.countP_eq, List.countP_cons_of_pos (by simp [hnot]),
    List.countP_cons_of_neg (by simp [hin]), hrest]

theorem freeCnt_le {i : Fin 7} (hk : A.kind = .small i) : A.freeCnt L live ≤ perArena i := by
  simp only [freeCnt, hk]
  rw [← length_blocks hk]
  exact List.countP_le_length

/-- All blocks are free. -/
theorem freeCnt_eq_perArena {i : Fin 7} (hk : A.kind = .small i) :
    A.freeCnt L live = perArena i ↔ ∀ p ∈ A.blocks L, p ∉ live := by
  simp only [freeCnt, hk]
  rw [← length_blocks hk, List.countP_eq_length]
  simp

end Arena

/-! ### Nodes -/

namespace Layout

variable {L : Layout} {x : ℕ}

theorem isNode_head (i : Fin 7) : L.IsNode (L.desc i + 8) :=
  .inl ⟨i, Nat.lt_of_lt_of_le i.2 (by decide), .inl rfl⟩

theorem isNode_tail (i : Fin 7) : L.IsNode (L.desc i + 16) :=
  .inl ⟨i, Nat.lt_of_lt_of_le i.2 (by decide), .inr rfl⟩

variable (L) in
/-- The sentinels of the free list of a size class. -/
def head (i : Fin 7) : L.nodes.Node := ⟨L.desc i + 8, isNode_head i⟩

variable (L) in
@[inherit_doc head]
def tail (i : Fin 7) : L.nodes.Node := ⟨L.desc i + 16, isNode_tail i⟩

theorem desc_bounds (i : Fin 7) : L.desc i = L.descs + 48 * i.1 ∧ L.desc i + 192 ≤ L.base := by
  have hle := L.descs_le
  have hi := i.2
  unfold desc descSize descMax at *
  omega

/-- A node lies in a descriptor behind its sizes, or in a page behind the place of a header. -/
theorem isNode_place (h : L.IsNode x) :
    (∃ i < 10, x = L.descs + 48 * i + 8 ∨ x = L.descs + 48 * i + 16) ∧ x + 8 ≤ L.base ∨
    L.base ≤ x ∧ 12 ≤ x % 4096 ∧ x % 4096 + 8 ≤ 4096 := by
  have hle := L.descs_le
  have hmod := L.base_aligned
  unfold descSize descMax pgSize at *
  rcases h with ⟨i, hi, hx⟩ | ⟨hx, -, h16, hpage⟩
  · unfold desc descSize descMax at *
    exact .inl ⟨⟨i, hi, hx⟩, by omega⟩
  · unfold pgSize at hpage
    exact .inr ⟨hx, by omega, hpage⟩

end Layout

/-! ### Pages -/

variable (L : Layout)

/-- The pages of the arenas have been handed out to the heap, and `others` to the rest of the kernel. -/
structure Placed (arenas : List Arena) (others : List (ℕ × ℕ)) (r : Ram) : Prop where
  valid : r.Valid
  base : r.kernelPool.base = L.base
  pages : r.kernelPool.usedMap.bitCnt = L.pages
  owns : r.Owns false (arenas.map Arena.range ++ others)

variable {L} {arenas : List Arena} {others : List (ℕ × ℕ)} {r : Ram} {A A' : Arena} {b b' : ℕ}

/-- Ranges that share no page. -/
theorem apart_iff {p q : ℕ × ℕ} (hp : 0 < p.2) (hq : 0 < q.2) :
    Pool.Apart p q ↔ p.1 + p.2 ≤ q.1 ∨ q.1 + q.2 ≤ p.1 := by
  constructor
  · intro h
    by_contra hnot
    rw [not_or, Nat.not_le, Nat.not_le] at hnot
    rcases Nat.le_total p.1 q.1 with hle | hle
    · exact h q.1 hle hnot.1 ⟨Nat.le_refl _, by omega⟩
    · exact h p.1 (Nat.le_refl _) (by omega) ⟨hle, hnot.2⟩
  · intro h j hj hj' hin
    omega

/-- The memory of two arenas does not overlap. -/
theorem addr_apart (h : Pool.Apart A.range A'.range) :
    A.addr L + 4096 * A.pages ≤ A'.addr L ∨ A'.addr L + 4096 * A'.pages ≤ A.addr L := by
  have h' := (apart_iff (p := A.range) (q := A'.range) Arena.pages_pos Arena.pages_pos).mp h
  simp only [Arena.range] at h'
  unfold Arena.addr pgSize
  omega

namespace Placed

theorem arenas_apart (h : Placed L arenas others r) (hA : A ∈ arenas) (hA' : A' ∈ arenas) (hne : A ≠ A') :
    A.addr L + 4096 * A.pages ≤ A'.addr L ∨ A'.addr L + 4096 * A'.pages ≤ A.addr L := by
  have hpair := List.pairwise_map.mp (List.pairwise_append.mp h.owns.apart).1
  have : Std.Symm fun A A' : Arena => Pool.Apart A.range A'.range := ⟨fun _ _ => Pool.Apart.symm⟩
  exact addr_apart (hpair.forall hA hA' hne)

theorem others_apart (h : Placed L arenas others r) (hA : A ∈ arenas) {q : ℕ × ℕ} (hq : q ∈ others) (hpos : 0 < q.2) :
    A.addr L + 4096 * A.pages ≤ L.base + 4096 * q.1 ∨ L.base + 4096 * (q.1 + q.2) ≤ A.addr L := by
  have hapart := (List.pairwise_append.mp h.owns.apart).2.2 _ (List.mem_map_of_mem hA) q hq
  have h' := (apart_iff (p := A.range) Arena.pages_pos hpos).mp hapart
  simp only [Arena.range] at h'
  unfold Arena.addr pgSize
  omega

theorem page_le (h : Placed L arenas others r) (hA : A ∈ arenas) : A.page + A.pages ≤ L.pages := by
  rw [← h.pages]
  exact h.owns.le A.range (List.mem_append_left _ (List.mem_map_of_mem hA))

theorem end_le (h : Placed L arenas others r) (hA : A ∈ arenas) :
    A.addr L + 4096 * A.pages ≤ L.base + 4096 * L.pages := by
  have := h.page_le hA
  unfold Arena.addr pgSize
  omega

/-- A block belongs to one arena. -/
theorem arena_unique (h : Placed L arenas others r) (hA : A ∈ arenas) (hA' : A' ∈ arenas) (hb : b ∈ A.blocks L)
    (hb' : b ∈ A'.blocks L) : A = A' := by
  by_contra hne
  have hapart := h.arenas_apart hA hA' hne
  obtain ⟨h₁, h₂, -⟩ := Arena.bounds_of_mem_blocks hb
  obtain ⟨h₃, h₄, -⟩ := Arena.bounds_of_mem_blocks hb'
  have := A.len_ge
  have := A'.len_ge
  omega

/-- Blocks do not overlap. -/
theorem blocks_apart (h : Placed L arenas others r) (hA : A ∈ arenas) (hA' : A' ∈ arenas) (hb : b ∈ A.blocks L)
    (hb' : b' ∈ A'.blocks L) (hne : b ≠ b') : b + A.len ≤ b' ∨ b' + A'.len ≤ b := by
  by_cases heq : A = A'
  · subst heq
    exact Arena.blocks_apart hb hb' hne
  · have hapart := h.arenas_apart hA hA' heq
    obtain ⟨h₁, h₂, -⟩ := Arena.bounds_of_mem_blocks hb
    obtain ⟨h₃, h₄, -⟩ := Arena.bounds_of_mem_blocks hb'
    omega

/-- A block does not overlap a header. -/
theorem block_header_apart (h : Placed L arenas others r) (hA : A ∈ arenas) (hA' : A' ∈ arenas) (hb : b ∈ A.blocks L) :
    b + A.len ≤ A'.addr L ∨ A'.addr L + 12 ≤ b := by
  obtain ⟨h₁, h₂, -⟩ := Arena.bounds_of_mem_blocks hb
  by_cases heq : A = A'
  · subst heq
    exact .inr h₁
  · have hapart := h.arenas_apart hA hA' heq
    have := A'.pages_pos
    omega

theorem isNode_block (h : Placed L arenas others r) (hA : A ∈ arenas) (hb : b ∈ A.blocks L) : L.IsNode b := by
  have hend := h.end_le hA
  obtain ⟨h₁, h₂, h₃, h₄⟩ := Arena.bounds_of_mem_blocks hb
  have hbase := Arena.base_le_addr (L := L) (A := A)
  have hmod := Arena.addr_mod (L := L) (A := A)
  have := A.len_ge
  unfold pgSize at hmod
  refine .inr ⟨by omega, ?_, h₄, ?_⟩ <;> unfold pgSize <;> omega

end Placed

/-! ### What is kept in memory -/

variable (L)

/-- The descriptors, the headers and the free lists. -/
structure Books (arenas : List Arena) (live : List ℕ) (m : Memory) : Prop where
  descs : ∀ i : Fin 7, m.word (L.desc i) = classSize i ∧ m.word (L.desc i + 4) = perArena i
  header : ∀ A ∈ arenas, m.word (A.addr L) = arenaMagic ∧ m.word (A.addr L + 4) = A.desc L ∧
    m.word (A.addr L + 8) = A.freeCnt L live
  /-- The free list of a size class has its blocks that are not live. -/
  lists : ∀ i : Fin 7, ∃ l, L.links.IsList m (L.head i) (L.tail i) l ∧
    ∀ x, x ∈ l ↔ ∃ A ∈ arenas, A.kind = .small i ∧ x.1 ∈ A.blocks L ∧ x.1 ∉ live

/-- The bytes that the allocator relies on: the descriptors, the headers, and the links of free blocks. -/
def Private (arenas : List Arena) (live : List ℕ) (a : ℕ) : Prop :=
  (L.descs ≤ a ∧ a < L.descs + descSize * descMax) ∨
  (∃ A ∈ arenas, A.addr L ≤ a ∧ a < A.addr L + arenaSize) ∨
  ∃ A ∈ arenas, ∃ b ∈ A.blocks L, b ∉ live ∧ b ≤ a ∧ a < b + 8

variable {L} {live live' : List ℕ} {m m' : Memory}

theorem private_desc (i : Fin 7) {k : ℕ} (hk : k < 24) : Private L arenas live (L.desc i + k) := by
  have := L.desc_bounds i
  have hi := i.2
  refine .inl ⟨?_, ?_⟩
  · omega
  · unfold descSize descMax
    omega

/-- The bytes of the nodes of a free list. -/
theorem private_node {i : Fin 7} {l : List L.nodes.Node}
    (hl : ∀ x, x ∈ l ↔ ∃ A ∈ arenas, A.kind = .small i ∧ x.1 ∈ A.blocks L ∧ x.1 ∉ live) {x : L.nodes.Node}
    (hx : x ∈ L.head i :: (l ++ [L.tail i])) {k : ℕ} (hk : k < 8) : Private L arenas live (x.1 + k) := by
  rcases List.mem_cons.mp hx with rfl | hx
  · change Private L arenas live (L.desc i + 8 + k)
    rw [Nat.add_assoc]
    exact private_desc i (by omega)
  · rcases List.mem_append.mp hx with hx | hx
    · obtain ⟨A, hA, -, hb, hlive⟩ := (hl x).mp hx
      exact .inr (.inr ⟨A, hA, x.1, hb, hlive, Nat.le_add_right _ _, by omega⟩)
    · rw [List.mem_singleton.mp hx]
      change Private L arenas live (L.desc i + 16 + k)
      rw [Nat.add_assoc]
      exact private_desc i (by omega)

/-- The books only depend on the private bytes. -/
theorem Books.congr (h : Books L arenas live m) (hmem : ∀ a, Private L arenas live a → m' a = m a) :
    Books L arenas live m' where
  descs i := by
    rw [Memory.word_congr fun k hk => hmem _ (private_desc i (by omega)),
      Memory.word_congr fun k hk => hmem _ (by rw [Nat.add_assoc]; exact private_desc i (by omega))]
    exact h.descs i
  header A hA := by
    have hword : ∀ j ≤ 8, m'.word (A.addr L + j) = m.word (A.addr L + j) := fun j hj =>
      Memory.word_congr fun k hk => hmem _ (.inr (.inl ⟨A, hA, by omega, by unfold arenaSize; omega⟩))
    rw [hword 4 (by omega), hword 8 (by omega)]
    rw [show m'.word (A.addr L) = m.word (A.addr L) from hword 0 (by omega)]
    exact h.header A hA
  lists i := by
    obtain ⟨l, hl, hmemb⟩ := h.lists i
    exact ⟨l, NodeSpace.isList_congr hl fun x hx k hk => hmem _ (private_node hmemb hx hk), hmemb⟩

/-! ### Writes to links -/

section Writes

variable {T : L.nodes.Node → Prop}

/-- No node is where a header is. -/
theorem header_of_writes (hw : L.links.Writes T m m') {a : ℕ} (ha : L.base ≤ a) (hmod : a % pgSize = 0) {o : ℕ}
    (ho : o ≤ 8) : m'.word (a + o) = m.word (a + o) := by
  refine Memory.word_congr fun k hk => NodeSpace.bytes_of_writes hw fun x _ => ?_
  unfold pgSize at hmod
  rcases Layout.isNode_place x.2 with ⟨-, hx⟩ | hx <;> omega

/-- No node is where the sizes of a descriptor are. -/
theorem field_of_writes (hw : L.links.Writes T m m') (i : Fin 7) {o : ℕ} (ho : o ≤ 4) :
    m'.word (L.desc i + o) = m.word (L.desc i + o) := by
  refine Memory.word_congr fun k hk => NodeSpace.bytes_of_writes hw fun x _ => ?_
  obtain ⟨hdesc, hle⟩ := L.desc_bounds i
  rcases Layout.isNode_place x.2 with ⟨⟨j, hj, hx⟩, -⟩ | hx <;> omega

/-- The nodes of a size class: the sentinels of its list, and its blocks that are not live. -/
def OfClass (L : Layout) (arenas : List Arena) (live : List ℕ) (i : Fin 7) (x : L.nodes.Node) : Prop :=
  x = L.head i ∨ x = L.tail i ∨ ∃ A ∈ arenas, A.kind = .small i ∧ x.1 ∈ A.blocks L ∧ x.1 ∉ live

theorem OfClass.place {i : Fin 7} {x : L.nodes.Node} (h : OfClass L arenas live i x) :
    (x.1 = L.desc i + 8 ∨ x.1 = L.desc i + 16) ∨
      ∃ A ∈ arenas, A.kind = .small i ∧ x.1 ∈ A.blocks L ∧ x.1 ∉ live := by
  rcases h with rfl | rfl | h
  · exact .inl (.inl rfl)
  · exact .inl (.inr rfl)
  · exact .inr h

/-- Size classes have no nodes in common. -/
theorem OfClass.unique (hp : Placed L arenas others r) {i j : Fin 7} {x : L.nodes.Node} (hi : OfClass L arenas live i x)
    (hj : OfClass L arenas live' j x) : i = j := by
  obtain ⟨hdi, hbi⟩ := L.desc_bounds i
  obtain ⟨hdj, hbj⟩ := L.desc_bounds j
  rcases hi.place with hxi | ⟨A, hA, hkA, hxA, -⟩
  · rcases hj.place with hxj | ⟨A, hA, -, hxA, -⟩
    · exact Fin.ext (by omega)
    · have := (Arena.bounds_of_mem_blocks hxA).1
      have := Arena.base_le_addr (L := L) (A := A)
      omega
  · rcases hj.place with hxj | ⟨A', hA', hkA', hxA', -⟩
    · have := (Arena.bounds_of_mem_blocks hxA).1
      have := Arena.base_le_addr (L := L) (A := A)
      omega
    · obtain rfl := hp.arena_unique hA hA' hxA hxA'
      rw [hkA] at hkA'
      exact Kind.small.inj hkA'

/-- A live block is not written to. -/
theorem block_of_writes (hp : Placed L arenas others r) {i : Fin 7} (hw : L.links.Writes (OfClass L arenas live i) m m')
    (hA : A ∈ arenas) (hb : b ∈ A.blocks L) (hlive : b ∈ live) {k : ℕ} (hk : k < A.len) : m' (b + k) = m (b + k) := by
  refine NodeSpace.bytes_of_writes hw fun x hx => ?_
  have hbounds := (Arena.bounds_of_mem_blocks hb).1
  have hbase := Arena.base_le_addr (L := L) (A := A)
  rcases hx.place with hx | ⟨A', hA', -, hxA, hx⟩
  · have := (L.desc_bounds i).2
    omega
  · have hapart := hp.blocks_apart hA hA' hb hxA fun heq => hx (heq ▸ hlive)
    have := A'.len_ge
    omega

/-- The list of another size class is not written to. -/
theorem list_of_writes (hp : Placed L arenas others r) {i j : Fin 7} (hne : i ≠ j)
    (hw : L.links.Writes (OfClass L arenas live i) m m') {l : List L.nodes.Node}
    (hl : L.links.IsList m (L.head j) (L.tail j) l)
    (hmem : ∀ x ∈ l, ∃ A ∈ arenas, A.kind = .small j ∧ x.1 ∈ A.blocks L ∧ x.1 ∉ live') :
    L.links.IsList m' (L.head j) (L.tail j) l := by
  refine NodeSpace.isList_congr hl fun x hx k hk => NodeSpace.bytes_of_writes hw fun y hy => ?_
  have hxj : OfClass L arenas live' j x := by
    rcases List.mem_cons.mp hx with rfl | hx
    · exact .inl rfl
    · rcases List.mem_append.mp hx with hx | hx
      · exact .inr (.inr (hmem x hx))
      · exact .inr (.inl (List.mem_singleton.mp hx))
  have hapart := NodeSpace.val_apart (N := L.nodes) (x := x) (y := y) fun heq => hne (hy.unique hp (heq ▸ hxj))
  omega

end Writes

/-! ### Changes of the books -/

/-- No node is where `free_cnt` is. -/
theorem isList_writeWord {i : Fin 7} {l : List L.nodes.Node} (hl : L.links.IsList m (L.head i) (L.tail i) l) {a : ℕ}
    (ha : L.base ≤ a) (hmod : a % pgSize = 0) (w : ℕ) :
    L.links.IsList (m.writeWord (a + 8) w) (L.head i) (L.tail i) l := by
  refine NodeSpace.isList_congr hl fun x _ k hk => Memory.writeWord_of_not_mem _ _ ?_
  unfold pgSize at hmod
  rcases Layout.isNode_place x.2 with ⟨-, hx⟩ | hx <;> omega

/-- A block of the arena `A` becomes live or free: the free list of its size class is changed, and then `free_cnt`. -/
theorem Books.change (hp : Placed L arenas others r) (h : Books L arenas live m) {i : Fin 7} {live₀ : List ℕ}
    (hA : A ∈ arenas) (hk : A.kind = .small i) (hb : b ∈ A.blocks L) (hsame : ∀ p, p ≠ b → (p ∈ live' ↔ p ∈ live))
    (hw : L.links.Writes (OfClass L arenas live₀ i) m m') {l : List L.nodes.Node}
    (hl : L.links.IsList m' (L.head i) (L.tail i) l)
    (hmem : ∀ x, x ∈ l ↔ ∃ A ∈ arenas, A.kind = .small i ∧ x.1 ∈ A.blocks L ∧ x.1 ∉ live') :
    Books L arenas live' (m'.writeWord (A.addr L + 8) (A.freeCnt L live')) := by
  have hbase := Arena.base_le_addr (L := L) (A := A)
  have hmod := Arena.addr_mod (L := L) (A := A)
  have hkeep : ∀ A' ∈ arenas, A' ≠ A → ∀ p ∈ A'.blocks L, p ∈ live' ↔ p ∈ live := fun A' hA' hne p hp' =>
    hsame p fun heq => hne (hp.arena_unique hA' hA hp' (heq ▸ hb))
  refine ⟨fun j => ?_, fun A' hA' => ?_, fun j => ?_⟩
  · obtain ⟨hdesc, hle⟩ := L.desc_bounds j
    have h0 : m'.word (L.desc j) = m.word (L.desc j) := field_of_writes hw j (Nat.zero_le 4)
    rw [Memory.word_writeWord_of_disjoint _ _ (by omega), Memory.word_writeWord_of_disjoint _ _ (by omega), h0,
      field_of_writes hw j (Nat.le_refl 4)]
    exact h.descs j
  · have hword : ∀ o ≤ 8, m'.word (A'.addr L + o) = m.word (A'.addr L + o) := fun o ho =>
      header_of_writes hw Arena.base_le_addr Arena.addr_mod ho
    have h0 : m'.word (A'.addr L) = m.word (A'.addr L) := hword 0 (by omega)
    obtain ⟨h₁, h₂, h₃⟩ := h.header A' hA'
    by_cases heq : A' = A
    · subst heq
      have hlt : A'.freeCnt L live' < 2 ^ 32 := by
        have : A'.freeCnt L live' ≤ perArena i := Arena.freeCnt_le hk
        have := (classSize_bounds i).2.2.2.2
        omega
      rw [Memory.word_writeWord_of_disjoint _ _ (by omega), Memory.word_writeWord_of_disjoint _ _ (by omega),
        Memory.word_writeWord_self _ _ hlt, h0, hword 4 (by omega)]
      exact ⟨h₁, h₂, rfl⟩
    · have hapart := hp.arenas_apart hA' hA heq
      have hpos := A'.pages_pos
      have hpos' := A.pages_pos
      rw [Memory.word_writeWord_of_disjoint _ _ (by omega), Memory.word_writeWord_of_disjoint _ _ (by omega),
        Memory.word_writeWord_of_disjoint _ _ (by omega), h0, hword 4 (by omega), hword 8 (by omega),
        Arena.freeCnt_congr (hkeep A' hA' heq)]
      exact ⟨h₁, h₂, h₃⟩
  · by_cases heq : j = i
    · subst heq
      exact ⟨l, isList_writeWord hl hbase hmod _, hmem⟩
    · obtain ⟨l', hl', hmem'⟩ := h.lists j
      have hl'' := list_of_writes hp (Ne.symm heq) hw hl' fun x hx => (hmem' x).mp hx
      refine ⟨l', isList_writeWord hl'' hbase hmod _, fun x => (hmem' x).trans ?_⟩
      refine exists_congr fun A' => and_congr_right fun hA' => and_congr_right fun hk' => and_congr_right fun hx => ?_
      rw [hkeep A' hA' (fun h => heq (Kind.small.inj (hk'.symm.trans (h ▸ hk)))) x.1 hx]

/-- The books depend on the arenas and the live blocks as sets. -/
theorem Books.congr_mem {arenas' : List Arena} (h : Books L arenas live m) (harenas : ∀ A, A ∈ arenas' ↔ A ∈ arenas)
    (hlive : ∀ p, p ∈ live' ↔ p ∈ live) : Books L arenas' live' m where
  descs := h.descs
  header A hA := by
    rw [Arena.freeCnt_congr fun p _ => hlive p]
    exact h.header A ((harenas A).mp hA)
  lists i := by
    obtain ⟨l, hl, hmem⟩ := h.lists i
    refine ⟨l, hl, fun x => (hmem x).trans ?_⟩
    simp only [harenas, hlive]

end Malloc
end Pintos
