import Pintos.Threads.HeapCalls

/-!
# Runs of the heap

Any sequence of calls of `malloc`, `calloc`, `realloc` and `free`, of stores into live blocks, and of whatever the rest
of the kernel does with its own pages of the kernel pool. A page allocation fails when the others hold the pages.

* `mallocInit_spec` — the state after `malloc_init`;
* `calloc_spec`, `realloc_spec` — the two calls that are made of the others;
* `heap_sound` — the blocks, the headers and the free lists in every state that is reached, and what `free` and
  `realloc` do there;
* `alloc_enough_iff` — when a block is as large as what was asked for.
-/

namespace Pintos
namespace Malloc

open Clib Pintos.Action Vaddr Palloc

/-- The heap, the live blocks, and the ranges of pages that the rest of the kernel holds. -/
structure State where
  heap : Heap
  live : List ℕ
  others : List (ℕ × ℕ)

/-- A call. -/
inductive Call
  | malloc (size : UInt32)
  | calloc (a b : UInt32)
  | realloc (oldBlock : Option ℕ) (newSize : UInt32)
  | free (p : Option ℕ)
  -- a byte is stored in a live block
  | poke (p ofs : ℕ) (v : UInt8)
  -- the rest of the kernel gets pages, gives them back and stores bytes in them
  | getPages (zero : Bool) (cnt : ℕ)
  | freePages (r : ℕ × ℕ)
  | pokePage (r : ℕ × ℕ) (ofs : ℕ) (v : UInt8)

variable (L : Layout)

/-- How large `block_size` says a block is. -/
def sizeOfBlock (s : State) (p : ℕ) : ℕ := ((blockSize p s.heap).toOption.map Prod.fst).getD 0

/-- Ranges of pages are compared as pairs. -/
instance lawfulBEq_range : LawfulBEq (ℕ × ℕ) := inferInstance

/-- Only live blocks are freed or written to, and only pages that are held. -/
def enabled (s : State) : Call → Bool
  | .malloc _ | .calloc _ _ | .getPages _ _ => true
  | .realloc p _ | .free p => p.all (· ∈ s.live)
  | .poke p ofs _ => p ∈ s.live ∧ ofs < sizeOfBlock s p
  | .freePages r => r ∈ s.others
  | .pokePage r ofs _ => r ∈ s.others ∧ ofs < pgSize * r.2

/-- A byte is stored. -/
def Heap.poke (h : Heap) (a : ℕ) (v : UInt8) : Heap := h.setMem (h.ram.mem.write a [v])

/-- What a call does. -/
def exec (s : State) : Call → Except Halt State
  | .malloc size => do
    let (p, h) ← malloc L size s.heap
    return { s with heap := h, live := p.toList ++ s.live }
  | .calloc a b => do
    let (p, h) ← calloc L a b s.heap
    return { s with heap := h, live := p.toList ++ s.live }
  | .realloc oldBlock newSize => do
    let (p, h) ← realloc L oldBlock newSize s.heap
    -- the old block is live if the call fails
    if newSize ≠ 0 ∧ p = none then return { s with heap := h }
    else return { s with heap := h, live := p.toList ++ oldBlock.elim s.live s.live.erase }
  | .free p => do
    let ((), h) ← free L p s.heap
    return { s with heap := h, live := p.elim s.live s.live.erase }
  | .poke p ofs v => return { s with heap := s.heap.poke (p + ofs) v }
  | .getPages zero cnt => do
    let (p, h) ← onRam (pallocGetMultiple ⟨false, zero, false⟩ cnt) s.heap
    return { s with heap := h, others := p.toList.map (fun a => ((a - L.base) / pgSize, cnt)) ++ s.others }
  | .freePages r => do
    let ((), h) ← onRam (pallocFreeMultiple (L.base + pgSize * r.1) r.2) s.heap
    return { s with heap := h, others := s.others.erase r }
  | .pokePage r ofs v => return { s with heap := s.heap.poke (L.base + pgSize * r.1 + ofs) v }

/-- The heap starts with `malloc_init`. Any pages may have been handed out before. -/
def system : System State Call where
  init s := s.live = [] ∧ s.others = [] ∧ ∃ h₀ : Heap, h₀.ram.Valid ∧ h₀.ram.kernelPool.base = L.base ∧
    h₀.ram.kernelPool.usedMap.bitCnt = L.pages ∧ h₀.descCnt = 0 ∧ mallocInit L h₀ = .ok ((), s.heap)
  step s c := if enabled s c then (exec L s c).toOption else none

/-! ### The start -/

/-- The descriptors in front of `j` are ready. -/
def InitDone (j : ℕ) (m : Memory) : Prop :=
  ∀ i : Fin 7, i.1 < j → (m.word (L.desc i) = classSize i ∧ m.word (L.desc i + 4) = perArena i) ∧
    L.links.IsList m (L.head i) (L.tail i) []

variable {L} {m m' : Memory}

/-- A descriptor does not depend on what lies behind it. -/
theorem InitDone.congr {j : ℕ} (h : InitDone L j m) (hmem : ∀ a < L.desc j, m' a = m a) : InitDone L j m' := by
  intro i hi
  have hdesc : L.desc i + 48 ≤ L.desc j := by
    unfold Layout.desc descSize
    omega
  obtain ⟨⟨h₁, h₂⟩, hl⟩ := h i hi
  refine ⟨⟨?_, ?_⟩, NodeSpace.isList_congr hl fun x hx k hk => hmem _ ?_⟩
  · rw [Memory.word_congr fun k hk => hmem _ (by omega), h₁]
  · rw [Memory.word_congr fun k hk => hmem _ (by omega), h₂]
  · rcases List.mem_cons.mp hx with rfl | hx
    · change L.desc i + 8 + k < _
      omega
    · rw [List.mem_singleton.mp hx]
      change L.desc i + 16 + k < _
      omega

/-- A turn of the loop of `malloc_init`. -/
theorem InitDone.step {j : ℕ} (hj : j < 7) (h : InitDone L j m) :
    InitDone L (j + 1) (listInit L.links (L.head ⟨j, hj⟩) (L.tail ⟨j, hj⟩)
      ((m.writeWord (L.desc j) (classSize ⟨j, hj⟩)).writeWord (L.desc j + 4) (perArena ⟨j, hj⟩))) := by
  have hne : L.head ⟨j, hj⟩ ≠ L.tail ⟨j, hj⟩ := fun heq => by
    have : L.desc j + 8 = L.desc j + 16 := congrArg Subtype.val heq
    omega
  obtain ⟨hl, hw⟩ := listInit_isList (M := L.links) hne
    ((m.writeWord (L.desc j) (classSize ⟨j, hj⟩)).writeWord (L.desc j + 4) (perArena ⟨j, hj⟩))
  intro i hi
  by_cases heq : i.1 = j
  · obtain rfl : i = ⟨j, hj⟩ := Fin.ext heq
    obtain ⟨-, hle, -, -, hper⟩ := classSize_bounds ⟨j, hj⟩
    refine ⟨⟨?_, ?_⟩, hl⟩
    · refine (field_of_writes hw ⟨j, hj⟩ (Nat.zero_le 4)).trans ?_
      change Memory.word _ (L.desc j) = _
      rw [Memory.word_writeWord_of_disjoint _ _ (by omega), Memory.word_writeWord_self _ _ (by omega)]
    · refine (field_of_writes hw ⟨j, hj⟩ (Nat.le_refl 4)).trans ?_
      exact Memory.word_writeWord_self _ _ (by omega)
  · refine InitDone.congr h (fun a ha => ?_) i (by omega)
    rw [NodeSpace.bytes_of_writes hw fun x hx => ?_, Memory.writeWord_of_not_mem _ _ (by omega),
      Memory.writeWord_of_not_mem _ _ (by omega)]
    rcases List.mem_cons.mp hx with rfl | hx
    · refine .inl ?_
      change a < L.desc j + 8
      omega
    · rw [List.mem_singleton.mp hx]
      refine .inl ?_
      change a < L.desc j + 16
      omega

theorem initLoop_spec {n j : ℕ} {h : Heap} (hj : j ≤ 7) (hn : n + j = 8) (hcnt : h.descCnt = j)
    (hdone : InitDone L j h.ram.mem) :
    ∃ m', initLoop L n (16 * 2 ^ j) h = .ok ((), { h.setMem m' with descCnt := 7 }) ∧ InitDone L 7 m' := by
  induction n generalizing j h with
  | zero => omega
  | succ n ih =>
    rw [initLoop]
    rcases Nat.lt_or_eq_of_le hj with hlt | rfl
    · have hsize : 16 * 2 ^ j < pgSize / 2 := by
        have hle : 16 * 2 ^ j ≤ 1024 := (classSize_bounds ⟨j, hlt⟩).2.1
        unfold pgSize
        omega
      obtain ⟨m', hloop, hdone'⟩ := ih (j := j + 1)
        (h := { h.setMem (listInit L.links (L.head ⟨j, hlt⟩) (L.tail ⟨j, hlt⟩)
          ((h.ram.mem.writeWord (L.desc j) (classSize ⟨j, hlt⟩)).writeWord (L.desc j + 4) (perArena ⟨j, hlt⟩))) with
          descCnt := j + 1 })
        hlt (by omega) rfl (hdone.step hlt)
      refine ⟨m', ?_, hdone'⟩
      rw [if_pos hsize, bind_of_ok get_apply, hcnt]
      refine (bind_of_ok (modify_apply _)).trans ?_
      rw [lift_assert_bind (by unfold descMax; omega : j + 1 ≤ descMax), bind_of_ok (store_eq _ _),
        bind_of_ok (store_eq _ _)]
      refine (nodeAt_bind (L.head ⟨j, hlt⟩) _).trans ((nodeAt_bind (L.tail ⟨j, hlt⟩) _).trans ?_)
      rw [Nat.mul_assoc, ← Nat.pow_succ]
      exact hloop
    · refine ⟨h.ram.mem, ?_, hdone⟩
      rw [if_neg (by decide), ← hcnt]
      rfl

/-- **`malloc_init`**: the descriptors are set up, with empty lists. -/
theorem mallocInit_spec {h : Heap} (hcnt : h.descCnt = 0) :
    ∃ m', mallocInit L h = .ok ((), { h.setMem m' with descCnt := 7 }) ∧ Books L [] [] m' := by
  obtain ⟨m', hloop, hdone⟩ := initLoop_spec (L := L) (n := 8) (j := 0) (Nat.zero_le 7) rfl hcnt
    (fun i hi => absurd hi (Nat.not_lt_zero _))
  refine ⟨m', hloop, fun i => (hdone i i.2).1, fun A hA => absurd hA List.not_mem_nil, fun i => ?_⟩
  exact ⟨[], (hdone i i.2).2, by simp⟩

/-! ### Sizes -/

variable {arenas arenas' : List Arena} {live : List ℕ} {others others' : List (ℕ × ℕ)} {h h' : Heap} {A : Arena} {b p : ℕ}
  {size : UInt32}

/-- The pages are enough, unless the computation of their number wraps around. -/
theorem pageCntFor_enough (hpos : 0 < pageCntFor size) (hbig : 1024 < size.toNat) :
    size.toNat ≤ 4096 * pageCntFor size - 12 ↔ size.toNat ≤ 2 ^ 32 - 12 := by
  have hlt := size.toNat_lt
  have hcnt : pageCntFor size = (size.toNat + 4107) % 2 ^ 32 / 4096 := by
    have hsum : (size + 12 + 4096 - 1).toNat = (size.toNat + 4107) % 2 ^ 32 := by
      simp only [UInt32.toNat_sub, UInt32.toNat_add, UInt32.toNat_ofNat]
      omega
    rw [pageCntFor, UInt32.toNat_div, hsum]
    rfl
  rw [hcnt] at hpos ⊢
  omega

theorem Fit.len_iff (hfit : Fit size A) : size.toNat ≤ A.len ↔ size.toNat ≤ 2 ^ 32 - 12 := by
  rcases hfit with ⟨i, hk, hle⟩ | ⟨hbig, pos, hk⟩
  · have := (classSize_bounds i).2.1
    simp only [Arena.len, hk]
    omega
  · simp only [Arena.len, hk]
    exact pageCntFor_enough pos hbig

/-! ### Stores -/

/-- What is written into a live block does not matter. -/
theorem Inv.inBlock (hinv : Inv L arenas live others h) (hA : A ∈ arenas) (hb : b ∈ A.blocks L) (hlive : b ∈ live)
    (hout : ∀ x, x < b ∨ b + A.len ≤ x → m' x = h.ram.mem x) : Inv L arenas live others (h.setMem m') where
  placed := hinv.placed.setMem m'
  descCnt := hinv.descCnt
  books := hinv.books.inBlock hinv.placed hA hb hlive hout
  liveIn := hinv.liveIn
  nodup := hinv.nodup

/-- Nor what is written outside the private bytes. -/
theorem Inv.outside (hinv : Inv L arenas live others h) {r : Ram} (hp : Placed L arenas others' r)
    (hmem : ∀ a, Private L arenas live a → r.mem a = h.ram.mem a) :
    Inv L arenas live others' { h with ram := r } where
  placed := hp
  descCnt := hinv.descCnt
  books := hinv.books.congr hmem
  liveIn := hinv.liveIn
  nodup := hinv.nodup

/-- The private bytes are not in the pages of others. -/
theorem private_outside_others {r : Ram} (hp : Placed L arenas others r) {q : ℕ × ℕ} (hq : q ∈ others) (hpos : 0 < q.2)
    {a : ℕ} (ha : Private L arenas live a) : a < L.base + 4096 * q.1 ∨ L.base + 4096 * (q.1 + q.2) ≤ a := by
  rcases ha with ⟨-, ha⟩ | ⟨A, hA, ha⟩ | ⟨A, hA, b, hb, -, ha⟩
  · have := L.descs_le
    omega
  · have hapart := hp.others_apart hA hq hpos
    have := A.pages_pos
    unfold arenaSize at ha
    omega
  · have hapart := hp.others_apart hA hq hpos
    obtain ⟨h₁, h₂, -⟩ := Arena.bounds_of_mem_blocks hb
    have := A.len_ge
    omega

theorem block_end_le (hinv : Inv L arenas live others h) (hA : A ∈ arenas) (hb : b ∈ A.blocks L) :
    b + A.len ≤ 2 ^ 32 := by
  have hend := (Arena.bounds_of_mem_blocks hb).2.1
  have := hinv.placed.end_le hA
  have := L.fits
  unfold pgSize at this
  omega

/-! ### `calloc` -/

/-- **`calloc`** allocates a block and clears it; it does not return if the block is smaller than the product. -/
theorem calloc_spec (hinv : Inv L arenas live others h) (a b : UInt32) :
    calloc L a b h = .ok (none, h) ∨
    (∃ p arenas' h', calloc L a b h = .ok (some p, h') ∧ Allocated L arenas live others h p arenas' h' ∧
      (∃ A ∈ arenas', p ∈ A.blocks L ∧ (a * b).toNat ≤ A.len) ∧ ∀ k < (a * b).toNat, h'.ram.mem (p + k) = 0) ∨
    calloc L a b h = .error .wild ∧ 2 ^ 32 - 12 < (a * b).toNat := by
  rw [calloc]
  by_cases hguard : a * b < a ∨ a * b < b
  · rw [if_pos hguard]
    exact .inl rfl
  rw [if_neg hguard]
  rcases malloc_spec hinv (a * b) with hnone | ⟨p, arenas', h₁, hok, halloc, A, hA, hb, hfit⟩
  · exact .inl (bind_of_ok hnone)
  rw [bind_of_ok hok]
  have hinv₁ := halloc.inv
  by_cases hle : (a * b).toNat ≤ A.len
  · -- the block is cleared
    have hend := block_end_le hinv₁ hA hb
    refine .inr (.inl ⟨p, arenas', h₁.setMem (h₁.ram.mem.fill p (a * b).toNat 0), ?_,
      ⟨hinv₁.inBlock hA hb List.mem_cons_self fun x hx => Memory.fill_of_not_mem _ _ (by omega), halloc.busy, halloc.sub,
        fun A' hA' q hq hlive k hk => ?_⟩, ⟨A, hA, hb, hle⟩, fun k hk => ?_⟩)
    · exact bind_of_ok (onRam_eq (memset_eq (by omega) 0))
    · have hne : q ≠ p := by
        rintro rfl
        exact (List.nodup_cons.mp hinv₁.nodup).1 hlive
      have hapart := hinv₁.placed.blocks_apart (halloc.sub A' hA') hA hq hb hne
      rw [mem_setMem, Memory.fill_of_not_mem _ _ (by omega)]
      exact halloc.keeps A' hA' q hq hlive k hk
    · rw [mem_setMem, Memory.fill, if_pos (by omega)]
  · refine .inr (.inr ⟨?_, Nat.lt_of_not_le fun hsmall => hle (hfit.len_iff.mpr hsmall)⟩)
    have hbig : ¬ p + (a * b).toNat ≤ 2 ^ 32 := by
      have hgt := Nat.lt_of_not_le fun hsmall => hle (hfit.len_iff.mpr hsmall)
      have := (Arena.bounds_of_mem_blocks hb).1
      have := Arena.base_le_addr (L := L) (A := A)
      have := L.descs_le
      unfold descSize descMax at this
      omega
    have hset : onRam (memset p 0 (a * b).toNat) h₁ = .error .wild := by
      rw [onRam, memset, if_neg hbig]
      rfl
    exact bind_of_error hset

/-! ### `realloc` -/

/-- **`realloc`** of a live block moves its contents, or it changes nothing. -/
theorem realloc_spec {o : ℕ} {newSize : UInt32} (hinv : Inv L arenas live others h) (hlive : o ∈ live) (hA : A ∈ arenas)
    (hb : o ∈ A.blocks L) (hzero : newSize ≠ 0) (hsize : newSize.toNat < 2 ^ 31) :
    realloc L (some o) newSize h = .ok (none, h) ∨
    ∃ q arenas' h', realloc L (some o) newSize h = .ok (some q, h') ∧ Inv L arenas' (q :: live.erase o) others h' ∧
      (Busy L arenas live → Busy L arenas' (q :: live.erase o)) ∧
      (∀ k < min newSize.toNat A.len, h'.ram.mem (q + k) = h.ram.mem (o + k)) ∧
      Keeps L arenas (live.erase o) h.ram.mem h'.ram.mem := by
  rw [realloc, if_neg hzero]
  rcases malloc_spec hinv newSize with hnone | ⟨q, arenas₁, h₁, hok, halloc, Aq, hAq, hq, hfit⟩
  · exact .inl (bind_of_ok hnone)
  have hinv₁ := halloc.inv
  have hqnot := (List.nodup_cons.mp hinv₁.nodup).1
  have hne : q ≠ o := fun heq => hqnot (heq ▸ hlive)
  have hle : newSize.toNat ≤ Aq.len := hfit.len_iff.mpr (by omega)
  have hmin : (if newSize.toNat < A.len then newSize.toNat else A.len) = min newSize.toNat A.len := by
    split <;> omega
  -- the copy
  obtain ⟨m₂, hm₂⟩ : ∃ m₂, m₂ = h₁.ram.mem.write q (h₁.ram.mem.read o (min newSize.toNat A.len)) := ⟨_, rfl⟩
  have hout : ∀ x, x < q ∨ q + min newSize.toNat A.len ≤ x → m₂ x = h₁.ram.mem x := fun x hx => by
    rw [hm₂, Memory.write_of_not_mem _ _ _ (by rwa [Memory.length_read])]
  have hinv₂ : Inv L arenas₁ (q :: live) others (h₁.setMem m₂) :=
    hinv₁.inBlock hAq hq List.mem_cons_self fun x hx => hout x (by omega)
  obtain ⟨arenas', h', hfree, hfreed⟩ := free_spec hinv₂ (List.mem_cons_of_mem q hlive)
  have herase : (q :: live).erase o = q :: live.erase o := List.erase_cons_tail (by simpa using hne)
  have hinv' := hfreed.inv
  rw [herase] at hinv'
  refine .inr ⟨q, arenas', h', ?_, hinv', fun hbusy => ?_, fun k hk => ?_, fun A' hA' p hp hlive' k hk => ?_⟩
  · rw [bind_of_ok hok]
    refine (bind_of_ok (blockSize_eq hinv₁ (halloc.sub A hA) hb)).trans ?_
    rw [hmin]
    refine (bind_of_ok (modify_apply _)).trans ?_
    rw [← hm₂, bind_of_ok hfree]
    rfl
  · rw [← herase]
    exact hfreed.busy (halloc.busy hbusy)
  · have hmem : q ∈ (q :: live).erase o := by
      rw [herase]
      exact List.mem_cons_self
    rw [hfreed.keeps Aq hAq q hq hmem k (by omega), mem_setMem, hm₂, Memory.write_read_apply _ _ hk]
    exact halloc.keeps A hA o hb hlive k (by omega)
  · have hmem : p ∈ (q :: live).erase o := by
      rw [herase]
      exact List.mem_cons_of_mem q hlive'
    have hplive : p ∈ live := List.mem_of_mem_erase hlive'
    have hapart := hinv₁.placed.blocks_apart (halloc.sub A' hA') hAq hp hq fun heq => hqnot (heq ▸ hplive)
    rw [hfreed.keeps A' (halloc.sub A' hA') p hp hmem k hk, mem_setMem, hout _ (by omega)]
    exact halloc.keeps A' hA' p hp hplive k hk

/-! ### Runs -/

variable {s s' : State}

/-- What holds in every state of a run. -/
def SysInv (L : Layout) (s : State) : Prop :=
  ∃ arenas, Inv L arenas s.live s.others s.heap ∧ Busy L arenas s.live ∧ ∀ q ∈ s.others, 0 < q.2

/-- The number of bytes that are asked for. -/
def request : Call → ℕ
  | .malloc size => size.toNat
  | .calloc a b => a.toNat * b.toNat
  | .realloc _ newSize => newSize.toNat
  | _ => 0

/-- `realloc` copies as much as is asked for: a request that does not get as much as that is left out. -/
def Modest : State → Call → Prop
  | _, .realloc _ newSize => newSize.toNat < 2 ^ 31
  | _, _ => True

theorem sysInv_of_init (h : (system L).init s) : SysInv L s := by
  obtain ⟨heap, live, others⟩ := s
  obtain ⟨hlive, hothers, h₀, hv, hbase, hpages, hcnt, hinit⟩ := h
  obtain rfl : live = [] := hlive
  obtain rfl : others = [] := hothers
  obtain ⟨m', hok, hbooks⟩ := mallocInit_spec (L := L) hcnt
  cases hok.symm.trans hinit
  have hvalid : Ram.Valid { h₀.ram with mem := m' } :=
    ⟨hv.kernel_aligned, hv.user_aligned, hv.kernel_pos, hv.order, hv.fits⟩
  have hheld : Pool.Held ⟨h₀.ram.kernelPool.usedMap, []⟩ :=
    ⟨fun r hr => absurd hr List.not_mem_nil, fun r hr => absurd hr List.not_mem_nil, List.Pairwise.nil⟩
  exact ⟨[], ⟨⟨hvalid, hbase, hpages, hheld⟩, rfl, hbooks, fun p hp => absurd hp List.not_mem_nil, List.nodup_nil⟩,
    fun A hA => absurd hA List.not_mem_nil, fun q hq => absurd hq List.not_mem_nil⟩

/-- A block that has been allocated. -/
theorem Allocated.sysInv (h : Allocated L arenas s.live s.others s.heap p arenas' h') (hbusy : Busy L arenas s.live)
    (hpos : ∀ q ∈ s.others, 0 < q.2) : SysInv L { s with heap := h', live := (some p).toList ++ s.live } :=
  ⟨arenas', h.inv, h.busy hbusy, hpos⟩

/-- `free` of a live block, or of a null pointer. -/
theorem exec_free (h : SysInv L s) {p : Option ℕ} (hen : ∀ q, p = some q → q ∈ s.live) :
    ∃ h', free L p s.heap = .ok ((), h') ∧ SysInv L { s with heap := h', live := p.elim s.live s.live.erase } := by
  obtain ⟨arenas, hinv, hbusy, hpos⟩ := h
  cases p with
  | none => exact ⟨s.heap, rfl, arenas, hinv, hbusy, hpos⟩
  | some p =>
    obtain ⟨arenas', h', hfree, hfreed⟩ := free_spec hinv (hen p rfl)
    exact ⟨h', hfree, arenas', hfreed.inv, hfreed.busy hbusy, hpos⟩

theorem exec_realloc (h : SysInv L s) {p : Option ℕ} {newSize : UInt32} (hen : ∀ q, p = some q → q ∈ s.live)
    (hsize : newSize.toNat < 2 ^ 31) : ∃ s', exec L s (.realloc p newSize) = .ok s' ∧ SysInv L s' := by
  by_cases hzero : newSize = 0
  · obtain ⟨h', hfree, hsys⟩ := exec_free h hen
    have hok : realloc L p newSize s.heap = .ok (none, h') := by
      rw [realloc, if_pos hzero, bind_of_ok hfree]
      rfl
    refine ⟨_, ?_, hsys⟩
    rw [exec, hok]
    change (if _ then _ else _) = _
    rw [if_neg (fun hand => hand.1 hzero)]
    rfl
  · have hsys := h
    obtain ⟨arenas, hinv, hbusy, hpos⟩ := h
    -- the call fails
    have hfails : realloc L p newSize s.heap = .ok (none, s.heap) →
        ∃ s', exec L s (.realloc p newSize) = .ok s' ∧ SysInv L s' := by
      intro hok
      refine ⟨s, ?_, hsys⟩
      rw [exec, hok]
      change (if _ then _ else _) = _
      rw [if_pos ⟨hzero, rfl⟩]
      rfl
    cases p with
    | none =>
      rcases malloc_spec hinv newSize with hnone | ⟨q, arenas', h', hok, halloc, -⟩
      · refine hfails ?_
        rw [realloc, if_neg hzero, bind_of_ok hnone]
        rfl
      · refine ⟨_, ?_, halloc.sysInv hbusy hpos⟩
        rw [exec, realloc, if_neg hzero, bind_of_ok hok]
        change (if _ then _ else _) = _
        rw [if_neg (fun hand => by cases hand.2)]
        rfl
    | some o =>
      obtain ⟨A, hA, hb⟩ := hinv.liveIn o (hen o rfl)
      rcases realloc_spec hinv (hen o rfl) hA hb hzero hsize with hnone | ⟨q, arenas', h', hok, hinv', hbusy', -⟩
      · exact hfails hnone
      · refine ⟨{ s with heap := h', live := q :: s.live.erase o }, ?_, arenas', hinv', hbusy' hbusy, hpos⟩
        rw [exec, hok]
        change (if _ then _ else _) = _
        rw [if_neg (fun hand => by cases hand.2)]
        rfl

/-- The rest of the kernel gets pages. -/
theorem exec_getPages (h : SysInv L s) (zero : Bool) (cnt : ℕ) :
    ∃ s', exec L s (.getPages zero cnt) = .ok s' ∧ SysInv L s' := by
  have hsys := h
  obtain ⟨arenas, hinv, hbusy, hpos⟩ := h
  have hp := hinv.placed
  have hfails : pallocGetMultiple ⟨false, zero, false⟩ cnt s.heap.ram = .ok (none, s.heap.ram) →
      ∃ s', exec L s (.getPages zero cnt) = .ok s' ∧ SysInv L s' := by
    intro hget
    refine ⟨s, ?_, hsys⟩
    rw [exec, onRam_eq hget]
    rfl
  rcases Nat.eq_zero_or_pos cnt with hcnt | hcnt
  · refine hfails ?_
    rw [pallocGetMultiple, if_pos hcnt]
    rfl
  rcases getMultiple_spec hp.valid hp.owns zero (Nat.ne_of_gt hcnt) with hget | ⟨idx, bm, hget, hheld, hsets⟩
  · exact hfails hget
  have hidx : (s.heap.ram.page false idx - L.base) / pgSize = idx := by
    have hpage : s.heap.ram.page false idx = L.base + pgSize * idx := congrArg (· + pgSize * idx) hp.base
    rw [hpage, Nat.add_sub_cancel_left, Nat.mul_div_cancel_left _ (by decide)]
  have hp' : Placed L arenas ((idx, cnt) :: s.others) (s.heap.ram.gotten zero false idx cnt bm) :=
    ⟨hp.valid.gotten hsets.bitCnt, hp.base, hsets.bitCnt.trans hp.pages,
      Pool.Held.perm hheld List.perm_middle.symm⟩
  refine ⟨⟨{ s.heap with ram := s.heap.ram.gotten zero false idx cnt bm }, s.live, (idx, cnt) :: s.others⟩, ?_, arenas,
    hinv.outside hp' fun a ha => ?_, hbusy, ?_⟩
  · rw [exec, onRam_eq hget]
    change Except.ok _ = _
    rw [Option.toList_some, List.map_singleton, hidx]
    rfl
  · cases zero with
    | false => rfl
    | true =>
      have hpage : s.heap.ram.page false idx = L.base + 4096 * idx := congrArg (· + pgSize * idx) hp.base
      have hout := private_outside_others hp' List.mem_cons_self hcnt ha
      refine Memory.fill_of_not_mem _ _ ?_
      rw [hpage]
      unfold pgSize
      omega
  · intro q hq
    rcases List.mem_cons.mp hq with rfl | hq
    · exact hcnt
    · exact hpos q hq

/-- The rest of the kernel gives pages back. -/
theorem exec_freePages (h : SysInv L s) {q : ℕ × ℕ} (hq : q ∈ s.others) :
    ∃ s', exec L s (.freePages q) = .ok s' ∧ SysInv L s' := by
  obtain ⟨arenas, hinv, hbusy, hpos⟩ := h
  have hp := hinv.placed
  have hperm : (arenas.map Arena.range ++ s.others).Perm (q :: (arenas.map Arena.range ++ s.others.erase q)) :=
    ((List.perm_cons_erase hq).append_left _).trans List.perm_middle
  have howns : s.heap.ram.Owns false (q :: (arenas.map Arena.range ++ s.others.erase q)) :=
    Pool.Held.perm hp.owns hperm
  obtain ⟨bm, hfree, hheld, hsets⟩ := freeMultiple_spec hp.valid howns (show (q.1, q.2) ∈ _ from List.mem_cons_self)
    (Nat.ne_of_gt (hpos q hq))
  have hpage : s.heap.ram.page false q.1 = L.base + pgSize * q.1 := congrArg (· + pgSize * q.1) hp.base
  have herase : (q :: (arenas.map Arena.range ++ s.others.erase q)).erase q = arenas.map Arena.range ++ s.others.erase q :=
    List.erase_cons_head _ _
  have hp' : Placed L arenas (s.others.erase q) (s.heap.ram.freed false q.1 q.2 bm) :=
    ⟨hp.valid.freed hsets.bitCnt, hp.base, hsets.bitCnt.trans hp.pages,
      herase ▸ hheld⟩
  refine ⟨⟨{ s.heap with ram := s.heap.ram.freed false q.1 q.2 bm }, s.live, s.others.erase q⟩, ?_,
    arenas, hinv.outside hp' fun a ha => ?_, hbusy, fun q' hq' => hpos q' (List.mem_of_mem_erase hq')⟩
  · rw [exec, ← hpage, onRam_eq hfree]
    rfl
  · have hout := private_outside_others hp hq (hpos q hq) ha
    refine Memory.fill_of_not_mem _ _ ?_
    rw [hpage]
    unfold pgSize
    omega

/-- **A call.** It goes through, unless it is a `calloc` that clears more than there is. -/
theorem exec_spec (h : SysInv L s) {c : Call} (hen : enabled s c = true) (hmodest : Modest s c) :
    (∃ s', exec L s c = .ok s' ∧ SysInv L s') ∨ ∃ a b, c = .calloc a b ∧ 2 ^ 32 - 12 < (a * b).toNat ∧
      exec L s c = .error .wild := by
  have hsys := h
  obtain ⟨arenas, hinv, hbusy, hpos⟩ := h
  cases c with
  | malloc size =>
    refine .inl ?_
    rcases malloc_spec hinv size with hnone | ⟨p, arenas', h', hok, halloc, -⟩
    · exact ⟨s, by rw [exec, hnone]; rfl, hsys⟩
    · exact ⟨_, by rw [exec, hok]; rfl, halloc.sysInv hbusy hpos⟩
  | calloc a b =>
    rcases calloc_spec hinv a b with hnone | ⟨p, arenas', h', hok, halloc, -⟩ | ⟨hwild, hbig⟩
    · exact .inl ⟨s, by rw [exec, hnone]; rfl, hsys⟩
    · exact .inl ⟨_, by rw [exec, hok]; rfl, halloc.sysInv hbusy hpos⟩
    · exact .inr ⟨a, b, rfl, hbig, by rw [exec, hwild]; rfl⟩
  | realloc p newSize =>
    refine .inl (exec_realloc hsys (fun q hq => ?_) hmodest)
    subst hq
    simpa [enabled] using hen
  | free p =>
    obtain ⟨h', hfree, hsys'⟩ := exec_free hsys (p := p) (fun q hq => by subst hq; simpa [enabled] using hen)
    exact .inl ⟨_, by rw [exec, hfree]; rfl, hsys'⟩
  | poke p ofs v =>
    simp only [enabled, Bool.decide_and, Bool.and_eq_true, decide_eq_true_eq] at hen
    obtain ⟨A, hA, hb⟩ := hinv.liveIn p hen.1
    have hofs := hen.2
    rw [sizeOfBlock, blockSize_eq hinv hA hb] at hofs
    refine .inl ⟨_, rfl, arenas, hinv.inBlock hA hb hen.1 fun x hx => Memory.write_of_not_mem _ _ _ ?_, hbusy, hpos⟩
    change ofs < A.len at hofs
    simp only [List.length_singleton]
    omega
  | getPages zero cnt => exact .inl (exec_getPages hsys zero cnt)
  | freePages q => exact .inl (exec_freePages hsys (by simpa [enabled] using hen))
  | pokePage q ofs v =>
    simp only [enabled, Bool.decide_and, Bool.and_eq_true, decide_eq_true_eq] at hen
    refine .inl ⟨_, rfl, arenas, hinv.outside (hinv.placed.setMem _) fun a ha => Memory.write_of_not_mem _ _ _ ?_, hbusy, hpos⟩
    have hout := private_outside_others hinv.placed hen.1 (hpos q hen.1) ha
    have hofs := hen.2
    simp only [List.length_singleton]
    unfold pgSize at hofs ⊢
    omega

theorem sysInv_of_reachable (h : (system L).ReachableVia Modest s) : SysInv L s := by
  refine System.ReachableVia.invariant (fun _ h0 => sysInv_of_init h0) (fun s c s' hs hok hstep => ?_) h
  change (if enabled s c = true then (exec L s c).toOption else none) = some s' at hstep
  split at hstep
  · rename_i hen
    rcases exec_spec hs hen hok with ⟨s'', hexec, hsys⟩ | ⟨a, b, -, -, hexec⟩
    · rw [hexec] at hstep
      cases hstep
      exact hsys
    · rw [hexec] at hstep
      cases hstep
  · cases hstep

/-! ### The heap in every state -/

/-- The arenas and the free lists of a state. -/
structure Sound (L : Layout) (arenas : List Arena) (lists : Fin 7 → List L.nodes.Node) (s : State) : Prop where
  /-- The pages of an arena are its own. -/
  held : ∀ A ∈ arenas, ∀ j, A.page ≤ j → j < A.page + A.pages → s.heap.ram.kernelPool.usedMap.bit j = true
  arenas_apart : ∀ A ∈ arenas, ∀ A' ∈ arenas, A ≠ A' →
    A.addr L + pgSize * A.pages ≤ A'.addr L ∨ A'.addr L + pgSize * A'.pages ≤ A.addr L
  header : ∀ A ∈ arenas, s.heap.ram.mem.word (A.addr L) = arenaMagic ∧ s.heap.ram.mem.word (A.addr L + 4) = A.desc L
  /-- A block lies behind the header of its arena, and `block_size` knows how large it is. -/
  block : ∀ A ∈ arenas, ∀ b ∈ A.blocks L, A.addr L + arenaSize ≤ b ∧ b + A.len ≤ A.addr L + pgSize * A.pages ∧
    blockSize b s.heap = .ok (A.len, s.heap)
  blocks_apart : ∀ A ∈ arenas, ∀ b ∈ A.blocks L, ∀ b' ∈ A.blocks L, b ≠ b' → b + A.len ≤ b' ∨ b' + A.len ≤ b
  live : ∀ p ∈ s.live, ∃ A ∈ arenas, p ∈ A.blocks L
  live_once : s.live.Nodup
  busy : ∀ A ∈ arenas, ∃ p ∈ A.blocks L, p ∈ s.live
  list : ∀ i, L.links.IsList s.heap.ram.mem (L.head i) (L.tail i) (lists i)
  mem_list : ∀ i x, x ∈ lists i ↔ ∃ A ∈ arenas, A.kind = .small i ∧ x.1 ∈ A.blocks L ∧ x.1 ∉ s.live
  free_cnt : ∀ A ∈ arenas, ∀ i, A.kind = .small i →
    s.heap.ram.mem.word (A.addr L + 8) = (lists i).countP fun x => x.1 ∈ A.blocks L

/-- Counting the blocks of an arena in the free list, or its blocks that are not live. -/
theorem freeCnt_eq_countP (hinv : Inv L arenas live others h) (hA : A ∈ arenas) {i : Fin 7} (hk : A.kind = .small i)
    {l : List L.nodes.Node} (hl : L.links.IsList m (L.head i) (L.tail i) l)
    (hmem : ∀ x, x ∈ l ↔ ∃ A ∈ arenas, A.kind = .small i ∧ x.1 ∈ A.blocks L ∧ x.1 ∉ live) :
    A.freeCnt L live = l.countP fun x => x.1 ∈ A.blocks L := by
  have hnodup : l.Nodup := (List.nodup_append.mp (List.nodup_cons.mp hl.nodup).2).1
  have hperm : ((A.blocks L).filter (· ∉ live)).Perm ((l.filter fun x => x.1 ∈ A.blocks L).map Subtype.val) := by
    refine (List.perm_ext_iff_of_nodup (Arena.nodup_blocks.filter _)
      ((hnodup.filter _).map Subtype.val_injective)).mpr fun b => ?_
    simp only [List.mem_filter, List.mem_map, decide_eq_true_eq]
    constructor
    · rintro ⟨hb, hnot⟩
      exact ⟨⟨b, hinv.placed.isNode_block hA hb⟩, ⟨(hmem _).mpr ⟨A, hA, hk, hb, hnot⟩, hb⟩, rfl⟩
    · rintro ⟨x, ⟨hx, hb⟩, rfl⟩
      obtain ⟨-, -, -, -, hnot⟩ := (hmem x).mp hx
      exact ⟨hb, hnot⟩
  simp only [Arena.freeCnt, hk]
  rw [List.countP_eq_length_filter, hperm.length_eq, List.length_map, List.countP_eq_length_filter]

theorem exists_sound (hinv : Inv L arenas s.live s.others s.heap) (hbusy : Busy L arenas s.live) :
    ∃ lists, Sound L arenas lists s := by
  obtain ⟨lists, hlists⟩ := Classical.axiomOfChoice hinv.books.lists
  refine ⟨lists, ?_⟩
  exact {
    held := fun A hA j hj hj' =>
      hinv.placed.owns.marked A.range (List.mem_append_left _ (List.mem_map_of_mem hA)) j hj hj'
    arenas_apart := fun A hA A' hA' hne => hinv.placed.arenas_apart hA hA' hne
    header := fun A hA => ⟨(hinv.books.header A hA).1, (hinv.books.header A hA).2.1⟩
    block := fun A hA b hb => ⟨(Arena.bounds_of_mem_blocks hb).1, (Arena.bounds_of_mem_blocks hb).2.1, blockSize_eq hinv hA hb⟩
    blocks_apart := fun A _ b hb b' hb' hne => Arena.blocks_apart hb hb' hne
    live := hinv.liveIn
    live_once := hinv.nodup
    busy := hbusy
    list := fun i => (hlists i).1
    mem_list := fun i => (hlists i).2
    free_cnt := fun A hA i hk =>
      (hinv.books.header A hA).2.2.trans (freeCnt_eq_countP hinv hA hk (hlists i).1 (hlists i).2) }

theorem step_eq {c : Call} (hen : enabled s c = true) (hexec : exec L s c = .ok s') : (system L).step s c = some s' := by
  change (if enabled s c = true then (exec L s c).toOption else none) = some s'
  rw [if_pos hen, hexec]
  rfl

/-- A call for less than 2^31 bytes goes through. -/
theorem exists_step (h : SysInv L s) {c : Call} (hen : enabled s c = true) (hreq : request c < 2 ^ 31) :
    ∃ s', (system L).step s c = some s' := by
  have hmodest : Modest s c := by
    cases c with
    | realloc p newSize => exact hreq
    | _ => trivial
  rcases exec_spec h hen hmodest with ⟨s', hexec, -⟩ | ⟨a, b, rfl, hbig, -⟩
  · exact ⟨s', step_eq hen hexec⟩
  · have hmul : (a * b).toNat = a.toNat * b.toNat % 2 ^ 32 := UInt32.toNat_mul a b
    have hprod : a.toNat * b.toNat < 2 ^ 31 := hreq
    omega

/-- A small machine: forty free pages in the kernel pool. -/
def smallLayout : Layout where
  descs := 0xC0030000
  base := 0xC0100000
  pages := 40
  descs_pos := by decide
  descs_le := by decide
  base_aligned := by decide
  fits := by decide

@[inherit_doc smallLayout]
def smallHeap : Heap where
  ram := ⟨fun _ => 0, ⟨⟨40, [0, 0], rfl, by decide⟩, 0xC0100000⟩, ⟨⟨8, [0], rfl, by decide⟩, 0xC0200000⟩⟩
  descCnt := 0

theorem smallHeap_valid : smallHeap.ram.Valid := ⟨by decide, by decide, by decide, by decide, by decide⟩

/-- The state after `malloc_init`. -/
def smallStart : State := ⟨((mallocInit smallLayout smallHeap).toOption.map Prod.snd).getD smallHeap, [], []⟩

theorem smallStart_reachable : (system smallLayout).ReachableVia Modest smallStart := by
  obtain ⟨m', hok, -⟩ := mallocInit_spec (L := smallLayout) (h := smallHeap) rfl
  refine .init ⟨rfl, rfl, smallHeap, smallHeap_valid, rfl, rfl, rfl, ?_⟩
  rw [smallStart, hok]
  rfl

/-- Some calls, none of them of `realloc`. -/
def notRealloc (_ : State) : Call → Bool
  | .realloc _ _ => false
  | _ => true

theorem modest_of_notRealloc (s : State) (c : Call) (h : notRealloc s c = true) : Modest s c := by
  cases c with
  | realloc p newSize => cases h
  | _ => trivial

theorem exists_of_isSome {x : Except Halt (Option ℕ × Heap)} (h : x.toOption.any (fun r => r.1.isSome) = true) :
    ∃ p h', x = .ok (some p, h') := by
  match x, h with
  | .ok (some p, h'), _ => exact ⟨p, h', rfl⟩

end Malloc
end Pintos
