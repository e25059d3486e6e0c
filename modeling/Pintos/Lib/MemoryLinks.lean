import Pintos.Lib.Bytes
import Pintos.Lib.Links

/-!
# Links in memory

Nodes of eight bytes in memory: a pointer to the node in front, and one to the node behind. A word that is not the
address of a node is no pointer.

* `NodeSpace` — where nodes may be: they do not overlap, and none is at 0;
* `links` — the store of links that a memory is;
* `bytes_of_writes`, `isList_congr` — writes to some nodes leave the other bytes alone, and a list only depends on the
  bytes of its nodes.
-/

namespace Pintos

/-- The addresses of the nodes. -/
structure NodeSpace where
  IsNode : ℕ → Prop
  dec : DecidablePred IsNode
  ne_zero : ∀ x, IsNode x → x ≠ 0
  lt : ∀ x, IsNode x → x < 2 ^ 32
  apart : ∀ x y, IsNode x → IsNode y → x ≠ y → x + 8 ≤ y ∨ y + 8 ≤ x

namespace NodeSpace

variable (N : NodeSpace)

/-- A node. -/
abbrev Node := { x : ℕ // N.IsNode x }

/-- The node at an address. -/
def node? (x : ℕ) : Option N.Node :=
  have := N.dec x
  if h : N.IsNode x then some ⟨x, h⟩ else none

/-- The pointer to a node, or a null pointer. -/
def addr : Option N.Node → ℕ
  | none => 0
  | some x => x.1

variable {N}

theorem node?_val (x : N.Node) : N.node? x.1 = some x := dif_pos x.2

theorem node?_addr (v : Option N.Node) : N.node? (N.addr v) = v := by
  cases v with
  | none => exact dif_neg fun h => N.ne_zero 0 h rfl
  | some x => exact node?_val x

theorem addr_lt (v : Option N.Node) : N.addr v < 2 ^ 32 := by
  cases v with
  | none => exact Nat.two_pow_pos 32
  | some x => exact N.lt x.1 x.2

theorem val_apart {x y : N.Node} (h : x ≠ y) : x.1 + 8 ≤ y.1 ∨ y.1 + 8 ≤ x.1 :=
  N.apart x.1 y.1 x.2 y.2 fun heq => h (Subtype.ext heq)

variable (N) in
/-- The pointers in memory: `prev` comes first. -/
def links : LinkStore Memory N.Node where
  prev m x := N.node? (m.word x.1)
  next m x := N.node? (m.word (x.1 + 4))
  setPrev m x v := m.writeWord x.1 (N.addr v)
  setNext m x v := m.writeWord (x.1 + 4) (N.addr v)
  prev_setPrev m x v y := by
    by_cases h : y = x
    · rw [if_pos h, h, Memory.word_writeWord_self m _ (addr_lt v), node?_addr]
    · rw [if_neg h, Memory.word_writeWord_of_disjoint m _ (by have := val_apart h; omega)]
  next_setPrev m x v y := by
    by_cases h : y = x
    · rw [h, Memory.word_writeWord_of_disjoint m _ (by omega)]
    · rw [Memory.word_writeWord_of_disjoint m _ (by have := val_apart h; omega)]
  prev_setNext m x v y := by
    by_cases h : y = x
    · rw [h, Memory.word_writeWord_of_disjoint m _ (by omega)]
    · rw [Memory.word_writeWord_of_disjoint m _ (by have := val_apart h; omega)]
  next_setNext m x v y := by
    by_cases h : y = x
    · rw [if_pos h, h, Memory.word_writeWord_self m _ (addr_lt v), node?_addr]
    · rw [if_neg h, Memory.word_writeWord_of_disjoint m _ (by have := val_apart h; omega)]

variable {T : N.Node → Prop} {m m' : Memory}

/-- A byte outside the nodes that are written to. -/
theorem bytes_of_writes (h : N.links.Writes T m m') {a : ℕ} (ha : ∀ x, T x → a < x.1 ∨ x.1 + 8 ≤ a) : m' a = m a := by
  induction h with
  | refl => rfl
  | setPrev _ hx v ih | setNext _ hx v ih =>
    have hax := ha _ hx
    exact (Memory.writeWord_of_not_mem _ _ (by omega)).trans ih

/-- A list whose nodes keep their bytes is still there. -/
theorem isList_congr {head tail : N.Node} {l : List N.Node} (h : N.links.IsList m head tail l)
    (hbytes : ∀ x ∈ head :: (l ++ [tail]), ∀ k < 8, m' (x.1 + k) = m (x.1 + k)) : N.links.IsList m' head tail l := by
  have hprev : ∀ x ∈ head :: (l ++ [tail]), N.links.prev m' x = N.links.prev m x := fun x hx =>
    congrArg N.node? (Memory.word_congr fun k hk => hbytes x hx k (by omega))
  have hnext : ∀ x ∈ head :: (l ++ [tail]), N.links.next m' x = N.links.next m x := fun x hx =>
    congrArg N.node? (Memory.word_congr fun k hk => by rw [Nat.add_assoc]; exact hbytes x hx (4 + k) (by omega))
  refine ⟨h.nodup, h.linked.congr (fun x hx => hnext x (List.dropLast_subset _ hx))
    (fun y hy => hprev y (List.mem_of_mem_tail hy)), ?_, ?_⟩
  · rw [hprev head List.mem_cons_self, h.prev_head]
  · rw [hnext tail (by simp), h.next_tail]

end NodeSpace
end Pintos
