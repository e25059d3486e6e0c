import Pintos.Lib.CString
import Pintos.Lib.Vaddr

/-!
# The arguments of a program

`construct_stack` of `userprog/process.c` splits a copy of the command line into words and pushes them
on the stack of the new process: the strings, zeros up to a multiple of 4, the array `argv` with a null
pointer at its end, its address, `argc`, and a return address.

* `Stack.Holds` — what has been pushed so far, as a list of bytes;
* `collect_eq` — the loop over `strtok_r` finds the words of the command line, and `Argv` has room
  for them;
* `constructStack_encodes` — the stack encodes the command line.
-/

namespace Pintos
namespace Userprog

open Vaddr

/-- `MAX_CMD_LEN`. -/
def maxCmdLen : ℕ := 128

/-- `MAX_ARGC`. -/
def maxArgc : ℕ := 64

/-! ### `construct_stack` -/

/-- The stack pointer and user memory. -/
structure Stack where
  esp : ℕ
  mem : Memory
  -- Ghost: the addresses that were written.
  written : List ℕ

/-- Lower the stack pointer and write there. -/
def Stack.push (s : Stack) (l : List UInt8) : Stack where
  esp := s.esp - l.length
  mem := s.mem.write (s.esp - l.length) l
  written := s.written ++ List.range' (s.esp - l.length) l.length

/-- Push a word. -/
def Stack.pushWord (s : Stack) (w : ℕ) : Stack := s.push (leBytes 4 w)

/-- The first loop. `free` is the number of entries that `Argv` still has; the result is the copy of
the command line and `Argv`, as places in that copy. -/
def collect (free : ℕ) (st : Tokens) (argv : List ℕ) : Option (List UInt8 × List ℕ) :=
  match free, st.token with
  | _, none => some (st.buf, argv)
  | 0, some _ => some (st.buf, argv)
  | free + 1, some token => do
    let next ← strtokR .blank st.buf st.save
    collect free next (argv ++ [token])

/-- The second loop, from the last string to the first one. It puts the addresses into `Argv`. -/
def pushStrings (copy : List UInt8) : List ℕ → Stack → Option (List ℕ × Stack)
  | [], s => some ([], s)
  | token :: argv, s => do
    let (addrs, s) ← pushStrings copy argv s
    let len ← strlen (copy.drop token)
    let s := s.push ((copy.drop token).take (len + 1))
    return (s.esp :: addrs, s)

/-- The loop that aligns the stack pointer. It makes at most three turns. -/
def wordAlign : ℕ → Stack → Stack
  | 0, s => s
  | n + 1, s => if s.esp % 4 ≠ 0 then wordAlign n (s.push [0]) else s

/-- The loop over `Argv` that pushes the addresses, the last one first. -/
def pushPointers (argv : List ℕ) (s : Stack) : Stack := argv.foldr (fun a s => s.pushWord a) s

/-- `construct_stack`. `copy` is what `Cmd_copy` holds at first. -/
def constructStack (cmdline : CStr) (copy : Vector UInt8 maxCmdLen) (s : Stack) : Option Stack := do
  let (copy, _) ← strlcpy copy.toList cmdline maxCmdLen
  let first ← strtokR .blank copy 0
  let (copy, argv) ← collect maxArgc first []
  let (argv, s) ← pushStrings copy argv s
  let s := (wordAlign 4 s).pushWord 0
  let s := pushPointers argv s
  let argvBase := s.esp
  return ((s.pushWord argvBase).pushWord argv.length).pushWord 0

/-! ### The stack as a list of bytes -/

/-- The bytes from the stack pointer up to `PHYS_BASE` are `l`, and only they were written. -/
structure Stack.Holds (mem : Memory) (s : Stack) (l : List UInt8) : Prop where
  esp : s.esp + l.length = physBase
  read : s.mem.read s.esp l.length = l
  written : ∀ a ∈ s.written, s.esp ≤ a ∧ a < physBase
  rest : ∀ a, a < s.esp ∨ physBase ≤ a → s.mem a = mem a

section Holds

variable {mem : Memory} {s : Stack} {l x y z : List UInt8}

theorem Stack.Holds.empty (mem : Memory) : Stack.Holds mem ⟨physBase, mem, []⟩ [] where
  esp := rfl
  read := rfl
  written a ha := by simp at ha
  rest _ _ := rfl

theorem Stack.Holds.push (h : s.Holds mem l) (hx : x.length + l.length ≤ physBase) :
    (s.push x).Holds mem (x ++ l) := by
  have hesp : s.esp + l.length = physBase := h.esp
  have hback : s.esp - x.length + x.length = s.esp := by omega
  refine ⟨?_, ?_, ?_, ?_⟩
  · simp only [Stack.push, List.length_append]
    omega
  · -- the new bytes, and behind them the old ones
    have hnew : (s.mem.write (s.esp - x.length) x).read (s.esp - x.length) x.length = x :=
      Memory.read_write_self _ _ _
    have hold : (s.mem.write (s.esp - x.length) x).read s.esp l.length = l := by
      rw [Memory.read_write_of_disjoint _ _ _ _ (.inr (by omega)), h.read]
    change (s.mem.write (s.esp - x.length) x).read (s.esp - x.length) (x ++ l).length = x ++ l
    rw [List.length_append, Memory.read_append, hnew, hback, hold]
  · intro a ha
    change s.esp - x.length ≤ a ∧ a < physBase
    rcases List.mem_append.mp ha with ha | ha
    · have hold := h.written a ha
      omega
    · have hnew := List.mem_range'_1.mp ha
      omega
  · intro a ha
    change (s.mem.write (s.esp - x.length) x) a = mem a
    change a < s.esp - x.length ∨ physBase ≤ a at ha
    rw [Memory.write_of_not_mem _ _ _ (by omega)]
    exact h.rest a (by omega)

theorem Stack.Holds.pushWord (h : s.Holds mem l) (hl : l.length + 4 ≤ physBase) (w : ℕ) :
    (s.pushWord w).Holds mem (leBytes 4 w ++ l) :=
  h.push (by rw [length_leBytes]; omega)

/-- A part of what has been pushed. -/
theorem Stack.Holds.read_part (h : s.Holds mem l) (hl : l = x ++ y ++ z) {a : ℕ}
    (ha : a = s.esp + x.length) : s.mem.read a y.length = y := by
  subst hl ha
  exact Memory.read_of_read_append h.read

theorem Stack.Holds.word {w : ℕ} (h : s.Holds mem l) (hl : l = x ++ leBytes 4 w ++ z) {a : ℕ}
    (ha : a = s.esp + x.length) (hw : w < 2 ^ 32) : s.mem.word a = w := by
  have hread : s.mem.read a 4 = leBytes 4 w := by
    simpa using h.read_part hl ha
  rw [Memory.word, hread, ofLeBytes_leBytes_of_lt (by simpa using hw)]

end Holds

/-! ### The loop over `strtok_r` -/

section Collect

variable {free : ℕ} {st : Tokens} {argv argv' : List ℕ} {copy : List UInt8}

theorem collect_none (h : st.token = none) : collect free st argv = some (st.buf, argv) := by
  rw [collect.eq_def, h]

theorem collect_some {token : ℕ} (h : st.token = some token) :
    collect (free + 1) st argv =
      (strtokR .blank st.buf st.save).bind fun next => collect free next (argv ++ [token]) := by
  rw [collect.eq_def, h]
  rfl

/-- Terminators stay. -/
theorem collect_zero {i : ℕ} (h : collect free st argv = some (copy, argv'))
    (h0 : st.buf[i]? = some 0) : copy[i]? = some 0 := by
  induction free generalizing st argv with
  | zero =>
    have hbuf : st.buf = copy := by
      cases htok : st.token <;>
      · rw [collect.eq_def, htok] at h
        exact (Prod.mk.inj (Option.some.inj h)).1
    rw [← hbuf, h0]
  | succ free ih =>
    cases htok : st.token with
    | none =>
      rw [collect_none htok] at h
      rw [← (Prod.mk.inj (Option.some.inj h)).1, h0]
    | some token =>
      rw [collect_some htok] at h
      obtain ⟨next, hnext, hrest⟩ := Option.bind_eq_some_iff.mp h
      exact ih hrest (strtokR_zero hnext h0)

theorem take_eq_of_le {l l' : List UInt8} {m n : ℕ} (h : l.take n = l'.take n) (hm : m ≤ n) :
    l.take m = l'.take m := by
  simpa [List.take_take, Nat.min_eq_left hm] using congrArg (List.take m) h

/-- The string at a place, if what lies before its end has not changed and a terminator follows. -/
theorem exists_drop_eq {buf w rest : List UInt8} {p : ℕ} (hdrop : buf.drop p = w ++ rest)
    (htake : copy.take (p + w.length) = buf.take (p + w.length))
    (hzero : copy[p + w.length]? = some 0) : ∃ after, copy.drop p = w ++ 0 :: after := by
  have hw : (copy.drop p).take w.length = w := by
    rw [List.take_drop, htake, ← List.take_drop, hdrop, List.take_left]
  obtain ⟨hlt, hget⟩ := List.getElem?_eq_some_iff.mp hzero
  refine ⟨copy.drop (p + w.length + 1), ?_⟩
  calc copy.drop p
      = (copy.drop p).take w.length ++ (copy.drop p).drop w.length := (List.take_append_drop _ _).symm
    _ = w ++ copy.drop (p + w.length) := by rw [hw, List.drop_drop]
    _ = w ++ 0 :: copy.drop (p + w.length + 1) := by rw [List.drop_eq_getElem_cons hlt, hget]

/-- **The words of what is left of the command line.** `Argv` gets their places. -/
theorem collect_eq {buf l rest : List UInt8} {s : ℕ} (h0 : (0 : UInt8) ∉ l)
    (hdrop : buf.drop s = l ++ 0 :: rest) (hfree : (words l).length ≤ free) (argv : List ℕ) :
    ∃ st copy places, strtokR .blank buf s = some st ∧
      collect free st argv = some (copy, argv ++ places) ∧ copy.take s = buf.take s ∧
      List.Forall₂ (fun p w => ∃ after, copy.drop p = w ++ 0 :: after) places (words l) := by
  induction free generalizing buf l s argv with
  | zero =>
    -- there is no room for a word, and there is none
    have hnil : words l = [] := List.length_eq_zero_iff.mp (Nat.le_zero.mp hfree)
    obtain ⟨k, rfl⟩ | ⟨k, w, r, rfl, hne, hs, hr⟩ := exists_word l
    · exact ⟨_, buf, [], strtokR_eq_none hdrop, by rw [collect_none rfl, List.append_nil], rfl,
        hnil ▸ .nil⟩
    · rw [words_eq_cons k hne hs hr] at hnil
      exact absurd hnil (List.cons_ne_nil _ _)
  | succ free ih =>
    obtain ⟨k, rfl⟩ | ⟨k, w, r, rfl, hne, hs, hr⟩ := exists_word l
    · have hnil : words (List.replicate k space) = [] := by simpa using words_replicate_append k []
      exact ⟨_, buf, [], strtokR_eq_none hdrop, by rw [collect_none rfl, List.append_nil], rfl,
        hnil ▸ .nil⟩
    · have hcons := words_eq_cons k hne hs hr
      have hw0 : (0 : UInt8) ∉ w := fun h => h0 (by simp [h])
      have hr0 : (0 : UInt8) ∉ r.tail := fun h => h0 (by simp [List.mem_of_mem_tail h])
      obtain ⟨buf', save, hcall, -, htake, ⟨after, hafter⟩, hle, hsave⟩ :=
        strtokR_eq_some hdrop hne hs hw0 hr
      rw [hcons, List.length_cons, Nat.add_le_add_iff_right] at hfree
      obtain ⟨st, copy, places, hnext, hrest, hkept, hplaces⟩ :=
        ih hr0 hsave hfree (argv ++ [s + k])
      refine ⟨_, copy, (s + k) :: places, hcall, ?_, ?_, ?_⟩
      · rw [collect_some rfl, hnext, Option.bind_some, hrest, List.append_assoc]
        rfl
      · exact (take_eq_of_le hkept (by omega)).trans (take_eq_of_le htake (by omega))
      · -- the later calls keep the token and its terminator
        have hzero : buf'[s + k + w.length]? = some 0 := by
          have hhead : buf'[s + k + w.length]? = (buf'.drop (s + k + w.length))[0]? := by simp
          rw [hhead, hafter]
          rfl
        have hdrop' : buf.drop (s + k) = w ++ (r ++ 0 :: rest) := by
          rw [← List.drop_drop, hdrop, List.append_assoc, List.append_assoc,
            List.drop_left' (List.length_replicate ..)]
        rw [hcons]
        exact .cons (exists_drop_eq hdrop' ((take_eq_of_le hkept hle).trans htake)
          (collect_zero hrest (strtokR_zero hnext hzero))) hplaces

end Collect

/-! ### What is pushed -/

/-- The strings with their terminators, one behind the other. -/
def image (ws : List (List UInt8)) : List UInt8 := ws.flatMap (· ++ [0])

/-- Where the strings lie, if the last one ends at `top`. -/
def addresses (top : ℕ) : List (List UInt8) → List ℕ
  | [] => []
  | w :: ws => (top - (image (w :: ws)).length) :: addresses top ws

theorem image_cons (w : List UInt8) (ws : List (List UInt8)) :
    image (w :: ws) = w ++ [0] ++ image ws := by
  simp [image]

theorem image_append (ws ws' : List (List UInt8)) : image (ws ++ ws') = image ws ++ image ws' := by
  simp [image]

@[simp] theorem length_addresses (top : ℕ) (ws : List (List UInt8)) :
    (addresses top ws).length = ws.length := by
  induction ws with
  | nil => rfl
  | cons w ws ih => simp [addresses, ih]

theorem getElem_addresses {top i : ℕ} {ws : List (List UInt8)} (h : i < (addresses top ws).length) :
    (addresses top ws)[i] = top - (image (ws.drop i)).length := by
  induction ws generalizing i with
  | nil => simp [addresses] at h
  | cons w ws ih =>
    cases i with
    | zero => rfl
    | succ i => exact ih (by simpa [addresses] using h)

/-- The words and their terminators take no more room than the command line with its own. -/
theorem length_image_words (l : List UInt8) : (image (words l)).length ≤ l.length + 1 := by
  induction hn : l.length using Nat.strongRecOn generalizing l with
  | _ n ih =>
    subst hn
    obtain ⟨k, rfl⟩ | ⟨k, w, r, rfl, hne, hs, hr⟩ := exists_word l
    · have hnil : words (List.replicate k space) = [] := by simpa using words_replicate_append k []
      simp [hnil, image]
    · have hpos : 0 < w.length := List.length_pos_iff.mpr hne
      have htail := ih r.tail.length (by simp; omega) r.tail rfl
      rw [words_eq_cons k hne hs hr, image_cons]
      obtain rfl | ⟨tail, rfl⟩ := hr
      · simp [image]
      · simp only [List.tail_cons, List.length_append, List.length_cons, List.length_nil,
          List.length_replicate] at htail ⊢
        omega

theorem ne_nil_of_mem_words {l w : List UInt8} (h : w ∈ words l) : w ≠ [] := by
  simpa using (List.mem_filter.mp h).2

/-- **64 entries are never too few.** -/
theorem length_words_le {l : List UInt8} (h : l.length < maxCmdLen) : (words l).length ≤ maxArgc := by
  have hwords : ∀ ws : List (List UInt8), (∀ w ∈ ws, w ≠ []) → 2 * ws.length ≤ (image ws).length := by
    intro ws hws
    induction ws with
    | nil => simp
    | cons w ws ih =>
      have hpos : 0 < w.length := List.length_pos_iff.mpr (hws w List.mem_cons_self)
      have hrest := ih fun w' hw' => hws w' (List.mem_cons_of_mem w hw')
      rw [image_cons]
      simp only [List.length_cons, List.length_append, List.length_nil]
      omega
  have hlow := hwords (words l) fun w hw => ne_nil_of_mem_words hw
  have hhigh := length_image_words l
  simp only [maxCmdLen, maxArgc] at h ⊢
  omega

theorem length_pointers (argv : List ℕ) : (argv.flatMap (leBytes 4)).length = 4 * argv.length := by
  induction argv with
  | nil => rfl
  | cons a argv ih =>
    rw [List.flatMap_cons, List.length_append, length_leBytes, ih, List.length_cons]
    omega

section Push

variable {mem : Memory} {s : Stack} {l : List UInt8}

theorem pushStrings_eq {copy : List UInt8} {places : List ℕ} {ws : List (List UInt8)}
    (hplaces : List.Forall₂ (fun p w => ∃ after, copy.drop p = w ++ 0 :: after) places ws)
    (h0 : ∀ w ∈ ws, (0 : UInt8) ∉ w) (hs : s.Holds mem l)
    (hroom : (image ws).length + l.length ≤ physBase) :
    ∃ s', pushStrings copy places s = some (addresses s.esp ws, s') ∧
      s'.Holds mem (image ws ++ l) := by
  induction hplaces with
  | nil => exact ⟨s, rfl, hs⟩
  | @cons p w places ws hp _ ih =>
    rw [image_cons] at hroom
    simp only [List.length_append, List.length_singleton] at hroom
    obtain ⟨s', hrest, hs'⟩ := ih (fun w' hw' => h0 w' (List.mem_cons_of_mem w hw')) (by omega)
    obtain ⟨after, hafter⟩ := hp
    have hlen : strlen (copy.drop p) = some w.length := by
      rw [hafter, strlen_append (h0 w List.mem_cons_self)]
    have htake : (copy.drop p).take (w.length + 1) = w ++ [0] := by
      rw [hafter, List.append_cons, List.take_left' (by simp)]
    have hpush : (s'.push (w ++ [0])).Holds mem (image (w :: ws) ++ l) := by
      rw [image_cons, List.append_assoc]
      refine hs'.push ?_
      simp only [List.length_append, List.length_singleton]
      omega
    have hesp : (s'.push (w ++ [0])).esp = s.esp - (image (w :: ws)).length := by
      have h1 := hs.esp
      have h2 := hpush.esp
      rw [List.length_append] at h2
      omega
    refine ⟨s'.push (w ++ [0]), ?_, hpush⟩
    simp [pushStrings, hrest, hlen, htake, addresses, hesp]

/-- The loop stops, and then the stack pointer is aligned. -/
theorem wordAlign_eq {n : ℕ} (hs : s.Holds mem l) (hn : s.esp % 4 ≤ n) :
    (wordAlign n s).Holds mem (List.replicate (s.esp % 4) 0 ++ l) ∧ (wordAlign n s).esp % 4 = 0 := by
  induction n generalizing s l with
  | zero =>
    have h0 : s.esp % 4 = 0 := by omega
    rw [wordAlign, h0]
    exact ⟨hs, rfl⟩
  | succ n ih =>
    rw [wordAlign]
    split
    · rename_i h0
      have hesp := hs.esp
      have hpush : (s.push [0]).Holds mem ([0] ++ l) := hs.push (by simp; omega)
      have hlow : (s.push [0]).esp = s.esp - 1 := rfl
      have hmod : s.esp % 4 = (s.esp - 1) % 4 + 1 := by omega
      obtain ⟨hheld, haligned⟩ := ih hpush (by rw [hlow]; omega)
      refine ⟨?_, haligned⟩
      rw [hlow] at hheld
      rw [hmod, List.replicate_succ', List.append_assoc]
      exact hheld
    · rename_i h0
      have h0 : s.esp % 4 = 0 := by simpa using h0
      rw [h0]
      exact ⟨hs, rfl⟩

theorem pushPointers_holds (argv : List ℕ) (hs : s.Holds mem l)
    (hroom : 4 * argv.length + l.length ≤ physBase) :
    (pushPointers argv s).Holds mem (argv.flatMap (leBytes 4) ++ l) := by
  induction argv with
  | nil => exact hs
  | cons a argv ih =>
    simp only [List.length_cons] at hroom
    have hrest := ih (by omega)
    rw [List.flatMap_cons, List.append_assoc]
    refine hrest.pushWord ?_ a
    rw [List.length_append, length_pointers]
    omega

end Push

/-! ### The whole stack -/

/-- What `construct_stack` pushes, from the stack pointer up, if the pointers are `argv` and lie at
`base`. -/
def layout (ws : List (List UInt8)) (argv : List ℕ) (base pad : ℕ) : List UInt8 :=
  leBytes 4 0 ++ (leBytes 4 ws.length ++ (leBytes 4 base ++ (argv.flatMap (leBytes 4) ++
    (leBytes 4 0 ++ (List.replicate pad 0 ++ image ws)))))

/-- The stack encodes the words `toks` of a command line. -/
structure Encodes (toks : List (List UInt8)) (mem : Memory) (s : Stack) : Prop where
  aligned : s.esp % 4 = 0
  above : physBase - pgSize < s.esp
  returnAddress : s.mem.word s.esp = 0
  argc : s.mem.word (s.esp + 4) = toks.length
  argv : s.mem.word (s.esp + 8) = s.esp + 12
  -- The pointers lead to copies of the words, with their terminators.
  strings : ∀ i (h : i < toks.length),
    s.mem.read (s.mem.word (s.esp + 12 + 4 * i)) (toks[i].length + 1) = toks[i] ++ [0]
  null : s.mem.word (s.esp + 12 + 4 * toks.length) = 0
  -- The array ends with this pointer. Zeros follow it, and then the strings, up to `PHYS_BASE`.
  padding : ∃ pad < 4, (∀ j < pad, s.mem (s.esp + 16 + 4 * toks.length + j) = 0) ∧
    ∀ i (h : i < toks.length),
      s.esp + 16 + 4 * toks.length + pad ≤ s.mem.word (s.esp + 12 + 4 * i) ∧
      s.mem.word (s.esp + 12 + 4 * i) + (toks[i].length + 1) ≤ physBase
  disjoint : ∀ i j (hij : i < j) (hj : j < toks.length),
    s.mem.word (s.esp + 12 + 4 * i) + (toks[i].length + 1) ≤ s.mem.word (s.esp + 12 + 4 * j)
  -- Nothing else is written.
  written : ∀ a ∈ s.written, s.esp ≤ a ∧ a < physBase
  rest : ∀ a, a < s.esp ∨ physBase ≤ a → s.mem a = mem a

theorem length_layout (ws : List (List UInt8)) (argv : List ℕ) (base pad : ℕ) :
    (layout ws argv base pad).length = 16 + 4 * argv.length + pad + (image ws).length := by
  simp only [layout, List.length_append, length_leBytes, length_pointers, List.length_replicate]
  omega

/-- The words of a command line fit on the stack and into `Argv`. -/
theorem words_fit (cmdline : CStr) :
    (image (words (cmdline.chars.take 127))).length ≤ 128 ∧
      (words (cmdline.chars.take 127)).length ≤ 64 := by
  have hlen : (cmdline.chars.take 127).length < maxCmdLen := by
    rw [List.length_take, maxCmdLen]
    omega
  exact ⟨Nat.le_trans (length_image_words _) hlen, length_words_le hlen⟩

/-- **What `construct_stack` does.** -/
theorem constructStack_eq (cmdline : CStr) (copy : Vector UInt8 maxCmdLen) (mem : Memory) :
    ∃ s pad, constructStack cmdline copy ⟨physBase, mem, []⟩ = some s ∧ pad < 4 ∧ s.esp % 4 = 0 ∧
      s.Holds mem (layout (words (cmdline.chars.take 127))
        (addresses physBase (words (cmdline.chars.take 127))) (s.esp + 12) pad) := by
  obtain ⟨himage, hargc⟩ := words_fit cmdline
  have h0 := (cmdline.take 127).nonzero
  change (0 : UInt8) ∉ cmdline.chars.take 127 at h0
  set l := cmdline.chars.take 127
  -- the copy of the command line, and its words
  obtain ⟨rest, hcopy, -⟩ := strlcpy_eq copy.toList cmdline maxCmdLen (by decide)
    (by simp)
  have hdrop : (l ++ 0 :: rest).drop 0 = l ++ 0 :: rest := rfl
  obtain ⟨first, copy', places, hfirst, hcollect, -, hplaces⟩ :=
    collect_eq h0 hdrop (show (words l).length ≤ maxArgc from hargc) []
  -- the strings and the padding
  obtain ⟨s₁, hstrings, hs₁⟩ := pushStrings_eq hplaces
    (fun w hw h => h0 (subset_of_mem_words hw h)) (.empty mem) (by simp [physBase]; omega)
  obtain ⟨hs₂, haligned⟩ := wordAlign_eq (n := 4) hs₁ (by omega)
  set pad := s₁.esp % 4
  set argv := addresses physBase (words l)
  have hpad : pad < 4 := Nat.mod_lt _ (by decide)
  have hargv : argv.length = (words l).length := length_addresses _ _
  -- the array, its address, `argc` and the return address
  have hroom : 4 * argv.length + (image (words l)).length + pad + 16 ≤ physBase := by
    rw [physBase]
    omega
  have hs₃ := hs₂.pushWord (by simp; omega) 0
  have hs₄ := pushPointers_holds argv hs₃ (by simp; omega)
  set base := (pushPointers argv ((wordAlign 4 s₁).pushWord 0)).esp
  have hs₅ := hs₄.pushWord (by simp; omega) base
  have hs₆ := hs₅.pushWord (by simp; omega) argv.length
  have hs₇ := hs₆.pushWord (by simp; omega) 0
  rw [List.append_nil] at hs₂ hs₇
  set s := (((pushPointers argv ((wordAlign 4 s₁).pushWord 0)).pushWord base).pushWord
    argv.length).pushWord 0 with hs
  have hheld : s.Holds mem (layout (words l) argv base pad) := by
    rw [layout, ← hargv]
    exact hs₇
  have hbase : s.esp + 12 = base := by
    have h4 := hs₄.esp
    have h7 := hs₇.esp
    simp only [List.length_append, length_leBytes, List.length_nil] at h4 h7
    omega
  have hesp : s.esp + (16 + 4 * argv.length) = (wordAlign 4 s₁).esp := by
    have h2 := hs₂.esp
    have h7 := hheld.esp
    rw [length_layout] at h7
    simp only [List.length_append, List.length_replicate] at h2
    omega
  refine ⟨s, pad, ?_, hpad, by omega, by rw [hbase]; exact hheld⟩
  simp only [constructStack, hcopy, Option.bind_eq_bind, Option.bind_some]
  change (strtokR .blank (l ++ 0 :: rest) 0).bind _ = _
  rw [hfirst, Option.bind_some, hcollect, Option.bind_some, List.nil_append, hstrings]
  rfl

section Layout

variable {ws : List (List UInt8)} {i : ℕ}

theorem image_split (h : i < ws.length) :
    image ws = image (ws.take i) ++ (ws[i] ++ [0]) ++ image (ws.drop (i + 1)) :=
  flatMap_split h _

/-- The words in front of a later one take the room of the earlier one. -/
theorem length_image_take_add {j : ℕ} (hij : i < j) (hj : j < ws.length) :
    (image (ws.take i)).length + (ws[i].length + 1) ≤ (image (ws.take j)).length := by
  have htake : i < (ws.take j).length := by
    rw [List.length_take]
    omega
  have hsplit := congrArg List.length (image_split htake)
  rw [List.take_take, Nat.min_eq_left (Nat.le_of_lt hij), List.getElem_take] at hsplit
  simp only [List.length_append, List.length_singleton] at hsplit
  omega

/-- Where the strings lie, if the whole image ends at `PHYS_BASE`. -/
theorem getElem_addresses_eq {base : ℕ} (h : i < (addresses physBase ws).length)
    (hbase : base + (image ws).length = physBase) :
    (addresses physBase ws)[i] = base + (image (ws.take i)).length := by
  have hsplit : (image ws).length = (image (ws.take i)).length + (image (ws.drop i)).length := by
    rw [← List.length_append, ← image_append, List.take_append_drop]
  rw [getElem_addresses]
  omega

/-- The words of the array and the strings, read off the layout. -/
theorem Stack.Holds.pointer {mem : Memory} {s : Stack} {base pad : ℕ}
    (hs : s.Holds mem (layout ws (addresses physBase ws) base pad)) (h : i < ws.length) :
    s.mem.word (s.esp + 12 + 4 * i) =
      s.esp + 16 + 4 * ws.length + pad + (image (ws.take i)).length := by
  set argv := addresses physBase ws with hargv
  have hlen : argv.length = ws.length := length_addresses _ _
  have hi : i < argv.length := hlen ▸ h
  have hesp := hs.esp
  rw [length_layout, hlen] at hesp
  have haddr : argv[i] = s.esp + 16 + 4 * ws.length + pad + (image (ws.take i)).length :=
    getElem_addresses_eq hi (by omega)
  have hbound : (image (ws.take i)).length ≤ (image ws).length := by
    conv_rhs => rw [← List.take_append_drop i ws, image_append, List.length_append]
    omega
  rw [← haddr]
  refine hs.word (x := leBytes 4 0 ++ leBytes 4 ws.length ++ leBytes 4 base ++
    (argv.take i).flatMap (leBytes 4)) (z := (argv.drop (i + 1)).flatMap (leBytes 4) ++
      (leBytes 4 0 ++ (List.replicate pad 0 ++ image ws))) ?_ ?_ ?_
  · rw [layout, flatMap_split hi (leBytes 4)]
    simp only [List.append_assoc]
  · simp only [List.length_append, length_leBytes, length_pointers, List.length_take]
    omega
  · rw [haddr]
    simp only [physBase] at hesp
    omega

theorem Stack.Holds.string {mem : Memory} {s : Stack} {argv : List ℕ} {base pad : ℕ}
    (hs : s.Holds mem (layout ws argv base pad)) (h : i < ws.length) :
    s.mem.read (s.esp + 16 + 4 * argv.length + pad + (image (ws.take i)).length) (ws[i].length + 1) =
      ws[i] ++ [0] := by
  have hread := hs.read_part (y := ws[i] ++ [0]) (z := image (ws.drop (i + 1)))
    (x := leBytes 4 0 ++ leBytes 4 ws.length ++ leBytes 4 base ++ argv.flatMap (leBytes 4) ++
      leBytes 4 0 ++ List.replicate pad 0 ++ image (ws.take i))
    (a := s.esp + 16 + 4 * argv.length + pad + (image (ws.take i)).length) (by
      rw [layout, image_split h]
      simp only [List.append_assoc]) (by
      simp only [List.length_append, length_leBytes, length_pointers, List.length_replicate]
      omega)
  simpa using hread

theorem Stack.Holds.padding {mem : Memory} {s : Stack} {argv : List ℕ} {base pad j : ℕ}
    (hs : s.Holds mem (layout ws argv base pad)) (hj : j < pad) :
    s.mem (s.esp + 16 + 4 * argv.length + j) = 0 := by
  have hread := hs.read_part (y := List.replicate pad 0) (z := image ws)
    (x := leBytes 4 0 ++ leBytes 4 ws.length ++ leBytes 4 base ++ argv.flatMap (leBytes 4) ++
      leBytes 4 0) (a := s.esp + 16 + 4 * argv.length) (by
      rw [layout]
      simp only [List.append_assoc]) (by
      simp only [List.length_append, length_leBytes, length_pointers]
      omega)
  have hget : (s.mem.read (s.esp + 16 + 4 * argv.length) (List.replicate pad (0 : UInt8)).length)[j]? =
      some 0 := by
    rw [hread]
    simp [hj]
  obtain ⟨hlt, hget⟩ := List.getElem?_eq_some_iff.mp hget
  rw [← hget, Memory.getElem_read]

end Layout

/-- The layout encodes the words. -/
theorem Stack.Holds.encodes {ws : List (List UInt8)} {mem : Memory} {s : Stack} {pad : ℕ}
    (hs : s.Holds mem (layout ws (addresses physBase ws) (s.esp + 12) pad)) (hpad : pad < 4)
    (haligned : s.esp % 4 = 0) (himage : (image ws).length ≤ 128) (hargc : ws.length ≤ 64) :
    Encodes ws mem s := by
  have hlen : (addresses physBase ws).length = ws.length := length_addresses _ _
  have hesp := hs.esp
  rw [length_layout, hlen] at hesp
  have hbase : physBase = 0xC0000000 := rfl
  have hpage : pgSize = 4096 := rfl
  exact {
    aligned := haligned
    above := by omega
    returnAddress := hs.word (x := []) (w := 0) rfl rfl (by decide)
    argc := hs.word (x := leBytes 4 0) (w := ws.length)
      (by rw [layout, List.append_assoc]) rfl (by omega)
    argv := hs.word (x := leBytes 4 0 ++ leBytes 4 ws.length) (w := s.esp + 12)
      (by rw [layout]; simp only [List.append_assoc]; rfl) rfl (by omega)
    strings := fun i h => by
      rw [hs.pointer h, ← hs.string h, hlen]
    null := hs.word (w := 0) (x := leBytes 4 0 ++ leBytes 4 ws.length ++ leBytes 4 (s.esp + 12) ++
        (addresses physBase ws).flatMap (leBytes 4)) (by rw [layout]; simp only [List.append_assoc]; rfl)
      (by simp only [List.length_append, length_leBytes, length_pointers, hlen]; omega) (by decide)
    padding := by
      refine ⟨pad, hpad, fun j hj => ?_, fun i h => ?_⟩
      · rw [← hlen]
        exact hs.padding hj
      · have hle : (image (ws.take i)).length + (ws[i].length + 1) ≤ (image ws).length := by
          have hsplit := congrArg List.length (image_split h)
          simp only [List.length_append, List.length_singleton] at hsplit
          omega
        rw [hs.pointer h]
        omega
    disjoint := fun i j hij hj => by
      have hle := length_image_take_add hij hj
      rw [hs.pointer (Nat.lt_trans hij hj), hs.pointer hj]
      omega
    written := hs.written
    rest := hs.rest }

/-- **The argument stack encodes the command line.** `construct_stack` finishes for every command line,
without an access outside of `Cmd_copy` and with room for all words in `Argv`. -/
theorem constructStack_encodes (cmdline : CStr) (copy : Vector UInt8 maxCmdLen) (mem : Memory) :
    ∃ s, constructStack cmdline copy ⟨physBase, mem, []⟩ = some s ∧
      Encodes (words (cmdline.chars.take 127)) mem s := by
  obtain ⟨s, pad, hrun, hpad, haligned, hs⟩ := constructStack_eq cmdline copy mem
  obtain ⟨himage, hargc⟩ := words_fit cmdline
  exact ⟨s, hrun, hs.encodes hpad haligned himage hargc⟩

/-! ### The name of the program -/

/-- The string in `Prog_name` after `strlcpy` and `strtok_r`, in `process_execute` and in `load`, where it
is the argument of `filesys_open`. What `strtok_r` returns is not used. `buf` is what `Prog_name` holds
at first. -/
def progName (fileName : CStr) (buf : Vector UInt8 maxCmdLen) : Option CStr := do
  let (buf, _) ← strlcpy buf.toList fileName maxCmdLen
  let st ← strtokR .blank buf 0
  CStr.ofBytes st.buf

/-- What `process_execute` gives to the new thread: `fn_copy`, and its name. -/
structure Launch where
  fnCopy : CStr
  name : CStr
  deriving DecidableEq

/-- `process_execute` up to `thread_create`, and `init_thread`, which copies the name into 16 bytes. -/
def processExecute (fileName : CStr) (page : Vector UInt8 pgSize) (buf : Vector UInt8 maxCmdLen)
    (name : Vector UInt8 16) : Option Launch := do
  let (page, _) ← strlcpy page.toList fileName pgSize
  let fnCopy ← CStr.ofBytes page
  let prog ← progName fileName buf
  let (name, _) ← strlcpy name.toList prog 16
  return ⟨fnCopy, ← CStr.ofBytes name⟩

/-- `construct_stack` has placed `w` as `argv[0]`. -/
def Stack.FirstArg (s : Stack) (w : CStr) : Prop :=
  0 < s.mem.word (s.esp + 4) ∧
    s.mem.read (s.mem.word (s.esp + 12)) (w.chars.length + 1) = w.chars ++ [0]

/-- What `process_execute`, `load` and `construct_stack` find in their buffers at first. -/
structure Buffers where
  page : Vector UInt8 pgSize
  executeName : Vector UInt8 maxCmdLen
  threadName : Vector UInt8 16
  loadName : Vector UInt8 maxCmdLen
  copy : Vector UInt8 maxCmdLen
  mem : Memory

/-- The program that is opened for a command line is `argv[0]`, and the thread is named after it. -/
def OpensFirstArg (cmdline : CStr) (b : Buffers) : Prop :=
  ∃ launch opened s, processExecute cmdline b.page b.executeName b.threadName = some launch ∧
    progName launch.fnCopy b.loadName = some opened ∧
    constructStack launch.fnCopy b.copy ⟨physBase, b.mem, []⟩ = some s ∧
    s.FirstArg opened ∧ launch.name = opened.take 15

/-- What `strtok_r` leaves at the start of its buffer: the spaces in front of the first word, and the
word. -/
def firstName (l : List UInt8) : List UInt8 :=
  l.takeWhile (· = space) ++ (l.dropWhile (· = space)).takeWhile (· ≠ space)

theorem firstName_eq (k : ℕ) {w r : List UInt8} (hne : w ≠ []) (hs : space ∉ w)
    (hr : r = [] ∨ ∃ tail, r = space :: tail) :
    firstName (List.replicate k space ++ w ++ r) = List.replicate k space ++ w := by
  obtain ⟨c, w, rfl⟩ := List.exists_cons_of_ne_nil hne
  have hc : c ≠ space := fun h => hs (h ▸ List.mem_cons_self)
  have hblank : ∀ x ∈ List.replicate k space, decide (x = space) = true := by simp
  have hword : ∀ x ∈ c :: w, decide (x ≠ space) = true := fun x hx => by
    have hne : x ≠ space := fun h => hs (h ▸ hx)
    simpa using hne
  have hend : r.takeWhile (fun x => decide (x ≠ space)) = [] := by
    obtain rfl | ⟨tail, rfl⟩ := hr <;> simp
  have hfirst : (c :: w ++ r).takeWhile (fun x => decide (x = space)) = [] := by simp [hc]
  have hrest : (c :: w ++ r).dropWhile (fun x => decide (x = space)) = c :: w ++ r := by simp [hc]
  rw [firstName, List.append_assoc, List.takeWhile_append_of_pos hblank,
    List.dropWhile_append_of_pos hblank, hfirst, hrest, List.takeWhile_append_of_pos hword, hend,
    List.append_nil, List.append_nil]

/-- **The string in `Prog_name`.** -/
theorem progName_eq (fileName : CStr) (buf : Vector UInt8 maxCmdLen) :
    ∃ p, progName fileName buf = some p ∧ p.chars = firstName (fileName.chars.take 127) := by
  obtain ⟨rest, hcopy, -⟩ := strlcpy_eq buf.toList fileName maxCmdLen (by decide)
    (by simp)
  rw [show maxCmdLen - 1 = 127 from rfl] at hcopy
  have h0 := (fileName.take 127).nonzero
  change ∃ p : CStr, _ ∧ p.chars = firstName (fileName.take 127).chars
  simp only [progName, hcopy, Option.bind_eq_bind, Option.bind_some]
  obtain ⟨k, hl⟩ | ⟨k, w, r, hl, hne, hs, hr⟩ := exists_word (fileName.take 127).chars
  · -- there are only spaces, and the buffer stays as it is
    refine ⟨fileName.take 127, ?_, ?_⟩
    · have hdrop : ((fileName.take 127).chars ++ 0 :: rest).drop 0 =
          List.replicate k space ++ 0 :: rest := by rw [hl, List.drop_zero]
      rw [strtokR_eq_none hdrop, Option.bind_some, CStr.ofBytes_append]
    · rw [hl, firstName]
      simp
  · have hw0 : (0 : UInt8) ∉ w := fun h => h0 (by simp [hl, h])
    have hdrop : ((fileName.take 127).chars ++ 0 :: rest).drop 0 =
        List.replicate k space ++ w ++ r ++ 0 :: rest := by rw [hl, List.drop_zero]
    obtain ⟨buf', save, hcall, -, htake, ⟨after, hafter⟩, -⟩ := strtokR_eq_some hdrop hne hs hw0 hr
    rw [Nat.zero_add] at htake hafter
    have hfront : buf'.take (k + w.length) = List.replicate k space ++ w := by
      rw [htake, hl, List.append_assoc, List.take_left' (by simp)]
    have hbuf : buf' = (List.replicate k space ++ w) ++ 0 :: after := by
      rw [← hfront, ← hafter, List.take_append_drop]
    have hp0 : (0 : UInt8) ∉ List.replicate k space ++ w := fun h => h0 (by
      rw [hl]
      exact List.mem_append_left r h)
    refine ⟨⟨List.replicate k space ++ w, hp0⟩, ?_, ?_⟩
    · rw [hcall, Option.bind_some, hbuf, CStr.ofBytes_append ⟨_, hp0⟩]
    · rw [hl, firstName_eq k hne hs hr]

theorem processExecute_eq (fileName : CStr) (page : Vector UInt8 pgSize) (buf : Vector UInt8 maxCmdLen)
    (name : Vector UInt8 16) :
    ∃ launch, processExecute fileName page buf name = some launch ∧
      launch.fnCopy = fileName.take (pgSize - 1) ∧
      launch.name.chars = (firstName (fileName.chars.take 127)).take 15 := by
  obtain ⟨rest, hpage, -⟩ := strlcpy_eq page.toList fileName pgSize (by decide)
    (by simp)
  obtain ⟨p, hp, hchars⟩ := progName_eq fileName buf
  obtain ⟨rest', hname, -⟩ := strlcpy_eq name.toList p 16 (by decide) (by simp)
  refine ⟨⟨fileName.take (pgSize - 1), p.take 15⟩, ?_, rfl, by rw [← hchars]; rfl⟩
  simp only [processExecute, hpage, hp, hname, Option.bind_eq_bind, Option.bind_some]
  rw [CStr.ofBytes_append, Option.bind_some, CStr.ofBytes_append]
  rfl

/-- The stack says what the first word is. -/
theorem Encodes.firstArg_iff {toks : List (List UInt8)} {mem : Memory} {s : Stack}
    (h : Encodes toks mem s) (h0 : ∀ w ∈ toks, (0 : UInt8) ∉ w) (v : CStr) :
    s.FirstArg v ↔ toks.head? = some v.chars := by
  rw [Stack.FirstArg, h.argc]
  cases toks with
  | nil => simp
  | cons w toks =>
    have hread := h.strings 0 (by simp)
    constructor
    · rintro ⟨-, hv⟩
      exact congrArg some (cstr_unique v.nonzero (h0 w List.mem_cons_self) hv hread).symm
    · intro hv
      obtain rfl : w = v.chars := Option.some.inj hv
      exact ⟨by simp, hread⟩

/-- What the three functions do, in terms of the command line. -/
theorem opensFirstArg_iff_head (cmdline : CStr) (b : Buffers) :
    OpensFirstArg cmdline b ↔
      (words (cmdline.chars.take 127)).head? = some (firstName (cmdline.chars.take 127)) := by
  have htake : (cmdline.take (pgSize - 1)).chars.take 127 = cmdline.chars.take 127 := by
    change (cmdline.chars.take 4095).take 127 = _
    rw [List.take_take]
    rfl
  obtain ⟨launch, hlaunch, hcopy, hname⟩ :=
    processExecute_eq cmdline b.page b.executeName b.threadName
  obtain ⟨p, hp, hchars⟩ := progName_eq launch.fnCopy b.loadName
  obtain ⟨s, pad, hs, hpad, haligned, hheld⟩ := constructStack_eq launch.fnCopy b.copy b.mem
  obtain ⟨himage, hargc⟩ := words_fit launch.fnCopy
  have hencodes := hheld.encodes hpad haligned himage hargc
  rw [hcopy, htake] at hchars hencodes
  have h0 : ∀ w ∈ words (cmdline.chars.take 127), (0 : UInt8) ∉ w := fun w hw h =>
    cmdline.nonzero (List.mem_of_mem_take (subset_of_mem_words hw h))
  have hfirst := hencodes.firstArg_iff h0
  constructor
  · rintro ⟨launch', opened, s', hl, ho, hc, harg, -⟩
    obtain rfl := Option.some.inj (hlaunch.symm.trans hl)
    obtain rfl := Option.some.inj (hp.symm.trans ho)
    obtain rfl := Option.some.inj (hs.symm.trans hc)
    rw [(hfirst p).mp harg, hchars]
  · intro hhead
    refine ⟨launch, p, s, hlaunch, hp, hs, (hfirst p).mpr (by rw [hhead, hchars]), ?_⟩
    rw [CStr.ext_iff, hname, ← hchars]
    rfl

/-- Spaces in front of the first word stay in `Prog_name`. -/
theorem head_words_ne {l : List UInt8} (h : l.head? = some space) :
    (words l).head? ≠ some (firstName l) := by
  intro hhead
  obtain ⟨l, rfl⟩ : ∃ tail, l = space :: tail := by
    cases l with
    | nil => simp at h
    | cons c l => exact ⟨l, by rw [Option.some.inj h]⟩
  refine space_not_mem_words (List.mem_of_mem_head? hhead) ?_
  simp [firstName]

theorem head_words_eq {l : List UInt8} (hne : l ≠ []) (h : l.head? ≠ some space) :
    (words l).head? = some (firstName l) := by
  obtain ⟨k, rfl⟩ | ⟨k, w, r, rfl, hw, hs, hr⟩ := exists_word l
  · cases k with
    | zero => exact absurd rfl hne
    | succ k => exact absurd (by rw [List.replicate_succ]; rfl) h
  · cases k with
    | zero => rw [words_eq_cons 0 hw hs hr, firstName_eq 0 hw hs hr]; rfl
    | succ k => exact absurd (by rw [List.replicate_succ]; rfl) h

/-- **The program that is opened is `argv[0]`** if and only if the command line does not start with a
space. -/
theorem opensFirstArg_iff (cmdline : CStr) (h : ∃ c ∈ cmdline.chars, c ≠ space) (b : Buffers) :
    OpensFirstArg cmdline b ↔ cmdline.chars.head? ≠ some space := by
  obtain ⟨c, hc, -⟩ := h
  have hne : cmdline.chars ≠ [] := List.ne_nil_of_mem hc
  have hhead : (cmdline.chars.take 127).head? = cmdline.chars.head? := by
    rw [List.head?_take]
    rfl
  rw [opensFirstArg_iff_head, ← hhead]
  constructor
  · intro heq hspace
    exact head_words_ne hspace heq
  · exact head_words_eq (by simpa using hne)

/-- Buffers and memory that hold zeros at first. -/
def Buffers.zero : Buffers where
  page := .replicate _ 0
  executeName := .replicate _ 0
  threadName := .replicate _ 0
  loadName := .replicate _ 0
  copy := .replicate _ 0
  mem _ := 0

/-- `"echo x"`. -/
def echoX : CStr := ⟨[101, 99, 104, 111, space, 120], by decide⟩

theorem opensFirstArg_echoX :
    (∃ c ∈ echoX.chars, c ≠ space) ∧ OpensFirstArg echoX .zero :=
  have hc : ∃ c ∈ echoX.chars, c ≠ space := by decide
  ⟨hc, (opensFirstArg_iff echoX hc .zero).mpr (by decide)⟩

/-- `" echo x"`. -/
def spaceEchoX : CStr := ⟨[space, 101, 99, 104, 111, space, 120], by decide⟩

/-- For it, `load` opens `" echo"`, and `argv[0]` is `"echo"`. -/
theorem not_opensFirstArg_spaceEchoX :
    (∃ c ∈ spaceEchoX.chars, c ≠ space) ∧ ¬ OpensFirstArg spaceEchoX .zero := by
  refine ⟨by decide, fun h => ?_⟩
  exact head_words_ne (by decide) ((opensFirstArg_iff_head spaceEchoX .zero).mp h)

end Userprog
end Pintos
