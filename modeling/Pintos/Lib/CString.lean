import Pintos.Lib.Bytes

/-!
# The strings of `lib/string.c`

A C object is the list of its bytes, and a pointer into it the number of bytes before it. A function
that reads or writes past the end of an object has no result (`none`). A string that a caller passes is
a `CStr`: its characters, without the terminator.

* `strlcpy_eq` — `strlcpy` leaves the first `size - 1` characters and a terminator;
* `words` — the maximal runs of characters other than the delimiter;
* `strtokR_eq_none`, `strtokR_eq_some` — what one call of `strtok_r` returns and leaves behind.
-/

namespace Pintos

/-- A string with its terminator. -/
@[ext] structure CStr where
  chars : List UInt8
  nonzero : (0 : UInt8) ∉ chars
  deriving DecidableEq

/-- The space. -/
def space : UInt8 := 32

/-- The delimiters `" "`. -/
def CStr.blank : CStr := ⟨[space], by decide⟩

/-- The first `n` characters. -/
def CStr.take (s : CStr) (n : ℕ) : CStr :=
  ⟨s.chars.take n, fun h => s.nonzero (List.mem_of_mem_take h)⟩

/-- The characters of the string that starts at the first byte. -/
def cstring : List UInt8 → Option (List UInt8)
  | [] => none
  | c :: rest => if c = 0 then some [] else (cstring rest).map (c :: ·)

/-- The string that starts at the first byte. -/
def CStr.ofBytes (l : List UInt8) : Option CStr :=
  if 0 ∈ l then some ⟨l.takeWhile (· ≠ 0), fun h => by simpa using List.mem_takeWhile_imp h⟩ else none

/-- `strlen`. -/
def strlen (s : List UInt8) : Option ℕ := (cstring s).map List.length

/-- `strchr`: the place of `c`, which may be the terminator. -/
def strchr (s : CStr) (c : UInt8) : Option ℕ := (s.chars ++ [0]).findIdx? (· = c)

/-- `memcpy` to the place `i` of an object. -/
def memcpy (dst : List UInt8) (i : ℕ) (src : List UInt8) : Option (List UInt8) :=
  if i + src.length ≤ dst.length then some (splice dst i src) else none

/-- `strlcpy`. It also returns the length of `src`. -/
def strlcpy (dst : List UInt8) (src : CStr) (size : ℕ) : Option (List UInt8 × ℕ) :=
  if 0 < size then do
    let dstLen := min src.chars.length (size - 1)
    let copied ← memcpy dst 0 (src.chars.take dstLen)
    let ended ← memcpy copied dstLen [0]
    return (ended, src.chars.length)
  else some (dst, src.chars.length)

/-! ### `strtok_r` -/

/-- The first loop of `strtok_r`, from the place `s` on: where it stops, and whether a token starts
there. -/
def skipDelimiters (delimiters : CStr) (s : ℕ) : List UInt8 → Option (ℕ × Bool)
  | [] => none
  | c :: rest =>
    if (strchr delimiters c).isSome then
      if c = 0 then some (s, false) else skipDelimiters delimiters (s + 1) rest
    else some (s, true)

/-- The second loop: where the token ends. -/
def skipToken (delimiters : CStr) (s : ℕ) : List UInt8 → Option ℕ
  | [] => none
  | c :: rest =>
    if (strchr delimiters c).isSome then some s else skipToken delimiters (s + 1) rest

/-- What `strtok_r` leaves behind: the object, the token, if there is one, and `*save_ptr`. -/
structure Tokens where
  buf : List UInt8
  token : Option ℕ
  save : ℕ
  deriving DecidableEq

/-- `strtok_r`. `s` is the place to start from: the argument, or else `*save_ptr`. -/
def strtokR (delimiters : CStr) (buf : List UInt8) (s : ℕ) : Option Tokens := do
  let (start, found) ← skipDelimiters delimiters s (buf.drop s)
  if !found then return ⟨buf, none, start⟩
  let stop ← skipToken delimiters start (buf.drop start)
  if buf[stop]? ≠ some 0 then
    let buf ← memcpy buf stop [0]
    return ⟨buf, some start, stop + 1⟩
  else return ⟨buf, some start, stop⟩

/-! ### Words -/

/-- The maximal runs of characters other than spaces. -/
def words (l : List UInt8) : List (List UInt8) := (l.splitOnP (· = space)).filter (· ≠ [])

@[simp] theorem words_nil : words [] = [] := by simp [words]

@[simp] theorem words_space (l : List UInt8) : words (space :: l) = words l := by
  simp [words, List.splitOnP_cons_eq_if_modifyHead]

theorem words_replicate_append (k : ℕ) (l : List UInt8) :
    words (List.replicate k space ++ l) = words l := by
  induction k with
  | zero => simp
  | succ k ih => rw [List.replicate_succ, List.cons_append, words_space, ih]

/-- The first piece is the run that the list starts with. -/
theorem splitOnP_append_space (w l : List UInt8) (hw : space ∉ w) :
    (w ++ space :: l).splitOnP (· = space) = w :: l.splitOnP (· = space) := by
  induction w with
  | nil => simp [List.splitOnP_cons_eq_if_modifyHead]
  | cons c w ih =>
    have hc : c ≠ space := fun h => hw (h ▸ List.mem_cons_self)
    rw [List.cons_append, List.splitOnP_cons_eq_if_modifyHead,
      ih fun h => hw (List.mem_cons_of_mem c h)]
    simp [hc]

theorem splitOnP_of_not_mem (w : List UInt8) (hw : space ∉ w) :
    w.splitOnP (· = space) = [w] := by
  induction w with
  | nil => simp
  | cons c w ih =>
    have hc : c ≠ space := fun h => hw (h ▸ List.mem_cons_self)
    rw [List.splitOnP_cons_eq_if_modifyHead, ih fun h => hw (List.mem_cons_of_mem c h)]
    simp [hc]

theorem words_append_space {w : List UInt8} (l : List UInt8) (hw : space ∉ w) (hne : w ≠ []) :
    words (w ++ space :: l) = w :: words l := by
  rw [words, splitOnP_append_space w l hw, List.filter_cons_of_pos (by simpa using hne), words]

theorem words_of_not_mem {w : List UInt8} (hw : space ∉ w) (hne : w ≠ []) : words w = [w] := by
  rw [words, splitOnP_of_not_mem w hw, List.filter_cons_of_pos (by simpa using hne), List.filter_nil]

/-- A piece has only characters of the list, and no space. -/
theorem mem_splitOnP {l w : List UInt8} (h : w ∈ l.splitOnP (· = space)) : w ⊆ l ∧ space ∉ w := by
  induction l generalizing w with
  | nil =>
    obtain rfl : w = [] := by simpa using h
    simp
  | cons c l ih =>
    rw [List.splitOnP_cons_eq_if_modifyHead] at h
    split at h
    · obtain rfl | h := List.mem_cons.mp h
      · simp
      · exact ⟨List.subset_cons_of_subset c (ih h).1, (ih h).2⟩
    · rename_i hc
      -- the first piece gets the character `c`
      cases hsplit : l.splitOnP (· = space) with
      | nil => simp [hsplit] at h
      | cons first rest =>
        rw [hsplit] at h ih
        obtain rfl | h := List.mem_cons.mp h
        · obtain ⟨hsub, hspace⟩ := ih List.mem_cons_self
          refine ⟨List.cons_subset_cons c hsub, fun hmem => ?_⟩
          obtain rfl | hmem := List.mem_cons.mp hmem
          · simp at hc
          · exact hspace hmem
        · obtain ⟨hsub, hspace⟩ := ih (List.mem_cons_of_mem first h)
          exact ⟨List.subset_cons_of_subset c hsub, hspace⟩

theorem subset_of_mem_words {l w : List UInt8} (h : w ∈ words l) : w ⊆ l :=
  (mem_splitOnP (List.mem_filter.mp h).1).1

theorem space_not_mem_words {l w : List UInt8} (h : w ∈ words l) : space ∉ w :=
  (mem_splitOnP (List.mem_filter.mp h).1).2

/-- A list starts with spaces; then it ends, or a word follows. -/
theorem exists_word (l : List UInt8) :
    (∃ k, l = List.replicate k space) ∨
      ∃ k w rest, l = List.replicate k space ++ w ++ rest ∧ w ≠ [] ∧ space ∉ w ∧
        (rest = [] ∨ ∃ tail, rest = space :: tail) := by
  induction l with
  | nil => exact .inl ⟨0, rfl⟩
  | cons c l ih =>
    by_cases hc : c = space
    · subst hc
      obtain ⟨k, rfl⟩ | ⟨k, w, rest, rfl, h⟩ := ih
      · exact .inl ⟨k + 1, rfl⟩
      · exact .inr ⟨k + 1, w, rest, by simp [List.replicate_succ], h⟩
    · obtain ⟨k, rfl⟩ | ⟨k, w, rest, rfl, hne, hw, hrest⟩ := ih
      · -- the word ends with the character `c`, in front of the spaces
        refine .inr ⟨0, [c], List.replicate k space, by simp, by simp, by simpa using Ne.symm hc, ?_⟩
        cases k with
        | zero => exact .inl rfl
        | succ k => exact .inr ⟨_, List.replicate_succ⟩
      · cases k with
        | zero =>
          refine .inr ⟨0, c :: w, rest, by simp, by simp, ?_, hrest⟩
          simpa using ⟨Ne.symm hc, hw⟩
        | succ k =>
          refine .inr ⟨0, [c], List.replicate (k + 1) space ++ w ++ rest, by simp, by simp,
            by simpa using Ne.symm hc, .inr ⟨List.replicate k space ++ w ++ rest, ?_⟩⟩
          simp [List.replicate_succ]

/-- The words of a list that starts with spaces and a word. -/
theorem words_eq_cons (k : ℕ) {w rest : List UInt8} (hne : w ≠ []) (hw : space ∉ w)
    (hrest : rest = [] ∨ ∃ tail, rest = space :: tail) :
    words (List.replicate k space ++ w ++ rest) = w :: words rest.tail := by
  rw [List.append_assoc, words_replicate_append]
  obtain rfl | ⟨tail, rfl⟩ := hrest
  · rw [List.append_nil, words_of_not_mem hw hne, List.tail_nil, words_nil]
  · rw [words_append_space tail hw hne, List.tail_cons]

/-! ### What the functions return -/

section Strings

variable {w rest : List UInt8}

theorem cstring_append (h : (0 : UInt8) ∉ w) (rest : List UInt8) :
    cstring (w ++ 0 :: rest) = some w := by
  induction w with
  | nil => simp [cstring]
  | cons c w ih =>
    have hc : c ≠ 0 := fun hc => h (hc ▸ List.mem_cons_self)
    rw [List.cons_append, cstring, if_neg hc, ih fun hw => h (List.mem_cons_of_mem c hw)]
    rfl

theorem CStr.ofBytes_append (s : CStr) (rest : List UInt8) :
    CStr.ofBytes (s.chars ++ 0 :: rest) = some s := by
  have hall : ∀ c ∈ s.chars, decide (c ≠ 0) = true := fun c hc => by
    have hne : c ≠ 0 := fun h0 => s.nonzero (h0 ▸ hc)
    simpa using hne
  have htake : (s.chars ++ 0 :: rest).takeWhile (fun c => decide (c ≠ 0)) = s.chars := by
    rw [List.takeWhile_append_of_pos hall]
    simp
  rw [CStr.ofBytes, if_pos (by simp)]
  exact congrArg some (CStr.mk.injEq .. ▸ htake)

theorem strlen_append (h : (0 : UInt8) ∉ w) (rest : List UInt8) :
    strlen (w ++ 0 :: rest) = some w.length := by
  rw [strlen, cstring_append h, Option.map_some]

/-- The delimiters stop at spaces, and at the end of the string. -/
theorem isSome_strchr_blank {c : UInt8} : (strchr .blank c).isSome = true ↔ c = space ∨ c = 0 := by
  have hmem : (strchr .blank c).isSome = true ↔ space = c ∨ 0 = c := by
    simp [strchr, CStr.blank]
  rw [hmem, eq_comm, @eq_comm _ 0 c]

theorem memcpy_eq {dst src : List UInt8} {i : ℕ} (h : i + src.length ≤ dst.length) :
    memcpy dst i src = some (splice dst i src) := if_pos h

theorem memcpy_eq_some {dst src dst' : List UInt8} {i : ℕ} :
    memcpy dst i src = some dst' ↔ i + src.length ≤ dst.length ∧ dst' = splice dst i src := by
  rw [memcpy, Option.ite_none_right_eq_some, Option.some.injEq, eq_comm (a := dst')]

/-- At an address there is only one string. -/
theorem cstr_unique {m : Memory} {a : ℕ} {v w : List UInt8} (hv : (0 : UInt8) ∉ v) (hw : (0 : UInt8) ∉ w)
    (hrv : m.read a (v.length + 1) = v ++ [0]) (hrw : m.read a (w.length + 1) = w ++ [0]) : v = w := by
  -- the shorter one ends where the longer one has no terminator
  have hshort : ∀ {v w : List UInt8}, (0 : UInt8) ∉ w → m.read a (v.length + 1) = v ++ [0] →
      m.read a (w.length + 1) = w ++ [0] → ¬ v.length < w.length := by
    intro v w hw hrv hrw hlt
    have hend : m (a + v.length) = 0 := by
      rw [← Memory.getElem_read (m := m) (n := v.length + 1) (by simp)]
      simp [hrv]
    have hmem : m (a + v.length) ∈ w := by
      rw [← Memory.getElem_read (m := m) (n := w.length + 1) (by simp; omega)]
      simp [hrw, List.getElem_append_left hlt]
    exact hw (hend ▸ hmem)
  have hlen : v.length = w.length := by
    have h1 := hshort hw hrv hrw
    have h2 := hshort hv hrw hrv
    omega
  rw [hlen, hrw] at hrv
  exact (List.append_inj_left' hrv rfl).symm

/-- **`strlcpy`** into an object that is large enough. -/
theorem strlcpy_eq (dst : List UInt8) (src : CStr) (size : ℕ) (h0 : 0 < size) (h : size ≤ dst.length) :
    ∃ rest, strlcpy dst src size =
        some ((src.take (size - 1)).chars ++ 0 :: rest, src.chars.length) ∧
      ((src.take (size - 1)).chars ++ 0 :: rest).length = dst.length := by
  change ∃ rest, _ = some (src.chars.take (size - 1) ++ 0 :: rest, _) ∧
    (src.chars.take (size - 1) ++ 0 :: rest).length = _
  have htake : src.chars.take (min src.chars.length (size - 1)) = src.chars.take (size - 1) := by
    rw [Nat.min_comm, ← List.take_eq_take_min]
  have hlen : (src.chars.take (size - 1)).length = min src.chars.length (size - 1) := by
    rw [List.length_take, Nat.min_comm]
  set n := min src.chars.length (size - 1) with hmin
  have hn : n + 1 ≤ dst.length := by omega
  -- the characters, and then the terminator
  have hcopied : memcpy dst 0 (src.chars.take n) = some (src.chars.take (size - 1) ++ dst.drop n) := by
    rw [memcpy_eq (by rw [htake, hlen]; omega), splice, htake, hlen]
    simp
  have hended : memcpy (src.chars.take (size - 1) ++ dst.drop n) n [0] =
      some (src.chars.take (size - 1) ++ 0 :: dst.drop (n + 1)) := by
    rw [memcpy_eq (by simp only [List.length_append, List.length_drop, List.length_singleton]; omega),
      splice, List.take_left' hlen, ← List.drop_drop, List.drop_left' hlen, List.drop_drop]
    simp
  refine ⟨dst.drop (n + 1), ?_, ?_⟩
  · simp [strlcpy, h0, ← hmin, hcopied, hended]
  · simp only [List.length_append, List.length_cons, List.length_drop]
    omega

/-! ### One call of `strtok_r` -/

theorem skipDelimiters_replicate (k s : ℕ) (l : List UInt8) :
    skipDelimiters .blank s (List.replicate k space ++ l) = skipDelimiters .blank (s + k) l := by
  induction k generalizing s with
  | zero => simp
  | succ k ih =>
    have hspace : (strchr .blank space).isSome = true := isSome_strchr_blank.mpr (.inl rfl)
    rw [List.replicate_succ, List.cons_append, skipDelimiters, if_pos hspace,
      if_neg (by decide), ih]
    congr 1
    omega

theorem skipToken_append {w : List UInt8} (hs : space ∉ w) (h0 : (0 : UInt8) ∉ w) (s : ℕ)
    (l : List UInt8) : skipToken .blank s (w ++ l) = skipToken .blank (s + w.length) l := by
  induction w generalizing s with
  | nil => simp
  | cons c w ih =>
    simp only [List.mem_cons, not_or] at hs h0
    have hc : ¬ (strchr .blank c).isSome = true := fun h =>
      (isSome_strchr_blank.mp h).elim (Ne.symm hs.1) (Ne.symm h0.1)
    rw [List.cons_append, skipToken, if_neg hc, ih hs.2 h0.2, List.length_cons]
    congr 1
    omega

/-- Terminators stay. -/
theorem strtokR_zero {delimiters : CStr} {buf : List UInt8} {s i : ℕ} {st : Tokens}
    (h : strtokR delimiters buf s = some st) (h0 : buf[i]? = some 0) : st.buf[i]? = some 0 := by
  simp only [strtokR, Option.bind_eq_bind, Option.bind_eq_some_iff] at h
  obtain ⟨⟨start, found⟩, -, h⟩ := h
  cases found with
  | false =>
    obtain rfl := Option.some.inj h
    exact h0
  | true =>
    obtain ⟨stop, -, h⟩ := Option.bind_eq_some_iff.mp h
    split at h
    · obtain ⟨buf', hcopy, h⟩ := Option.bind_eq_some_iff.mp h
      obtain rfl := Option.some.inj h
      obtain ⟨hle, rfl⟩ := memcpy_eq_some.mp hcopy
      change (splice buf stop [0])[i]? = some 0
      rw [getElem?_splice hle]
      split
      · rename_i hi
        have hi : i - stop = 0 := by
          have := hi.2
          simp only [List.length_singleton] at this
          omega
        rw [hi]
        rfl
      · exact h0
    · obtain rfl := Option.some.inj h
      exact h0

/-- **No token is left.** -/
theorem strtokR_eq_none {buf rest : List UInt8} {s k : ℕ}
    (h : buf.drop s = List.replicate k space ++ 0 :: rest) :
    strtokR .blank buf s = some ⟨buf, none, s + k⟩ := by
  have hzero : (strchr .blank 0).isSome = true := isSome_strchr_blank.mpr (.inr rfl)
  have hskip : skipDelimiters .blank s (buf.drop s) = some (s + k, false) := by
    rw [h, skipDelimiters_replicate, skipDelimiters, if_pos hzero, if_pos rfl]
  simp [strtokR, hskip]

/-- **The next token.** It is followed by a terminator, and what was to be split behind it still is. -/
theorem strtokR_eq_some {buf w r rest : List UInt8} {s k : ℕ}
    (h : buf.drop s = List.replicate k space ++ w ++ r ++ 0 :: rest) (hne : w ≠ [])
    (hs : space ∉ w) (h0 : (0 : UInt8) ∉ w) (hr : r = [] ∨ ∃ tail, r = space :: tail) :
    ∃ buf' save, strtokR .blank buf s = some ⟨buf', some (s + k), save⟩ ∧
      buf'.length = buf.length ∧
      buf'.take (s + k + w.length) = buf.take (s + k + w.length) ∧
      (∃ after, buf'.drop (s + k + w.length) = 0 :: after) ∧
      s + k + w.length ≤ save ∧ buf'.drop save = r.tail ++ 0 :: rest := by
  set stop := s + k + w.length with hstop
  -- the two loops stop at the token and behind it
  have hstart : buf.drop (s + k) = w ++ (r ++ 0 :: rest) := by
    rw [← List.drop_drop, h, List.append_assoc, List.append_assoc, List.drop_left' (by simp)]
  have hend : buf.drop stop = r ++ 0 :: rest := by
    rw [hstop, ← List.drop_drop, hstart, List.drop_left]
  have hskip : skipDelimiters .blank s (buf.drop s) = some (s + k, true) := by
    obtain ⟨c, w', rfl⟩ := List.exists_cons_of_ne_nil hne
    simp only [List.mem_cons, not_or] at hs h0
    have hc : ¬ (strchr .blank c).isSome = true := fun h =>
      (isSome_strchr_blank.mp h).elim (Ne.symm hs.1) (Ne.symm h0.1)
    rw [h, List.append_assoc, List.append_assoc, skipDelimiters_replicate, List.cons_append,
      skipDelimiters, if_neg hc]
  have hlt : stop < buf.length := by
    have hlen := congrArg List.length hend
    simp only [List.length_drop, List.length_append, List.length_cons] at hlen
    omega
  have hget : buf[stop]? = (buf.drop stop)[0]? := by simp
  obtain rfl | ⟨tail, rfl⟩ := hr
  · -- the token ends the string
    have htoken : skipToken .blank (s + k) (buf.drop (s + k)) = some stop := by
      rw [hstart, skipToken_append hs h0, List.nil_append, skipToken,
        if_pos (isSome_strchr_blank.mpr (.inr rfl))]
    refine ⟨buf, stop, ?_, rfl, rfl, ⟨rest, hend⟩, Nat.le_refl _, hend⟩
    simp [strtokR, hskip, htoken, hget, hend]
  · -- a space behind it becomes the terminator
    have htoken : skipToken .blank (s + k) (buf.drop (s + k)) = some stop := by
      rw [hstart, skipToken_append hs h0, List.cons_append, skipToken,
        if_pos (isSome_strchr_blank.mpr (.inl rfl))]
    have hcopy : memcpy buf stop [0] = some (splice buf stop [0]) := memcpy_eq hlt
    have hafter : buf.drop (stop + 1) = tail ++ 0 :: rest := by
      rw [← List.drop_drop, hend, List.cons_append, List.drop_succ_cons, List.drop_zero]
    refine ⟨splice buf stop [0], stop + 1, ?_, length_splice hlt, take_splice (Nat.le_of_lt hlt),
      ⟨buf.drop (stop + 1), ?_⟩,
      Nat.le_succ stop, ?_⟩
    · have hspace : buf[stop]? ≠ some 0 := by simp [hget, hend, space]
      simp [strtokR, hskip, htoken, hspace, hcopy]
    · rw [drop_splice (Nat.le_of_lt hlt)]
      rfl
    · have hkept : (splice buf stop [0]).drop (stop + 1) = buf.drop (stop + 1) :=
        drop_splice_of_le (Nat.le_refl _) (Nat.le_of_lt hlt)
      rw [hkept, hafter, List.tail_cons]

end Strings
end Pintos
