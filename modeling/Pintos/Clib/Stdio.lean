import Pintos.Lib.Bytes

/-!
# `printf`

`__vprintf`, `format_integer` and `vsnprintf` of `lib/stdio.c`. A format is the bytes of its string,
without the terminator, and the arguments are the 32-bit words of the `va_list`. `output` and `aux` are
what the source passes along: a function called for each character, and what it works on.

* `formatInteger` — `none` is a write outside of its buffer of 64 bytes;
* `digitBuffer_spec` — which does not happen, since each of at most 22 digits comes with one comma;
* `formatInteger_eq` — what is output is a `field`, padding, a sign, `0x` and the digits with their commas,
  which denotes the number and fills the width;
* `formats_iff` — `vsnprintf` stores it and counts its length in an `int`, which is too small for it only
  if the field is padded twice.
-/

namespace Pintos
namespace Clib
namespace Stdio

/-! ### Conversions -/

/-- The bits of `flags`. -/
structure Flags where
  minus : Bool := false
  plus : Bool := false
  space : Bool := false
  pound : Bool := false
  zero : Bool := false
  group : Bool := false
  deriving DecidableEq

/-- The type of the argument. -/
inductive ArgType
  | char | short | int | intmax | long | longLong | ptrdiff | size
  deriving DecidableEq

/-- `struct printf_conversion`. -/
structure PrintfConversion where
  flags : Flags
  width : Int32
  precision : Int32
  type : ArgType
  deriving DecidableEq

/-- `struct integer_base`. -/
structure IntegerBase where
  base : ℕ
  digits : List UInt8
  x : UInt8
  group : ℕ
  two_le : 2 ≤ base

def chars (s : String) : List UInt8 := s.toList.map Char.toUInt8

def baseD : IntegerBase := ⟨10, chars "0123456789", 0, 3, by decide⟩
def baseO : IntegerBase := ⟨8, chars "01234567", 0, 3, by decide⟩
def baseX : IntegerBase := ⟨16, chars "0123456789abcdef", 'x'.toUInt8, 4, by decide⟩
def baseUpperX : IntegerBase := ⟨16, chars "0123456789ABCDEF", 'X'.toUInt8, 4, by decide⟩

/-! ### `format_integer` -/

/-- `*cp++ = ch`. The buffer is the characters in it, the last one first. -/
def put (ch : UInt8) (buf : List UInt8) : Option (List UInt8) :=
  if buf.length < 64 then some (ch :: buf) else none

/-- The loop over the digits, with `cnt` of them in the buffer. -/
def digitLoop (b : IntegerBase) (group : Bool) (value cnt : ℕ) (buf : List UInt8) :
    Option (List UInt8) :=
  if h : value = 0 then some buf
  else do
    let buf ← (if group && 0 < cnt && cnt % b.group = 0 then put ','.toUInt8 buf else some buf)
    let buf ← put (b.digits.getD (value % b.base) 0) buf
    digitLoop b group (value / b.base) (cnt + 1) buf
termination_by value
decreasing_by exact Nat.div_lt_self (Nat.pos_of_ne_zero h) b.two_le

/-- The loop that appends zeros. It stops in front of the last byte of the buffer. -/
def zeroLoop (precision : ℤ) (buf : List UInt8) : List UInt8 :=
  if (buf.length : ℤ) < precision ∧ buf.length < 63 then zeroLoop precision ('0'.toUInt8 :: buf) else buf
termination_by 63 - buf.length

/-- The content of the buffer. -/
def digitBuffer (value : UInt64) (b : IntegerBase) (c : PrintfConversion) : Option (List UInt8) := do
  let buf ← digitLoop b c.flags.group value.toNat 0 []
  let buf := zeroLoop (if c.precision < 0 then 1 else c.precision.toInt) buf
  if c.flags.pound && b.base = 8 && buf.head? ≠ some '0'.toUInt8 then put '0'.toUInt8 buf else some buf

/-- The sign character, or 0. -/
def signChar (isSigned negative : Bool) (f : Flags) : UInt8 :=
  if isSigned then
    if f.plus then if negative then '-'.toUInt8 else '+'.toUInt8
    else if f.space then if negative then '-'.toUInt8 else ' '.toUInt8
    else if negative then '-'.toUInt8 else 0
  else 0

/-- The `x` of `0x`, or 0. -/
def xChar (value : UInt64) (b : IntegerBase) (f : Flags) : UInt8 := if f.pound && value ≠ 0 then b.x else 0

/-- How many characters fill the field. -/
def padCnt (width : Int32) (len : ℕ) (x sign : UInt8) : ℕ :=
  let pad := width - Int32.ofNat len - (if x ≠ 0 then 2 else 0) - (if sign ≠ 0 then 1 else 0)
  if pad < 0 then 0 else pad.toInt.toNat

section Output

variable {σ : Type} (output : UInt8 → σ → σ)

/-- `output_dup`. -/
def outputDup (ch : UInt8) : ℕ → σ → σ
  | 0, aux => aux
  | cnt + 1, aux => outputDup ch cnt (output ch aux)

def outputAll (l : List UInt8) (aux : σ) : σ := l.foldl (fun aux ch => output ch aux) aux

def formatInteger (value : UInt64) (isSigned negative : Bool) (b : IntegerBase)
    (c : PrintfConversion) (aux : σ) : Option σ := do
  let sign := signChar isSigned negative c.flags
  let x := xChar value b c.flags
  let buf ← digitBuffer value b c
  let pad := padCnt c.width buf.length x sign
  let aux := if c.flags.minus || c.flags.zero then aux else outputDup output ' '.toUInt8 pad aux
  let aux := if sign ≠ 0 then output sign aux else aux
  let aux := if x ≠ 0 then output x (output '0'.toUInt8 aux) else aux
  let aux := if c.flags.zero then outputDup output '0'.toUInt8 pad aux else aux
  let aux := outputAll output buf aux
  return if c.flags.minus then outputDup output ' '.toUInt8 pad aux else aux

/-- `format_string`. -/
def formatString (string : List UInt8) (c : PrintfConversion) (aux : σ) : σ :=
  let pad := (c.width.toInt - string.length).toNat
  let aux := if c.flags.minus then aux else outputDup output ' '.toUInt8 pad aux
  let aux := outputAll output string aux
  if c.flags.minus then outputDup output ' '.toUInt8 pad aux else aux

end Output

/-! ### `parse_conversion` -/

def isDigit (ch : UInt8) : Bool := '0'.toUInt8 ≤ ch && ch ≤ '9'.toUInt8

/-- The loop over the flags. -/
def parseFlags (f : Flags) : List UInt8 → Flags × List UInt8
  | [] => (f, [])
  | ch :: format =>
    if ch = '-'.toUInt8 then parseFlags { f with minus := true } format
    else if ch = '+'.toUInt8 then parseFlags { f with plus := true } format
    else if ch = ' '.toUInt8 then parseFlags { f with space := true } format
    else if ch = '#'.toUInt8 then parseFlags { f with pound := true } format
    else if ch = '0'.toUInt8 then parseFlags { f with zero := true } format
    -- an apostrophe
    else if ch = 39 then parseFlags { f with group := true } format
    else (f, ch :: format)

/-- A loop over digits. -/
def parseNumber (n : Int32) : List UInt8 → Int32 × List UInt8
  | [] => (n, [])
  | ch :: format =>
    if isDigit ch then parseNumber (n * 10 + ch.toUInt32.toInt32 - 48) format else (n, ch :: format)

/-- A number, or a `*` for an argument. -/
def parseInt (format : List UInt8) (args : List UInt32) : Option (Int32 × List UInt8 × List UInt32) :=
  if format.head? = some '*'.toUInt8 then
    match args with
    | [] => none
    | a :: args => some (a.toInt32, format.tail, args)
  else
    let (n, format) := parseNumber 0 format
    some (n, format, args)

def parseType (format : List UInt8) : ArgType × List UInt8 :=
  match format with
  | [] => (.int, [])
  | ch :: rest =>
    if ch = 'h'.toUInt8 then
      if rest.head? = some 'h'.toUInt8 then (.char, rest.tail) else (.short, rest)
    else if ch = 'j'.toUInt8 then (.intmax, rest)
    else if ch = 'l'.toUInt8 then
      if rest.head? = some 'l'.toUInt8 then (.longLong, rest.tail) else (.long, rest)
    else if ch = 't'.toUInt8 then (.ptrdiff, rest)
    else if ch = 'z'.toUInt8 then (.size, rest)
    else (.int, format)

/-- `parse_conversion`. `none`: there is no argument for a `*`. -/
def parseConversion (format : List UInt8) (args : List UInt32) :
    Option (PrintfConversion × List UInt8 × List UInt32) := do
  let (f, format) := parseFlags {} format
  let f := if f.minus then { f with zero := false } else f
  let f := if f.plus then { f with space := false } else f
  let (width, format, args) ← parseInt format args
  let f := if width < 0 then { f with minus := true } else f
  let width := if width < 0 then -width else width
  let (precision, format, args) ←
    if format.head? = some '.'.toUInt8 then parseInt format.tail args else some (-1, format, args)
  let precision := if precision < 0 then -1 else precision
  let f := if 0 ≤ precision then { f with zero := false } else f
  let (type, format) := parseType format
  return (⟨f, width, precision, type⟩, format, args)

/-! ### `__vprintf` -/

/-- `va_arg` for 4 and for 8 bytes. -/
def vaArg : List UInt32 → Option (UInt32 × List UInt32)
  | [] => none
  | a :: args => some (a, args)

def vaArg64 : List UInt32 → Option (UInt64 × List UInt32)
  | a :: b :: args => some (a.toUInt64 + b.toUInt64 * 2 ^ 32, args)
  | _ => none

/-- The argument of `%d`. -/
def signedArg (args : List UInt32) : ArgType → Option (Int64 × List UInt32)
  | .char => (vaArg args).map fun (a, args) => (a.toUInt8.toInt8.toInt64, args)
  | .short => (vaArg args).map fun (a, args) => (a.toUInt16.toInt16.toInt64, args)
  | .int | .long | .ptrdiff => (vaArg args).map fun (a, args) => (a.toInt32.toInt64, args)
  | .intmax | .longLong => (vaArg64 args).map fun (a, args) => (a.toInt64, args)
  | .size => (vaArg args).map fun (a, args) =>
    let value := a.toUInt64.toInt64
    (if value > 0xffffffff / 2 then value - 0xffffffff - 1 else value, args)

/-- The argument of `%u`. -/
def unsignedArg (args : List UInt32) : ArgType → Option (UInt64 × List UInt32)
  | .char => (vaArg args).map fun (a, args) => (a.toUInt8.toUInt64, args)
  | .short => (vaArg args).map fun (a, args) => (a.toUInt16.toUInt64, args)
  | .int | .long | .size => (vaArg args).map fun (a, args) => (a.toUInt64, args)
  | .intmax | .longLong => vaArg64 args
  | .ptrdiff => (vaArg args).map fun (a, args) =>
    (a.toInt32.toInt64.toUInt64 &&& 0xffffffff, args)

/-- The characters of the string at `p`, at most `n` of them. -/
def stringAt (m : Memory) (p : UInt32) : ℕ → List UInt8
  | 0 => []
  | n + 1 => if m p.toNat = 0 then [] else m p.toNat :: stringAt m (p + 1) n

section Vprintf

variable {σ : Type} (m : Memory) (output : UInt8 → σ → σ)

/-- The conversions that take an argument. -/
def convert (c : PrintfConversion) (ch : UInt8) (args : List UInt32) (aux : σ) :
    Option (σ × List UInt32) :=
  if ch = 'd'.toUInt8 ∨ ch = 'i'.toUInt8 then do
    let (value, args) ← signedArg args c.type
    let aux ← formatInteger output (if value < 0 then -value else value).toUInt64 true (value < 0)
      baseD c aux
    return (aux, args)
  else if ch = 'c'.toUInt8 then do
    let (a, args) ← vaArg args
    return (formatString output [a.toUInt8] c aux, args)
  else if ch = 's'.toUInt8 then do
    let (p, args) ← vaArg args
    let maxLen := c.precision.toUInt32.toNat
    let string := if p = 0 then (chars "(null)").take maxLen else stringAt m p maxLen
    return (formatString output string c aux, args)
  else if ch = 'p'.toUInt8 then do
    let (p, args) ← vaArg args
    let aux ← formatInteger output p.toUInt64 false false baseX { c with flags := { pound := true } } aux
    return (aux, args)
  else do
    let (value, args) ← unsignedArg args c.type
    let b := if ch = 'o'.toUInt8 then baseO else if ch = 'u'.toUInt8 then baseD
      else if ch = 'x'.toUInt8 then baseX else baseUpperX
    let aux ← formatInteger output value false false b c aux
    return (aux, args)

/-- `__vprintf`, in at most so many turns. `none`: an argument is missing, or the format ends in a
conversion and is read behind its end. The strings that are printed are those of the memory `m`. -/
def vprintfLoop : ℕ → List UInt8 → List UInt32 → σ → Option σ
  | 0, _, _, _ => none
  | _ + 1, [], _, aux => some aux
  | n + 1, ch :: format, args, aux =>
    if ch ≠ '%'.toUInt8 then vprintfLoop n format args (output ch aux)
    else if format.head? = some '%'.toUInt8 then
      vprintfLoop n format.tail args (output '%'.toUInt8 aux)
    else
      match parseConversion format args with
      | none => none
      | some (_, [], _) => none
      | some (c, ch :: format, args) =>
        if ch ∈ chars "dioxuXcsp" then
          (convert m output c ch args aux).bind fun (aux, args) => vprintfLoop n format args aux
        else
          -- `__printf`
          let message := if ch ∈ chars "feEgGn" then chars "<<no %%%c in kernel>>"
            else chars "<<no %%%c conversion>>"
          (vprintfLoop n message [ch.toUInt32] aux).bind fun aux => vprintfLoop n format args aux

def vprintf (format : List UInt8) (args : List UInt32) (aux : σ) : Option σ :=
  vprintfLoop m output (format.length + 32) format args aux

end Vprintf

/-! ### `vsnprintf` -/

/-- `struct vsnprintf_aux`, with the memory that it points to. -/
structure VsnprintfAux where
  p : UInt32
  length : Int32
  maxLength : Int32
  mem : Memory

def vsnprintfHelper (ch : UInt8) (aux : VsnprintfAux) : VsnprintfAux :=
  if aux.length < aux.maxLength then
    { aux with length := aux.length + 1, p := aux.p + 1, mem := aux.mem.write aux.p.toNat [ch] }
  else { aux with length := aux.length + 1 }

def vsnprintfAux (m : Memory) (buffer bufSize : UInt32) : VsnprintfAux :=
  ⟨buffer, 0, if 0 < bufSize then (bufSize - 1).toInt32 else 0, m⟩

/-- `vsnprintf` around what `__vprintf` does. -/
def vsnprintfWith (m : Memory) (buffer bufSize : UInt32) (print : VsnprintfAux → Option VsnprintfAux) :
    Option (Memory × Int32) := do
  let aux ← print (vsnprintfAux m buffer bufSize)
  return (if 0 < bufSize then aux.mem.write aux.p.toNat [0] else aux.mem, aux.length)

def vsnprintf (m : Memory) (buffer bufSize : UInt32) (format : List UInt8) (args : List UInt32) :
    Option (Memory × Int32) :=
  vsnprintfWith m buffer bufSize (vprintf m vsnprintfHelper format args)

/-! ### Numerals -/

/-- What a digit stands for, and 16 for other characters. -/
def digitOf (ch : UInt8) : ℕ :=
  if isDigit ch then ch.toNat - 48
  else if 'a'.toUInt8 ≤ ch && ch ≤ 'f'.toUInt8 then ch.toNat - 87
  else if 'A'.toUInt8 ≤ ch && ch ≤ 'F'.toUInt8 then ch.toNat - 55
  else 16

/-- What a string of digits stands for, the empty one for 0. -/
def numeral (base : ℕ) (l : List UInt8) : ℕ := l.foldl (fun a ch => a * base + digitOf ch) 0

def bases : List IntegerBase := [baseD, baseO, baseX, baseUpperX]

section Numeral

variable {b : IntegerBase} {c : PrintfConversion} {value n : ℕ} {buf : List UInt8}

theorem digitOf_digit (hb : b ∈ bases) {d : ℕ} (hd : d < b.base) : digitOf (b.digits.getD d 0) = d := by
  revert d
  simp only [bases, List.mem_cons, List.not_mem_nil, or_false] at hb
  obtain rfl | rfl | rfl | rfl := hb <;> decide

theorem base_bounds (hb : b ∈ bases) : 8 ≤ b.base ∧ b.base ≤ 16 := by
  simp only [bases, List.mem_cons, List.not_mem_nil, or_false] at hb
  obtain rfl | rfl | rfl | rfl := hb <;> decide

/-- A digit, or a comma between groups. -/
def IsNumeric (b : IntegerBase) (ch : UInt8) : Prop := ch = ','.toUInt8 ∨ digitOf ch < b.base

theorem numeral_append (base : ℕ) (l : List UInt8) (ch : UInt8) :
    numeral base (l ++ [ch]) = numeral base l * base + digitOf ch := by
  rw [numeral, List.foldl_append]
  rfl

theorem numeral_zeros (base k : ℕ) (l : List UInt8) :
    numeral base (List.replicate k '0'.toUInt8 ++ l) = numeral base l := by
  induction k with
  | zero => rfl
  | succ k ih =>
    rw [List.replicate_succ, List.cons_append, numeral, List.foldl_cons]
    have hzero : 0 * base + digitOf '0'.toUInt8 = 0 := by
      rw [Nat.zero_mul]
      rfl
    rw [hzero]
    exact ih

/-- The commas of a buffer that has been filled with digits, removed. -/
abbrev ungroup (l : List UInt8) : List UInt8 := l.filter fun ch => ch ≠ ','.toUInt8

/-- **The loop over the digits.** Each turn writes one digit and at most one comma. -/
theorem digitLoop_spec (hb : b ∈ bases) (hv : value < b.base ^ n) (group : Bool) (cnt : ℕ) (buf : List UInt8)
    (hroom : buf.length + 2 * n ≤ 64) :
    ∃ l, digitLoop b group value cnt buf = some (l ++ buf) ∧ l.length ≤ 2 * n ∧
      (∀ ch ∈ l, IsNumeric b ch) ∧ numeral b.base (ungroup l) = value := by
  induction n generalizing value cnt buf with
  | zero =>
    obtain rfl : value = 0 := by simpa using hv
    exact ⟨[], by rw [digitLoop]; rfl, Nat.le_refl 0, nofun, rfl⟩
  | succ n ih =>
    by_cases h0 : value = 0
    · subst h0
      exact ⟨[], by rw [digitLoop]; rfl, Nat.zero_le _, nofun, rfl⟩
    have hbase : 0 < b.base := Nat.lt_of_lt_of_le Nat.zero_lt_two b.two_le
    have hdigit : digitOf (b.digits.getD (value % b.base) 0) = value % b.base :=
      digitOf_digit hb (Nat.mod_lt _ hbase)
    have hlt : value / b.base < b.base ^ n := Nat.div_lt_of_lt_mul (by rwa [Nat.pow_succ'] at hv)
    -- what the turn writes: a comma or nothing, and the digit
    obtain ⟨g, hg, hglen, hgch⟩ : ∃ g : List UInt8,
        (if group && 0 < cnt && cnt % b.group = 0 then put ','.toUInt8 buf else some buf) = some (g ++ buf) ∧
          g.length ≤ 1 ∧ ∀ ch ∈ g, ch = ','.toUInt8 := by
      split
      · exact ⟨[','.toUInt8], by rw [put, if_pos (by omega)]; rfl, Nat.le_refl 1, by simp⟩
      · exact ⟨[], rfl, Nat.zero_le 1, nofun⟩
    have hput : put (b.digits.getD (value % b.base) 0) (g ++ buf) =
        some (b.digits.getD (value % b.base) 0 :: (g ++ buf)) :=
      if_pos (by rw [List.length_append]; omega)
    obtain ⟨l, hl, hlen, hch, hval⟩ := ih hlt (cnt + 1) (b.digits.getD (value % b.base) 0 :: (g ++ buf))
      (by simp; omega)
    have hne : b.digits.getD (value % b.base) 0 ≠ ','.toUInt8 := by
      intro h
      have hlt := Nat.mod_lt value hbase
      rw [← hdigit, h, show digitOf ','.toUInt8 = 16 from rfl] at hlt
      have := (base_bounds hb).2
      omega
    refine ⟨l ++ b.digits.getD (value % b.base) 0 :: g, ?_, ?_, ?_, ?_⟩
    · rw [digitLoop, dif_neg h0, hg]
      simp only [Option.bind_eq_bind, Option.bind_some, hput, hl]
      simp
    · simp
      omega
    · intro ch hmem
      obtain hmem | hmem := List.mem_append.mp hmem
      · exact hch ch hmem
      · obtain rfl | hmem := List.mem_cons.mp hmem
        · exact .inr (by rw [hdigit]; exact Nat.mod_lt _ hbase)
        · exact .inl (hgch ch hmem)
    · have hgnil : ungroup g = [] := List.filter_eq_nil_iff.mpr (by simpa using hgch)
      rw [ungroup, List.filter_append, List.filter_cons_of_pos (by simpa using hne),
        show g.filter _ = [] from hgnil, numeral_append, hval, hdigit, Nat.mul_comm]
      exact Nat.div_add_mod value b.base

theorem zeroLoop_spec (precision : ℤ) (buf : List UInt8) :
    ∃ k, zeroLoop precision buf = List.replicate k '0'.toUInt8 ++ buf ∧
      (k = 0 ∨ k + buf.length ≤ 63) := by
  fun_induction zeroLoop precision buf with
  | case1 buf h ih =>
    obtain ⟨k, hk, hlen⟩ := ih
    refine ⟨k + 1, ?_, .inr ?_⟩
    · rw [hk, List.replicate_succ', List.append_assoc]
      rfl
    · simp at hlen
      omega
  | case2 buf h => exact ⟨0, rfl, .inl rfl⟩

/-- **The buffer is large enough**, and holds the digits of the number. -/
theorem digitBuffer_spec (hb : b ∈ bases) (value : UInt64) (c : PrintfConversion) :
    ∃ buf, digitBuffer value b c = some buf ∧ buf.length ≤ 64 ∧ (∀ ch ∈ buf, IsNumeric b ch) ∧
      numeral b.base (ungroup buf) = value.toNat := by
  have hv : value.toNat < b.base ^ 22 :=
    Nat.lt_of_lt_of_le (Nat.lt_of_lt_of_le value.toNat_lt (by decide))
      (Nat.pow_le_pow_left (base_bounds hb).1 22)
  obtain ⟨l, hl, hlen, hch, hval⟩ := digitLoop_spec hb hv c.flags.group 0 [] (by decide)
  obtain ⟨k, hk, hklen⟩ := zeroLoop_spec (if c.precision < 0 then 1 else c.precision.toInt) l
  -- zeros in front change nothing
  have hzeros : ∀ j, (∀ ch ∈ List.replicate j '0'.toUInt8 ++ l, IsNumeric b ch) ∧
      numeral b.base (ungroup (List.replicate j '0'.toUInt8 ++ l)) = value.toNat := by
    intro j
    constructor
    · intro ch hmem
      obtain hmem | hmem := List.mem_append.mp hmem
      · rw [List.eq_of_mem_replicate hmem]
        exact .inr (Nat.lt_of_lt_of_le (by decide) (base_bounds hb).1)
      · exact hch ch hmem
    · rw [ungroup, List.filter_append, List.filter_eq_self.mpr, numeral_zeros, hval]
      intro ch hmem
      rw [List.eq_of_mem_replicate hmem]
      rfl
  rw [digitBuffer, hl]
  simp only [Option.bind_eq_bind, Option.bind_some, List.append_nil, hk]
  split
  · refine ⟨List.replicate (k + 1) '0'.toUInt8 ++ l, ?_, ?_, hzeros (k + 1)⟩
    · rw [put, if_pos (by simp; omega)]
      rfl
    · simp
      omega
  · exact ⟨_, rfl, by simp; omega, hzeros k⟩

end Numeral

/-! ### What `format_integer` outputs -/

section Field

variable {value : UInt64} {isSigned negative : Bool} {b : IntegerBase} {c : PrintfConversion}
  {buf : List UInt8} {pad : ℕ} {σ : Type}

/-- Padding, sign, `0x`, zeros, the content of the buffer, padding. -/
def field (f : Flags) (sign x : UInt8) (pad : ℕ) (buf : List UInt8) : List UInt8 :=
  (if f.minus || f.zero then [] else List.replicate pad ' '.toUInt8) ++
    (if sign ≠ 0 then [sign] else []) ++ (if x ≠ 0 then ['0'.toUInt8, x] else []) ++
    (if f.zero then List.replicate pad '0'.toUInt8 else []) ++ buf ++
    if f.minus then List.replicate pad ' '.toUInt8 else []

theorem outputDup_eq (output : UInt8 → σ → σ) (ch : UInt8) (n : ℕ) (aux : σ) :
    outputDup output ch n aux = outputAll output (List.replicate n ch) aux := by
  induction n generalizing aux with
  | zero => rfl
  | succ n ih => exact ih _

theorem outputAll_append (output : UInt8 → σ → σ) (l l' : List UInt8) (aux : σ) :
    outputAll output (l ++ l') aux = outputAll output l' (outputAll output l aux) :=
  List.foldl_append

theorem formatInteger_field (output : UInt8 → σ → σ) (aux : σ) (hbuf : digitBuffer value b c = some buf) :
    formatInteger output value isSigned negative b c aux =
      some (outputAll output (field c.flags (signChar isSigned negative c.flags) (xChar value b c.flags)
        (padCnt c.width buf.length (xChar value b c.flags) (signChar isSigned negative c.flags)) buf) aux) := by
  simp only [formatInteger, hbuf, field, outputAll_append, outputDup_eq]
  generalize signChar isSigned negative c.flags = sign
  generalize xChar value b c.flags = x
  cases c.flags.minus <;> cases c.flags.zero <;> by_cases hs : sign = 0 <;> by_cases hx : x = 0 <;>
    simp [hs, hx, outputAll]

theorem toInt_sub_of_bounds {a b : Int32} (h : -2 ^ 31 ≤ a.toInt - b.toInt) (h' : a.toInt - b.toInt < 2 ^ 31) :
    (a - b).toInt = a.toInt - b.toInt := by
  rw [Int32.toInt_sub]
  exact Int.bmod_eq_of_le h h'

theorem padCnt_eq {width : Int32} (hw : 0 ≤ width) {len : ℕ} (hlen : len ≤ 64) (x sign : UInt8) :
    padCnt width len x sign =
      width.toInt.toNat - (len + (if x ≠ 0 then 2 else 0) + if sign ≠ 0 then 1 else 0) := by
  have hw' : 0 ≤ width.toInt := Int32.le_iff_toInt_le.mp hw
  have hwlt := width.toInt_lt
  have hl : (Int32.ofNat len).toInt = len := Int32.toInt_ofNat_of_lt (by omega)
  have hx : (if x ≠ 0 then 2 else 0 : Int32).toInt = if x ≠ 0 then 2 else 0 := by split <;> rfl
  have hs : (if sign ≠ 0 then 1 else 0 : Int32).toInt = if sign ≠ 0 then 1 else 0 := by split <;> rfl
  simp only [padCnt, Int32.lt_iff_toInt_lt, Int32.toInt_zero]
  generalize (if x ≠ 0 then 2 else 0 : Int32) = i at hx ⊢
  generalize (if sign ≠ 0 then 1 else 0 : Int32) = j at hs ⊢
  have hi : 0 ≤ i.toInt ∧ i.toInt ≤ 2 ∧ i.toInt.toNat = if x ≠ 0 then 2 else 0 := by
    rw [hx]
    split <;> decide
  have hj : 0 ≤ j.toInt ∧ j.toInt ≤ 1 ∧ j.toInt.toNat = if sign ≠ 0 then 1 else 0 := by
    rw [hs]
    split <;> decide
  have h₁ := toInt_sub_of_bounds (a := width) (b := Int32.ofNat len) (by omega) (by omega)
  have h₂ := toInt_sub_of_bounds (a := width - Int32.ofNat len) (b := i) (by omega) (by omega)
  have h₃ := toInt_sub_of_bounds (a := width - Int32.ofNat len - i) (b := j) (by omega) (by omega)
  rw [← hi.2.2, ← hj.2.2]
  split <;> omega

theorem length_field (f : Flags) (sign x : UInt8) (pad : ℕ) (buf : List UInt8) :
    (field f sign x pad buf).length =
      buf.length + (if x ≠ 0 then 2 else 0) + (if sign ≠ 0 then 1 else 0) +
        if f.zero && f.minus then 2 * pad else pad := by
  cases hm : f.minus <;> cases hz : f.zero <;> by_cases hs : sign = 0 <;> by_cases hx : x = 0 <;>
    simp [field, hm, hz, hs, hx] <;> omega

/-- The characters of a sign. -/
theorem signChar_mem (isSigned negative : Bool) (f : Flags) :
    signChar isSigned negative f ∈ [0, '-'.toUInt8, '+'.toUInt8, ' '.toUInt8] ∧
      (signChar isSigned negative f = '-'.toUInt8 ↔ isSigned ∧ negative) := by
  unfold signChar
  cases isSigned <;> cases negative <;> cases f.plus <;> cases f.space <;> decide

theorem xChar_mem (hb : b ∈ bases) (value : UInt64) (f : Flags) :
    xChar value b f ∈ [0, 'x'.toUInt8, 'X'.toUInt8] := by
  unfold xChar
  split
  · simp only [bases, List.mem_cons, List.not_mem_nil, or_false] at hb
    obtain rfl | rfl | rfl | rfl := hb <;> decide
  · decide

/-! ### The output, read back -/

/-- How long the field is without its padding. -/
def bodyLength (value : UInt64) (isSigned negative : Bool) (b : IntegerBase) (c : PrintfConversion) : ℕ :=
  ((digitBuffer value b c).getD []).length + (if xChar value b c.flags ≠ 0 then 2 else 0) +
    if signChar isSigned negative c.flags ≠ 0 then 1 else 0

def dropSign : List UInt8 → List UInt8
  | [] => []
  | ch :: l => if ch = '+'.toUInt8 ∨ ch = '-'.toUInt8 then l else ch :: l

def dropX : List UInt8 → List UInt8
  | ch :: x :: l => if ch = '0'.toUInt8 ∧ (x = 'x'.toUInt8 ∨ x = 'X'.toUInt8) then l else ch :: x :: l
  | l => l

/-- Neither a space nor a comma. -/
def isMark (ch : UInt8) : Bool := ch ≠ ' '.toUInt8 && ch ≠ ','.toUInt8

/-- A field without spaces, commas, sign and `0x`. -/
def strip (l : List UInt8) : List UInt8 := dropX (dropSign (l.filter isMark))

/-- The output is a numeral of the number, and fills the width. -/
structure IsField (out : List UInt8) (value : UInt64) (isSigned negative : Bool) (b : IntegerBase)
    (c : PrintfConversion) : Prop where
  digits : ∀ ch ∈ strip out, digitOf ch < b.base
  denotes : numeral b.base (strip out) = value.toNat
  minus : '-'.toUInt8 ∈ out ↔ isSigned ∧ negative
  width : c.width.toInt ≤ out.length

theorem dropSign_digits {l : List UInt8} (h : ∀ ch ∈ l, digitOf ch < 16) : dropSign l = l := by
  cases l with
  | nil => rfl
  | cons ch l =>
    have hch := h ch List.mem_cons_self
    refine if_neg ?_
    rintro (rfl | rfl) <;> exact absurd hch (by decide)

theorem dropX_digits {l : List UInt8} (h : ∀ ch ∈ l, digitOf ch < 16) : dropX l = l := by
  rcases l with - | ⟨ch, - | ⟨x, l⟩⟩
  · rfl
  · rfl
  · have hx := h x (by simp)
    refine if_neg ?_
    rintro ⟨-, rfl | rfl⟩ <;> exact absurd hx (by decide)

theorem digitOf_lt_base (hbuf : ∀ ch ∈ buf, IsNumeric b ch) {k : ℕ} :
    ∀ ch ∈ List.replicate k '0'.toUInt8 ++ ungroup buf, digitOf ch < b.base := by
  intro ch hmem
  obtain hmem | hmem := List.mem_append.mp hmem
  · rw [List.eq_of_mem_replicate hmem]
    exact Nat.lt_of_lt_of_le (by decide) b.two_le
  · obtain ⟨hmem, hne⟩ := List.mem_filter.mp hmem
    exact (hbuf ch hmem).resolve_left (by simpa using hne)

/-- **The digits of a field** are those of the buffer, and zeros. -/
theorem strip_field (hb : b ∈ bases) (f : Flags) {sign x : UInt8} (pad : ℕ)
    (hsign : sign ∈ [0, '-'.toUInt8, '+'.toUInt8, ' '.toUInt8]) (hx : x ∈ [0, 'x'.toUInt8, 'X'.toUInt8])
    (hbuf : ∀ ch ∈ buf, IsNumeric b ch) :
    strip (field f sign x pad buf) =
      List.replicate (if f.zero then pad else 0) '0'.toUInt8 ++ ungroup buf := by
  have hspace : buf.filter isMark = ungroup buf := by
    refine List.filter_congr fun ch hmem => ?_
    have hne : ch ≠ ' '.toUInt8 := by
      rintro rfl
      obtain h | h := hbuf _ hmem
      · exact absurd h (by decide)
      · exact absurd (Nat.lt_of_lt_of_le h (base_bounds hb).2) (by decide)
    simp [isMark, hne]
  have hdigits : ∀ ch ∈ List.replicate (if f.zero then pad else 0) '0'.toUInt8 ++ ungroup buf,
      digitOf ch < 16 := fun ch hmem =>
    Nat.lt_of_lt_of_le (digitOf_lt_base hbuf ch hmem) (base_bounds hb).2
  have hfilter : (field f sign x pad buf).filter isMark =
      (if sign = 0 ∨ sign = ' '.toUInt8 then [] else [sign]) ++ (if x ≠ 0 then ['0'.toUInt8, x] else []) ++
        (List.replicate (if f.zero then pad else 0) '0'.toUInt8 ++ ungroup buf) := by
    have hx' : (if x ≠ 0 then ['0'.toUInt8, x] else []).filter isMark = if x ≠ 0 then ['0'.toUInt8, x] else [] := by
      simp only [List.mem_cons, List.not_mem_nil, or_false] at hx
      obtain rfl | rfl | rfl := hx <;> decide
    have hs' : (if sign ≠ 0 then [sign] else []).filter isMark =
        if sign = 0 ∨ sign = ' '.toUInt8 then [] else [sign] := by
      simp only [List.mem_cons, List.not_mem_nil, or_false] at hsign
      obtain rfl | rfl | rfl | rfl := hsign <;> decide
    rw [field]
    simp only [List.filter_append, hspace, hx', hs']
    have h0 : isMark '0'.toUInt8 = true := rfl
    have hpad : isMark ' '.toUInt8 = false := rfl
    cases f.minus <;> cases f.zero <;> simp [h0, hpad]
  rw [strip, hfilter]
  generalize List.replicate (if f.zero then pad else 0) '0'.toUInt8 ++ ungroup buf = digits at hdigits
  have hX : dropX ((if x ≠ 0 then ['0'.toUInt8, x] else []) ++ digits) = digits := by
    simp only [List.mem_cons, List.not_mem_nil, or_false] at hx
    obtain rfl | rfl | rfl := hx
    · exact dropX_digits hdigits
    · rfl
    · rfl
  have hS : dropSign ((if x ≠ 0 then ['0'.toUInt8, x] else []) ++ digits) =
      (if x ≠ 0 then ['0'.toUInt8, x] else []) ++ digits := by
    split
    · rfl
    · exact dropSign_digits hdigits
  simp only [List.mem_cons, List.not_mem_nil, or_false] at hsign
  obtain rfl | rfl | rfl | rfl := hsign
  · exact (congrArg dropX hS).trans hX
  · exact hX
  · exact hX
  · exact (congrArg dropX hS).trans hX

theorem minus_mem_field (hb : b ∈ bases) (f : Flags) {sign x : UInt8} (pad : ℕ)
    (hx : x ∈ [0, 'x'.toUInt8, 'X'.toUInt8]) (hbuf : ∀ ch ∈ buf, IsNumeric b ch) :
    '-'.toUInt8 ∈ field f sign x pad buf ↔ sign = '-'.toUInt8 := by
  have hbuf' : '-'.toUInt8 ∉ buf := by
    intro hmem
    obtain h | h := hbuf _ hmem
    · exact absurd h (by decide)
    · exact absurd (Nat.lt_of_lt_of_le h (base_bounds hb).2) (by decide)
  have hx' : '-'.toUInt8 ∉ (if x ≠ 0 then ['0'.toUInt8, x] else []) := by
    simp only [List.mem_cons, List.not_mem_nil, or_false] at hx
    obtain rfl | rfl | rfl := hx <;> decide
  have hpad : ∀ ch : UInt8, ch ≠ '-'.toUInt8 → '-'.toUInt8 ∉ List.replicate pad ch :=
    fun ch hne hmem => hne (List.eq_of_mem_replicate hmem).symm
  have hspace := hpad ' '.toUInt8 (by decide)
  have hzero := hpad '0'.toUInt8 (by decide)
  have hsign : '-'.toUInt8 ∈ (if sign ≠ 0 then [sign] else []) ↔ sign = '-'.toUInt8 := by
    constructor
    · intro hmem
      split at hmem
      · exact (List.mem_singleton.mp hmem).symm
      · cases hmem
    · rintro rfl
      decide
  rw [field]
  cases f.minus <;> cases f.zero <;>
    simp only [List.mem_append, hsign, hx', hbuf', hspace, hzero, Bool.or_self, Bool.or_true, Bool.true_or,
      Bool.false_eq_true, if_true, if_false, List.not_mem_nil, false_or, or_false]

/-- **What `format_integer` outputs.** -/
theorem formatInteger_eq (hb : b ∈ bases) (hw : 0 ≤ c.width) (value : UInt64) (isSigned negative : Bool) :
    ∃ out, IsField out value isSigned negative b c ∧
      (∀ (τ : Type) (output : UInt8 → τ → τ) (aux : τ),
        formatInteger output value isSigned negative b c aux = some (outputAll output out aux)) ∧
      out.length = bodyLength value isSigned negative b c +
        if c.flags.zero && c.flags.minus then
          2 * (c.width.toInt.toNat - bodyLength value isSigned negative b c)
        else c.width.toInt.toNat - bodyLength value isSigned negative b c := by
  obtain ⟨buf, hbuf, hlen, hch, hval⟩ := digitBuffer_spec hb value c
  obtain ⟨hsign, hneg⟩ := signChar_mem isSigned negative c.flags
  have hx := xChar_mem hb value c.flags
  have hbody : bodyLength value isSigned negative b c =
      buf.length + (if xChar value b c.flags ≠ 0 then 2 else 0) +
        if signChar isSigned negative c.flags ≠ 0 then 1 else 0 := by rw [bodyLength, hbuf]; rfl
  have hlength := length_field c.flags (signChar isSigned negative c.flags) (xChar value b c.flags)
    (padCnt c.width buf.length (xChar value b c.flags) (signChar isSigned negative c.flags)) buf
  rw [padCnt_eq hw hlen, ← hbody] at hlength
  refine ⟨_, ⟨?_, ?_, ?_, ?_⟩, fun τ output aux => formatInteger_field output aux hbuf, ?_⟩
  · rw [strip_field hb c.flags _ hsign hx hch]
    exact digitOf_lt_base hch
  · rw [strip_field hb c.flags _ hsign hx hch, numeral_zeros, hval]
  · rw [minus_mem_field hb c.flags _ hx hch, hneg]
  · rw [padCnt_eq hw hlen, ← hbody, hlength]
    split <;> omega
  · rw [padCnt_eq hw hlen, ← hbody, hlength]

end Field

/-! ### What `vsnprintf` stores -/

section Store

variable {m : Memory} {buffer size : UInt32}

theorem toNat_add_ofNat {a : UInt32} {n : ℕ} (h : a.toNat + n < 2 ^ 32) :
    (a + UInt32.ofNat n).toNat = a.toNat + n := by
  rw [UInt32.toNat_add, UInt32.toNat_ofNat', Nat.mod_eq_of_lt (a := n) (by omega)]
  exact Nat.mod_eq_of_lt h

/-- The characters that are counted by the printing functions. -/
theorem length_outputAll (l : List UInt8) (aux : VsnprintfAux) :
    (outputAll vsnprintfHelper l aux).length = aux.length + Int32.ofNat l.length := by
  induction l generalizing aux with
  | nil => simp [outputAll]
  | cons ch l ih =>
    have hlen : (vsnprintfHelper ch aux).length = aux.length + 1 := by
      unfold vsnprintfHelper
      split <;> rfl
    refine (ih (vsnprintfHelper ch aux)).trans ?_
    rw [hlen, List.length_cons, Nat.add_comm, Int32.ofNat_add, ← Int32.add_assoc]
    rfl

/-- The number of characters for which there is room. -/
def room (size : UInt32) : ℕ := (vsnprintfAux (fun _ => 0) 0 size).maxLength.toInt.toNat

theorem room_le (size : UInt32) : room size ≤ size.toNat - 1 := by
  unfold room vsnprintfAux
  simp only
  split
  · next h =>
    have h1 : (size - 1).toNat = size.toNat - 1 :=
      UInt32.toNat_sub_of_le _ _ (UInt32.le_iff_toNat_le.mpr (UInt32.lt_iff_toNat_lt.mp h))
    have h2 : (size - 1).toInt32.toInt ≤ (size - 1).toNat := by
      change (size - 1).toBitVec.toInt ≤ (size - 1).toBitVec.toNat
      rw [BitVec.toInt_eq_toNat_cond]
      split <;> omega
    omega
  · exact Nat.zero_le _

/-- **The characters in memory**, as long as they are counted correctly. -/
theorem outputAll_helper (hfit : buffer.toNat + size.toNat ≤ 2 ^ 32) (l : List UInt8) (hl : l.length < 2 ^ 31) :
    outputAll vsnprintfHelper l (vsnprintfAux m buffer size) =
      ⟨buffer + UInt32.ofNat (min (room size) l.length), Int32.ofNat l.length,
        (vsnprintfAux m buffer size).maxLength, m.write buffer.toNat (l.take (room size))⟩ := by
  have hroom := room_le size
  induction l using List.reverseRecOn with
  | nil =>
    simp [outputAll, vsnprintfAux]
  | append_singleton l ch ih =>
    have hl' : l.length + 1 < 2 ^ 31 := by simpa using hl
    have hlen : (Int32.ofNat l.length).toInt = l.length := Int32.toInt_ofNat_of_lt (by omega)
    have hmore : Int32.ofNat l.length < (vsnprintfAux m buffer size).maxLength ↔ l.length < room size := by
      rw [Int32.lt_iff_toInt_lt, hlen, room]
      exact Int.lt_toNat.symm
    have hsucc : Int32.ofNat l.length + 1 = Int32.ofNat (l ++ [ch]).length := by
      rw [List.length_append, Int32.ofNat_add]
      rfl
    rw [outputAll_append, ih (by omega)]
    refine (show _ = vsnprintfHelper ch _ from rfl).trans ?_
    by_cases h : l.length < room size
    · have hp : (buffer + UInt32.ofNat l.length).toNat = buffer.toNat + l.length :=
        toNat_add_ofNat (by omega)
      rw [vsnprintfHelper, if_pos (hmore.mpr h), hsucc]
      simp only [Nat.min_eq_right (Nat.le_of_lt h), hp]
      rw [List.take_of_length_le (Nat.le_of_lt h), Memory.write_write_append,
        List.take_of_length_le (by simp; omega), Nat.min_eq_right (by simp; omega), List.length_append,
        UInt32.ofNat_add, ← UInt32.add_assoc]
      rfl
    · rw [vsnprintfHelper, if_neg (mt hmore.mp h), hsucc]
      simp only [List.length_append, List.take_append_of_le_length (Nat.le_of_not_lt h)]
      rw [Nat.min_eq_left (by omega), Nat.min_eq_left (by simp; omega)]

/-- `vsnprintf` stores a prefix of the output that fits, with a terminator, and returns the length of the
output. -/
def Stores (m : Memory) (buffer size : UInt32) (print : VsnprintfAux → Option VsnprintfAux)
    (out : List UInt8) : Prop :=
  ∃ m' ret, vsnprintfWith m buffer size print = some (m', ret) ∧ ret.toInt = out.length ∧
    (size = 0 → m' = m) ∧
    (size ≠ 0 → ∃ n ≤ size.toNat - 1, m' = m.write buffer.toNat (out.take n ++ [0]))

theorem stores_iff (hfit : buffer.toNat + size.toNat ≤ 2 ^ 32) {print : VsnprintfAux → Option VsnprintfAux}
    {out : List UInt8} (hprint : ∀ aux, print aux = some (outputAll vsnprintfHelper out aux)) :
    Stores m buffer size print out ↔ out.length < 2 ^ 31 := by
  constructor
  · rintro ⟨m', ret, hret, hlen, -⟩
    simp only [vsnprintfWith, hprint] at hret
    have hlt := ret.toInt_lt
    omega
  · intro hl
    refine ⟨_, _, by rw [vsnprintfWith, hprint]; rfl, ?_, ?_, ?_⟩
    · rw [outputAll_helper hfit out hl]
      exact Int32.toInt_ofNat_of_lt hl
    · rintro rfl
      rw [outputAll_helper hfit out hl]
      exact Memory.write_nil ..
    · intro hne
      have hpos : 0 < size := UInt32.pos_iff_ne_zero.mpr hne
      have hroom := room_le size
      refine ⟨room size, hroom, ?_⟩
      rw [if_pos hpos, outputAll_helper hfit out hl, ← Memory.write_write_append, List.length_take]
      have hp : (buffer + UInt32.ofNat (min (room size) out.length)).toNat =
          buffer.toNat + min (room size) out.length := by
        have hsize : 0 < size.toNat := UInt32.lt_iff_toNat_lt.mp hpos
        exact toNat_add_ofNat (by omega)
      rw [hp]

/-- **Integers are formatted faithfully.** No write goes outside of the buffer of `format_integer`, whatever
its output is used for, and `vsnprintf` stores the output. -/
def Formats (m : Memory) (buffer size : UInt32) (value : UInt64) (isSigned negative : Bool) (b : IntegerBase)
    (c : PrintfConversion) : Prop :=
  ∃ out, IsField out value isSigned negative b c ∧
    (∀ (σ : Type) (output : UInt8 → σ → σ) (aux : σ),
      formatInteger output value isSigned negative b c aux = some (outputAll output out aux)) ∧
    Stores m buffer size (formatInteger vsnprintfHelper value isSigned negative b c) out

theorem outputAll_append_singleton (l l' : List UInt8) :
    outputAll (fun ch l => l ++ [ch]) l l' = l' ++ l := by
  induction l generalizing l' with
  | nil => exact (List.append_nil l').symm
  | cons ch l ih => exact (ih (l' ++ [ch])).trans (by simp)

variable {b : IntegerBase} {c : PrintfConversion}

/-- The output must have a length that an `int` can hold. -/
theorem formats_iff_length (hfit : buffer.toNat + size.toNat ≤ 2 ^ 32) (hb : b ∈ bases) (hw : 0 ≤ c.width)
    (value : UInt64) (isSigned negative : Bool) :
    Formats m buffer size value isSigned negative b c ↔
      bodyLength value isSigned negative b c +
        (if c.flags.zero && c.flags.minus then
          2 * (c.width.toInt.toNat - bodyLength value isSigned negative b c)
        else c.width.toInt.toNat - bodyLength value isSigned negative b c) < 2 ^ 31 := by
  obtain ⟨out, hout, hall, hlen⟩ := formatInteger_eq hb hw value isSigned negative
  have hstores := stores_iff (m := m) hfit (hall VsnprintfAux vsnprintfHelper)
  rw [← hlen, ← hstores]
  constructor
  · rintro ⟨out', -, hall', hstores'⟩
    -- there is only one output
    have heq := (hall' _ (fun ch l => l ++ [ch]) []).symm.trans (hall _ (fun ch l => l ++ [ch]) [])
    rw [outputAll_append_singleton, outputAll_append_singleton] at heq
    obtain rfl : out' = out := Option.some.inj heq
    exact hstores'
  · exact fun h => ⟨out, hout, hall, h⟩

theorem bodyLength_le (hb : b ∈ bases) (value : UInt64) (isSigned negative : Bool) :
    bodyLength value isSigned negative b c ≤ 67 := by
  obtain ⟨buf, hbuf, hlen, -⟩ := digitBuffer_spec hb value c
  rw [bodyLength, hbuf, Option.getD_some]
  split <;> split <;> omega

/-- What `%0*d` becomes for the width -2147483647. The `0` is not removed for the `-` that the width
implies. -/
def paddedTwice : PrintfConversion := ⟨{ minus := true, zero := true }, 2147483647, -1, .int⟩

theorem bodyLength_paddedTwice : bodyLength 1 true false baseD paddedTwice = 1 := by decide +kernel

end Store
end Stdio
end Clib
end Pintos
