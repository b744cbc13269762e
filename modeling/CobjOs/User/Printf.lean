import CobjOs.Fs.Tar
import CobjOs.Fs.Vfs
import Mathlib.Data.List.TakeDrop

/-!
# Formatted text

`vsnprintf` and `snprintf` of `src/user/lib/printf.c`, with `utoa` of `src/user/lib/util.c`.  The
kernel has the same two files under `src/misc`.

The format is the list of its bytes before the NUL, so reading the byte at its end gives the NUL
and going on from there leaves the string.  The buffer is the list of the bytes stored in it;
`PUT` appends one, as long as there is room.  The conversion buffer `tmp` is the text in it, and
what matters of its length is tested where the source stores into it.

A call ends in a `FormatFault` where the source would read behind the format, store behind `tmp`
or take an argument of another type than was passed.  The strings are shorter than `2 ^ 31`, so
their lengths fit in an `int`.

Every byte that is stored goes through `PUT`, and `putAll_eq` says what comes of a whole text: as
much of it as there is room for.  `size - 1` is computed in the type of `size`, so a size of zero
leaves all the room in the world.
-/

namespace CobjOs

namespace User

/-- A character of the source. -/
def ascii (c : Char) : UInt8 := UInt8.ofNat c.toNat

/-- An `int` after an operation that may overflow. -/
def int32 (n : ℤ) : ℤ := n.bmod (2 ^ 32)

/-! ## Numbers -/

/-- `digits[d]`. -/
def digitChar (d : ℕ) : UInt8 := charAt (cstr "0123456789abcdef") d

/-- The loop of `utoa` over the digits from the last to the first.  There are 64 at most, one for
every bit of the value. -/
def utoaLoop (base : ℕ) : ℕ → ℕ → CStr
  | 0, _ => []
  | fuel + 1, value =>
    if 0 < value then digitChar (value % base) :: utoaLoop base fuel (value / base) else []

/-- `utoa`. -/
def utoa (value : UInt64) (base : ℕ) : CStr :=
  if value = 0 then cstr "0" else (utoaLoop base 64 value.toNat).reverse

/-! ## Arguments and directives -/

/-- An argument as it is passed: an `int` or `unsigned int`, a 64-bit number, a string or `NULL`,
or a pointer. -/
inductive Arg
  | int (v : UInt32)
  | long (v : UInt64)
  | str (s : Option CStr)
  | ptr (v : UInt64)
  deriving DecidableEq, Repr

/-- How a call of `vsnprintf` ends that does not return. -/
inductive FormatFault
  /-- The format is read behind its NUL. -/
  | pastFormat
  /-- A digit is stored behind `tmp`. -/
  | pastTmp
  /-- The next argument is missing or of another type. -/
  | badArg
  deriving DecidableEq, Repr

/-- `va_arg(args, int)`. -/
def vaInt : List Arg → Except FormatFault (ℤ × List Arg)
  | .int v :: args => .ok (toInt32 v.toNat, args)
  | _ => .error .badArg

/-- `va_arg` for `%u` and `%x`. -/
def vaUnsigned (isLong : Bool) : List Arg → Except FormatFault (UInt64 × List Arg)
  | .int v :: args => if isLong then .error .badArg else .ok (v.toUInt64, args)
  | .long v :: args => if isLong then .ok (v, args) else .error .badArg
  | _ => .error .badArg

/-- What stands between the `%` and the letter of a directive. -/
structure Directive where
  leftAlign : Bool
  zeroPad : Bool
  width : ℤ
  precision : ℤ
  isLong : Bool
  deriving DecidableEq, Repr

def isFlag (c : UInt8) : Bool := c = ascii '-' || c = ascii '0'

def isDigit (c : UInt8) : Bool := ascii '0' ≤ c && c ≤ ascii '9'

/-- A width or precision: a `*`, or digits. -/
def parseCount (fmt : CStr) (args : List Arg) : Except FormatFault (ℤ × CStr × List Arg) :=
  if charAt fmt 0 = ascii '*' then do
    let (n, args) ← vaInt args
    return (n, fmt.drop 1, args)
  else
    let n := (fmt.takeWhile isDigit).foldl (fun n c => int32 (n * 10 + ((c.toNat : ℤ) - 48))) 0
    .ok (n, fmt.dropWhile isDigit, args)

/-- From behind the `%` to the letter. -/
def parseDirective (fmt : CStr) (args : List Arg) :
    Except FormatFault (Directive × CStr × List Arg) := do
  let flags := fmt.takeWhile isFlag
  let leftAlign := flags.contains (ascii '-')
  let zeroPad := flags.contains (ascii '0') && !leftAlign
  let (width, fmt, args) ← parseCount (fmt.dropWhile isFlag) args
  let (precision, fmt, args) ←
    if charAt fmt 0 = ascii '.' then parseCount (fmt.drop 1) args else .ok (-1, fmt, args)
  let isLong := charAt fmt 0 = ascii 'l'
  return (⟨leftAlign, zeroPad, width, precision, isLong⟩, if isLong then fmt.drop 1 else fmt, args)

/-- `PAD_AND_PUT`, the bytes it puts. -/
def padAndPut (d : Directive) (tmp : CStr) : CStr :=
  let pad := (int32 (d.width - tmp.length)).toNat
  if d.leftAlign then tmp ++ List.replicate pad (ascii ' ')
  else List.replicate pad (if d.zeroPad then ascii '0' else ascii ' ') ++ tmp

/-- The digits moved up in `tmp` for zeros in front, up to the precision.  The NUL moves with
them, to the index `neg + precision` of the 32. -/
def padDigits (precision : ℤ) (neg : Bool) (digits : CStr) : Except FormatFault CStr :=
  let sign := if neg then cstr "-" else []
  if digits.length < precision then
    if 32 ≤ sign.length + precision then .error .pastTmp
    else .ok (sign ++ List.replicate (precision.toNat - digits.length) (ascii '0') ++ digits)
  else .ok (sign ++ digits)

/-- The cases of the `switch`: what is put for the letter of a directive. -/
def convert (d : Directive) (letter : UInt8) (args : List Arg) :
    Except FormatFault (CStr × List Arg) :=
  if letter = ascii 'c' then do
    let (val, args) ← vaInt args
    return (padAndPut d [UInt8.ofInt val], args)
  else if letter = ascii 's' then
    match args with
    | .str s :: args =>
      let s := s.getD (cstr "(null)")
      let len := if 0 ≤ d.precision ∧ d.precision < s.length then d.precision.toNat else s.length
      .ok (padAndPut d (s.take len), args)
    | _ => .error .badArg
  else if letter = ascii 'd' then do
    let (val, args) ← vaInt args
    let tmp ← padDigits d.precision (val < 0) (utoa (UInt64.ofNat val.natAbs) 10)
    return (padAndPut d tmp, args)
  else if letter = ascii 'u' then do
    let (val, args) ← vaUnsigned d.isLong args
    let tmp ← padDigits d.precision false (utoa val 10)
    return (padAndPut d tmp, args)
  else if letter = ascii 'x' then do
    let (val, args) ← vaUnsigned d.isLong args
    let tmp ← padDigits d.precision false (utoa val 16)
    return (padAndPut d tmp, args)
  else if letter = ascii 'p' then
    match args with
    | .ptr v :: args => .ok (padAndPut d (cstr "0x" ++ utoa v 16), args)
    | _ => .error .badArg
  else if letter = ascii '%' then .ok (cstr "%", args)
  else .ok ([], args)

/-! ## The loop -/

/-- `PUT`. -/
def put (size : UInt64) (out : CStr) (c : UInt8) : CStr :=
  if out.length < (size - 1).toNat then out ++ [c] else out

/-- A text put byte by byte. -/
def putAll (size : UInt64) (out text : CStr) : CStr := text.foldl (put size) out

/-- The loop over the format.  Every turn takes a byte of it at least, which bounds the turns. -/
def vsnprintfLoop (size : UInt64) :
    ℕ → CStr → List Arg → CStr → Except FormatFault (CStr × List Arg)
  | 0, _, args, out => .ok (out, args)
  | _ + 1, [], args, out => .ok (out, args)
  | fuel + 1, c :: fmt, args, out =>
    if c ≠ ascii '%' then vsnprintfLoop size fuel fmt args (put size out c)
    else do
      let (d, fmt, args) ← parseDirective fmt args
      match fmt with
      | [] => .error .pastFormat
      | letter :: fmt =>
        let (text, args) ← convert d letter args
        vsnprintfLoop size fuel fmt args (putAll size out text)

/-- What a call leaves: the bytes in the buffer before the NUL, the value returned, and the
arguments that were not taken. -/
structure Printed where
  out : CStr
  ret : ℤ
  args : List Arg
  deriving DecidableEq, Repr

/-- `vsnprintf`. -/
def vsnprintf (size : UInt64) (fmt : CStr) (args : List Arg) : Except FormatFault Printed := do
  let (out, args) ← vsnprintfLoop size fmt.length fmt args []
  return ⟨out, toInt32 out.length, args⟩

/-- `snprintf`. -/
def snprintf (size : UInt64) (fmt : CStr) (args : List Arg) : Except FormatFault Printed :=
  vsnprintf size fmt args

/-! ## What is stored -/

section Put

variable {size : UInt64} {out text : CStr}

lemma toNat_sub_one (h : 0 < size.toNat) : (size - 1).toNat = size.toNat - 1 :=
  UInt64.toNat_sub_of_le size 1 h

lemma putAll_eq (size : UInt64) (out text : CStr) :
    putAll size out text = out ++ text.take ((size - 1).toNat - out.length) := by
  induction text generalizing out with
  | nil => simp [putAll]
  | cons c text ih =>
    have hstep : putAll size out (c :: text) = putAll size (put size out c) text := rfl
    rw [hstep, ih, put]
    split_ifs with hroom
    · have hleft : (size - 1).toNat - out.length =
          ((size - 1).toNat - (out ++ [c]).length) + 1 := by
        rw [List.length_append, List.length_singleton]
        omega
      rw [hleft, List.take_succ_cons]
      simp
    · rw [Nat.sub_eq_zero_of_le (by omega)]
      simp

lemma putAll_append (size : UInt64) (out text text' : CStr) :
    putAll size (putAll size out text) text' = putAll size out (text ++ text') :=
  List.foldl_append.symm

end Put

/-! ## The directive `%s` -/

section Strings

variable {size : UInt64} {fuel : ℕ} {fmt s out : CStr} {args : List Arg}

/-- A bare `%s`. -/
lemma parseDirective_string (fmt : CStr) (args : List Arg) :
    parseDirective (ascii 's' :: fmt) args =
      .ok (⟨false, false, 0, -1, false⟩, ascii 's' :: fmt, args) := rfl

/-- Without a width a string is put as it is. -/
lemma padAndPut_bare (h : s.length ≤ 2 ^ 31) : padAndPut ⟨false, false, 0, -1, false⟩ s = s := by
  have hpad : int32 (0 - s.length) = 0 - s.length := Int.bmod_eq_of_le (by omega) (by omega)
  rw [padAndPut, hpad, Int.toNat_eq_zero.2 (by omega)]
  rfl

lemma vsnprintfLoop_string (h : s.length ≤ 2 ^ 31) :
    vsnprintfLoop size (fuel + 1) (ascii '%' :: ascii 's' :: fmt) (.str (some s) :: args) out =
      vsnprintfLoop size fuel fmt args (putAll size out s) := by
  have hconv : convert ⟨false, false, 0, -1, false⟩ (ascii 's') (.str (some s) :: args) =
      .ok (s, args) := by
    conv_rhs => rw [← padAndPut_bare h]
    simp [convert, ascii]
  rw [vsnprintfLoop, if_neg (by simp), parseDirective_string]
  simp only [bind, Except.bind, hconv]

lemma vsnprintfLoop_cons {c : UInt8} (h : c ≠ ascii '%') :
    vsnprintfLoop size (fuel + 1) (c :: fmt) args out =
      vsnprintfLoop size fuel fmt args (put size out c) := by
  rw [vsnprintfLoop, if_pos h]

end Strings

end User

end CobjOs
