import CobjOs.User.Printf

/-!
# The line of the shell

`readline` and `parse_args` of `src/user/init/shell.c`.  What is typed is the list of the bytes
that `read` stores, and the echo of `readline` is left out.  A buffer is the list of its bytes; a
pointer into it is an index.

`parse_args` is followed with the bytes in front of `p` and those from `p` on.  It ends in a
`ParseFault` where the source would read behind the buffer or store behind `args`.
-/

namespace CobjOs

namespace User

/-- The loop of `readline`, with `i` bytes in the line.  A line that is neither ended nor full
waits for more. -/
def readlineLoop (max : ℕ) : ℕ → List UInt8 → List UInt8 → Option (List UInt8)
  | i, out, [] => if i < max - 1 then none else some (out.set i 0)
  | i, out, c :: typed =>
    if i < max - 1 then
      if c = ascii '\r' ∨ c = ascii '\n' then some (out.set i 0)
      else if c = 8 ∨ c = 127 then readlineLoop max (i - 1) out typed
      else readlineLoop max (i + 1) (out.set i c) typed
    else some (out.set i 0)

/-- `readline`: what it leaves in `out`. -/
def readline (out : List UInt8) (max : ℕ) (typed : List UInt8) : Option (List UInt8) :=
  readlineLoop max 0 out typed

/-- `sizeof(buf)`. -/
def lineSize : ℕ := 256

/-- The entries of `args`. -/
def maxArgs : ℕ := 32

/-- How `parse_args` ends when it does not return. -/
inductive ParseFault
  /-- The line is read behind its buffer. -/
  | pastLine
  /-- A pointer is stored behind `args`. -/
  | pastArgs
  deriving DecidableEq, Repr

/-- What `parse_args` leaves: the bytes of the line, and the entries of `args` below
`arg_count`. -/
structure Parsed where
  input : List UInt8
  args : List ℕ
  deriving DecidableEq, Repr

def isSpace (c : UInt8) : Bool := c = ascii ' '

def inWord (c : UInt8) : Bool := c ≠ 0 && c ≠ ascii ' '

/-- The loop of `parse_args`, with `pre` in front of `p` and `l` from `p` on.  Every turn takes a
byte at least, which bounds the turns. -/
def parseArgsLoop : ℕ → List UInt8 → List UInt8 → List ℕ → Except ParseFault Parsed
  | 0, _, _, _ => .error .pastLine
  | _ + 1, _, [], _ => .error .pastLine
  | fuel + 1, pre, c :: l, args =>
    if c = 0 then .ok ⟨pre ++ c :: l, args⟩
    else
      let pre := pre ++ (c :: l).takeWhile isSpace
      match (c :: l).dropWhile isSpace with
      | [] => .error .pastLine
      | c :: l =>
        if c = 0 then .ok ⟨pre ++ c :: l, args⟩
        else if maxArgs ≤ args.length then .error .pastArgs
        else
          let args := args ++ [pre.length]
          let pre := pre ++ (c :: l).takeWhile inWord
          match (c :: l).dropWhile inWord with
          | [] => .error .pastLine
          | c :: l =>
            if c = ascii ' ' then parseArgsLoop fuel (pre ++ [0]) l args
            else parseArgsLoop fuel pre (c :: l) args

/-- `parse_args`. -/
def parseArgs (input : List UInt8) : Except ParseFault Parsed :=
  parseArgsLoop input.length [] input []

end User

end CobjOs
