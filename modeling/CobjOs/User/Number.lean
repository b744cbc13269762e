import CobjOs.Framework.Numeral
import CobjOs.User.Printf
import Mathlib.Data.UInt

/-!
# Numbers as text

`strtoull` and `atoi` of `src/user/lib/util.c`, the former with the rest of the string for the
pointer it leaves in `*endptr`.  What `utoa` writes is the numeral of the number, and both read it.
-/

namespace CobjOs

open List

namespace User

/-- What `strtoull` skips in front of a number. -/
def isBlank (c : UInt8) : Bool := c = ascii ' ' || c = ascii '\t' || c = ascii '\n'

/-- The `digit` of a character, if it is one. -/
def digitValue (c : UInt8) : Option ℕ :=
  if ascii '0' ≤ c ∧ c ≤ ascii '9' then some (c.toNat - 48)
  else if ascii 'a' ≤ c ∧ c ≤ ascii 'f' then some (c.toNat - 97 + 10)
  else if ascii 'A' ≤ c ∧ c ≤ ascii 'F' then some (c.toNat - 65 + 10)
  else none

/-- The loop over the digits. -/
def strtoullLoop (base : ℕ) : UInt64 → CStr → UInt64 × CStr
  | result, [] => (result, [])
  | result, c :: str =>
    match digitValue c with
    | none => (result, c :: str)
    | some digit =>
      if base ≤ digit then (result, c :: str)
      else strtoullLoop base (result * UInt64.ofNat base + UInt64.ofNat digit) str

/-- `strtoull`. -/
def strtoull (str : CStr) (base : ℕ) : UInt64 × CStr :=
  let str := str.dropWhile isBlank
  let str := if charAt str 0 = ascii '+' then str.drop 1 else str
  if base = 0 then
    if charAt str 0 = ascii '0' then
      let str := str.drop 1
      if charAt str 0 = ascii 'x' ∨ charAt str 0 = ascii 'X' then strtoullLoop 16 0 (str.drop 1)
      else strtoullLoop 8 0 str
    else strtoullLoop 10 0 str
  else if base = 16 ∧ charAt str 0 = ascii '0' ∧
      (charAt str 1 = ascii 'x' ∨ charAt str 1 = ascii 'X') then strtoullLoop base 0 (str.drop 2)
  else strtoullLoop base 0 str

/-- `atoi`. -/
def atoi (s : CStr) : ℤ :=
  let neg : Bool := charAt s 0 = ascii '-'
  let s := if neg then s.drop 1 else s
  let result := (s.takeWhile isDigit).foldl (fun n c => int32 (n * 10 + ((c.toNat : ℤ) - 48))) 0
  int32 ((if neg then -1 else 1) * result)

/-! ## The digits that are written -/

section Digits

variable {base fuel value : ℕ} {ds : List ℕ}

lemma utoaLoop_eq (hbase : 2 ≤ base) (hv : value < 2 ^ fuel) :
    utoaLoop base fuel value = (Nat.digits base value).map digitChar := by
  induction fuel generalizing value with
  | zero =>
    obtain rfl : value = 0 := by omega
    simp [utoaLoop]
  | succ fuel ih =>
    rw [utoaLoop]
    split_ifs with hpos
    · have hdiv : value / base < 2 ^ fuel := by
        rw [Nat.pow_succ] at hv
        exact (Nat.div_le_div_left hbase (by decide)).trans_lt (Nat.div_lt_of_lt_mul (by omega))
      rw [Nat.digits_def' (by omega) hpos, map_cons, ih hdiv]
    · obtain rfl : value = 0 := by omega
      simp

lemma utoa_eq (v : UInt64) (hbase : 2 ≤ base) :
    utoa v base = (numeral base v.toNat).map digitChar := by
  have hzero : v = 0 ↔ v.toNat = 0 := by simp [← UInt64.toNat_inj]
  rw [utoa, numeral]
  split_ifs with hv hn hn
  · rfl
  · exact absurd (hzero.1 hv) hn
  · exact absurd (hzero.2 hn) hv
  · rw [utoaLoop_eq hbase v.toNat_lt, map_reverse]

/-- `strtoull` reads digits of the base. -/
lemma strtoullLoop_digits (hbase : base ≤ 16) (hds : ∀ d ∈ ds, d < base) (r : ℕ) :
    strtoullLoop base (UInt64.ofNat r) (ds.map digitChar) =
      (UInt64.ofNat (readDigits base r ds), []) := by
  have hvalue : ∀ d < 16, digitValue (digitChar d) = some d := by decide
  induction ds generalizing r with
  | nil => rfl
  | cons d ds ih =>
    have hd := hds d mem_cons_self
    rw [map_cons, strtoullLoop, hvalue d (by omega)]
    simp only [if_neg (Nat.not_le.2 hd)]
    rw [← UInt64.ofNat_mul, ← UInt64.ofNat_add, ih fun e he => hds e (mem_cons_of_mem _ he)]
    rfl

lemma isDigit_digitChar : ∀ d < 10, isDigit (digitChar d) ∧ (digitChar d).toNat = 48 + d := by
  decide

lemma int32_mul_add (n m k : ℤ) : int32 (n * m + k) = int32 (int32 n * m + k) := by
  rw [int32, int32, int32, ← Int.bmod_add_bmod, ← Int.bmod_mul_bmod, Int.bmod_add_bmod]

lemma foldl_digits (hds : ∀ d ∈ ds, d < 10) (r : ℕ) :
    (ds.map digitChar).foldl (fun n c => int32 (n * 10 + ((c.toNat : ℤ) - 48))) (int32 (r : ℤ)) =
      int32 (readDigits 10 r ds) := by
  induction ds generalizing r with
  | nil => rw [map_nil, foldl_nil, readDigits, foldl_nil]
  | cons d ds ih =>
    have hd := (isDigit_digitChar d (hds d mem_cons_self)).2
    have hstep : int32 (int32 r * 10 + (((digitChar d).toNat : ℤ) - 48)) =
        int32 ((r * 10 + d : ℕ) : ℤ) := by
      rw [hd, ← int32_mul_add]
      push_cast
      congr 1
      ring
    rw [map_cons, foldl_cons, hstep, ih fun e he => hds e (mem_cons_of_mem _ he)]
    rfl

lemma takeWhile_append {p : UInt8 → Bool} {l rest : CStr} (hl : ∀ c ∈ l, p c)
    (hrest : p (charAt rest 0) = false) :
    (l ++ rest).takeWhile p = l ∧ (l ++ rest).dropWhile p = rest := by
  rw [takeWhile_append_of_pos hl, dropWhile_append_of_pos hl]
  cases rest with
  | nil => simp
  | cons c rest =>
    have hc : p c = false := hrest
    simp [hc]

lemma isDigit_of_mem (hds : ∀ d ∈ ds, d < 10) : ∀ c ∈ ds.map digitChar, isDigit c := by
  simpa using fun d hd => (isDigit_digitChar d (hds d hd)).1

/-- The first byte of digits and what follows them is the first digit, if there is one. -/
lemma charAt_digits (hds : ∀ d ∈ ds, d < 10) (rest : CStr) :
    charAt (ds.map digitChar ++ rest) 0 = charAt rest 0 ∨
      isDigit (charAt (ds.map digitChar ++ rest) 0) := by
  cases ds with
  | nil => exact .inl rfl
  | cons d ds => exact .inr (isDigit_digitChar d (hds d mem_cons_self)).1

/-- `atoi` reads a sign and digits. -/
lemma atoi_digits (neg : Bool) (hds : ∀ d ∈ ds, d < 10) :
    atoi ((if neg then cstr "-" else []) ++ ds.map digitChar) =
      int32 ((if neg then -1 else 1) * readDigits 10 0 ds) := by
  have hread : ((ds.map digitChar).takeWhile isDigit).foldl
      (fun n c => int32 (n * 10 + ((c.toNat : ℤ) - 48))) 0 = int32 (readDigits 10 0 ds) := by
    have hall := takeWhile_append (isDigit_of_mem hds) (by decide : isDigit (charAt [] 0) = false)
    rw [append_nil] at hall
    rw [hall.1]
    exact foldl_digits hds 0
  have hneg : decide (charAt ((if neg then cstr "-" else []) ++ ds.map digitChar) 0 = ascii '-') =
      neg := by
    cases neg with
    | true => rfl
    | false =>
      refine decide_eq_false fun h => ?_
      rcases charAt_digits hds [] with hc | hc <;> rw [append_nil] at hc
      · exact absurd (hc.symm.trans h) (by decide)
      · exact absurd ((congrArg isDigit h).symm.trans hc) (by decide)
  have hdrop : (if neg then ((if neg then cstr "-" else []) ++ ds.map digitChar).drop 1
      else (if neg then cstr "-" else []) ++ ds.map digitChar) = ds.map digitChar := by
    cases neg <;> rfl
  simp only [atoi, hneg, hdrop, hread]
  rw [mul_comm, ← add_zero (_ * _), ← int32_mul_add, add_zero, mul_comm]

end Digits

end User

end CobjOs
