import CobjOs.Properties.FormattedText

/-!
# Formats and the C standard

Formats as they are written in a C program: literal bytes, `%%`, and directives made of flags, a
width, a precision and a letter, each with its argument.  `Piece.text` is what the standard
prescribes for one of them, if it prescribes anything.

`vsnprintf` writes the digits, the sign and the padding of a number in this order, each before what
is there already.  So a sign comes behind the zeros that fill up the width, these zeros are written
with a precision too, and a zero has its one digit even where none is asked for.
-/

namespace CobjOs

open List Option

namespace User

/-- What stands between the `%` and the letter: the flags, and the digits of the width and of the
precision.  A width does not start with a `0`, which would be a flag. -/
structure Field where
  flags : CStr
  width : List ℕ
  precision : Option (List ℕ)
  flags_all : ∀ c ∈ flags, isFlag c
  width_digits : ∀ d ∈ width, d < 10
  width_head : width.head? ≠ some 0
  width_int : readDigits 10 0 width < 2 ^ 31
  precision_digits : ∀ p ∈ precision, ∀ d ∈ p, d < 10
  precision_le : ∀ p ∈ precision, readDigits 10 0 p ≤ 20

/-- A letter with the argument for it. -/
inductive Conversion
  | char (v : UInt32)
  | str (s : CStr) (h : s.length < 2 ^ 31)
  | int (v : UInt32)
  | unsigned (hex : Bool) (v : UInt32)
  | long (hex : Bool) (v : UInt64)

inductive Piece
  | lit (c : UInt8) (h : c ≠ ascii '%')
  | percent
  | directive (f : Field) (conv : Conversion)

/-- A number to be written: its sign, the base, and its magnitude. -/
structure Number where
  neg : Bool
  base : ℕ
  magnitude : ℕ
  magnitude_ne : neg → magnitude ≠ 0
  magnitude_lt : magnitude < 2 ^ 64
  base_ge : 10 ≤ base

lemma natAbs_toInt32_lt (n : ℕ) : (toInt32 n).natAbs < 2 ^ 64 := by
  have hlt : toInt32 n < (2 ^ 32 + 1) / 2 := Int.bmod_lt (by decide)
  have hle : -(2 ^ 32 / 2) ≤ toInt32 n := Int.le_bmod (by decide)
  omega

lemma natAbs_ne_of_isNegative {v : UInt32} (h : isNegative (some (.int v))) :
    (toInt32 v.toNat).natAbs ≠ 0 := by
  rw [isNegative, decide_eq_true_eq] at h
  omega

namespace Conversion

def letter : Conversion → UInt8
  | .char _ => ascii 'c'
  | .str _ _ => ascii 's'
  | .int _ => ascii 'd'
  | .unsigned hex _ | .long hex _ => if hex then ascii 'x' else ascii 'u'

def isLong : Conversion → Bool
  | .long _ _ => true
  | _ => false

def arg : Conversion → Arg
  | .char v | .int v | .unsigned _ v => .int v
  | .str s _ => .str (some s)
  | .long _ v => .long v

def number : Conversion → Option Number
  | .char _ | .str _ _ => none
  | .int v => some ⟨isNegative (some (.int v)), 10, (toInt32 v.toNat).natAbs,
      natAbs_ne_of_isNegative, natAbs_toInt32_lt _, le_rfl⟩
  | .unsigned hex v => some ⟨false, if hex then 16 else 10, v.toNat, by simp,
      v.toNat_lt.trans (by decide), by split_ifs <;> decide⟩
  | .long hex v => some ⟨false, if hex then 16 else 10, v.toNat, by simp, v.toNat_lt,
      by split_ifs <;> decide⟩

/-- The letter as it is written. -/
def bytes (conv : Conversion) : CStr := (if conv.isLong then [ascii 'l'] else []) ++ [conv.letter]

end Conversion

namespace Field

variable (f : Field) (n : Number)

def left : Bool := f.flags.contains (ascii '-')

def zero : Bool := f.flags.contains (ascii '0')

def minWidth : ℕ := readDigits 10 0 f.width

def minDigits : Option ℕ := f.precision.map (readDigits 10 0)

def pointBytes : CStr := f.precision.elim [] fun p => ascii '.' :: p.map digitChar

def bytes : CStr := f.flags ++ (f.width.map digitChar ++ f.pointBytes)

/-! ## What the standard prescribes -/

/-- A text filled up to the width with blanks. -/
def padded (text : CStr) : CStr :=
  let pad := replicate (f.minWidth - text.length) (ascii ' ')
  if f.left then text ++ pad else pad ++ text

/-- The digits of a number: as many as the precision says at least, which is 1 if there is none,
and no digit for a zero of precision zero. -/
def digits : CStr :=
  let ds := (Nat.digits n.base n.magnitude).reverse.map digitChar
  replicate (f.minDigits.getD 1 - ds.length) (ascii '0') ++ ds

end Field

def Number.sign (n : Number) : CStr := if n.neg then cstr "-" else []

/-- With the flag `0` zeros between the sign and the digits fill up the width.  A flag `-` or a
precision takes that back. -/
def Field.number (f : Field) (n : Number) : CStr :=
  let text := n.sign ++ f.digits n
  if f.zero ∧ ¬ f.left ∧ f.precision = none then
    n.sign ++ (replicate (f.minWidth - text.length) (ascii '0') ++ f.digits n)
  else f.padded text

namespace Piece

def text : Piece → Option CStr
  | .lit c _ => some [c]
  | .percent => some (cstr "%")
  | .directive f (.char v) =>
    if f.zero ∨ f.precision ≠ none then none
    else some (f.padded [UInt8.ofInt (toInt32 v.toNat)])
  | .directive f (.str s _) =>
    if f.zero then none else some (f.padded (s.take (f.minDigits.getD s.length)))
  | .directive f conv => conv.number.map f.number

def bytes : Piece → CStr
  | .lit c _ => [c]
  | .percent => cstr "%%"
  | .directive f conv => ascii '%' :: (f.bytes ++ conv.bytes)

def args : Piece → List Arg
  | .directive _ conv => [conv.arg]
  | _ => []

end Piece

/-- The text of a format, if the standard prescribes one. -/
def standardText : List Piece → Option CStr
  | [] => some []
  | p :: ps => do return (← p.text) ++ (← standardText ps)

/-- A number is not a zero of precision zero, and where the flag `0` fills up the width there is no
precision and the number is not negative. -/
def Field.Agrees (f : Field) (n : Number) : Prop :=
  (f.minDigits = some 0 → n.magnitude ≠ 0) ∧
    (f.zero → ¬ f.left → (n.sign ++ f.digits n).length < f.minWidth → f.precision = none ∧ ¬ n.neg)

def Piece.Agrees : Piece → Prop
  | .directive f conv => ∀ n ∈ conv.number, f.Agrees n
  | _ => True

/-! ## Directives are parsed as they are written -/

/-- What `parseDirective` finds. -/
def Field.directive (f : Field) (isLong : Bool) : Directive :=
  ⟨f.left, f.zero && !f.left, f.minWidth, f.minDigits.elim (-1) fun p => (p : ℤ), isLong⟩

lemma int32_eq {n : ℕ} (h : n < 2 ^ 31) : int32 (n : ℤ) = n := toInt32_eq h

lemma parseCount_digits {ds : List ℕ} (hds : ∀ d ∈ ds, d < 10) (hint : readDigits 10 0 ds < 2 ^ 31)
    {rest : CStr} (hrest : isDigit (charAt rest 0) = false) (hstar : charAt rest 0 ≠ ascii '*')
    (args : List Arg) :
    parseCount (ds.map digitChar ++ rest) args = .ok (readDigits 10 0 ds, rest, args) := by
  have hfirst : charAt (ds.map digitChar ++ rest) 0 ≠ ascii '*' := by
    intro h
    rcases charAt_digits hds rest with hc | hc
    · exact hstar (hc.symm.trans h)
    · exact absurd ((congrArg isDigit h).symm.trans hc) (by decide)
  have hread := takeWhile_append (isDigit_of_mem hds) hrest
  rw [parseCount, if_neg hfirst, hread.1, hread.2]
  simp only
  rw [show (0 : ℤ) = int32 ((0 : ℕ) : ℤ) from rfl, foldl_digits hds 0, int32_eq hint]

lemma Conversion.head_bytes (conv : Conversion) (rest : CStr) :
    charAt (conv.bytes ++ rest) 0 ∈ cstr "csduxl" := by
  rcases conv with _ | _ | _ | ⟨_ | _, _⟩ | ⟨_ | _, _⟩ <;> exact contains_iff_mem.1 rfl

/-- The byte behind the width ends it. -/
lemma Field.head_pointBytes (f : Field) (conv : Conversion) (rest : CStr) :
    charAt (f.pointBytes ++ (conv.bytes ++ rest)) 0 ∈ cstr "csduxl." := by
  rw [pointBytes]
  cases f.precision with
  | none => exact mem_append_left (cstr ".") (conv.head_bytes rest)
  | some p => exact contains_iff_mem.1 rfl

lemma ends_count : ∀ c ∈ cstr "csduxl.", isFlag c = false ∧ isDigit c = false ∧ c ≠ ascii '*' := by
  decide +kernel

/-- The flags end where the width starts, or where it would. -/
lemma Field.flags_bytes (f : Field) (conv : Conversion) (rest : CStr) :
    let fmt := f.width.map digitChar ++ (f.pointBytes ++ (conv.bytes ++ rest))
    (f.flags ++ fmt).takeWhile isFlag = f.flags ∧ (f.flags ++ fmt).dropWhile isFlag = fmt := by
  have hdigit : ∀ d < 10, d ≠ 0 → isFlag (digitChar d) = false := by decide
  refine takeWhile_append f.flags_all ?_
  rcases hw : f.width with _ | ⟨d, ds⟩
  · exact (ends_count _ (f.head_pointBytes conv rest)).1
  · have hd := f.width_digits d (hw ▸ mem_cons_self)
    exact hdigit d hd fun h => f.width_head (by rw [hw, h]; rfl)

lemma parseDirective_field (f : Field) (conv : Conversion) (rest : CStr) (args : List Arg) :
    parseDirective (f.bytes ++ conv.bytes ++ rest) args =
      .ok (f.directive conv.isLong, conv.letter :: rest, args) := by
  have hflags := f.flags_bytes conv rest
  have hends := ends_count _ (f.head_pointBytes conv rest)
  have hwidth := parseCount_digits f.width_digits f.width_int hends.2.1 hends.2.2 args
  have hpoint : ∀ c ∈ cstr "csduxl", c ≠ ascii '.' := by decide +kernel
  have hlong : ∀ d : Bool → Directive, (Except.ok (d (charAt (conv.bytes ++ rest) 0 = ascii 'l'),
      if charAt (conv.bytes ++ rest) 0 = ascii 'l' then (conv.bytes ++ rest).drop 1
        else conv.bytes ++ rest, args) : Except FormatFault _) =
      .ok (d conv.isLong, conv.letter :: rest, args) := by
    rcases conv with _ | _ | _ | ⟨_ | _, _⟩ | ⟨_ | _, _⟩ <;> exact fun d => rfl
  rw [Field.bytes, append_assoc, append_assoc, append_assoc, parseDirective,
    hflags.1, hflags.2, hwidth]
  simp only [bind, Except.bind]
  rw [Field.directive, Field.minDigits, Field.pointBytes]
  rcases hp : f.precision with _ | p
  · exact (if_neg (hpoint _ (conv.head_bytes rest))).trans (hlong fun long => ⟨_, _, _, _, long⟩)
  · have hends := ends_count _ (mem_append_left (cstr ".") (conv.head_bytes rest))
    have hle := f.precision_le p hp
    have hcount := parseCount_digits (f.precision_digits p hp) (by omega) hends.2.1 hends.2.2 args
    simp only [Option.elim, cons_append, drop_succ_cons, List.drop_zero, hcount]
    exact (if_pos rfl).trans (hlong fun long => ⟨_, _, _, _, long⟩)

/-! ## What is written for a directive -/

/-- The digits of a number as they are in `tmp`. -/
def Field.written (f : Field) (n : Number) : CStr :=
  let ds := (numeral n.base n.magnitude).map digitChar
  replicate (f.minDigits.getD 0 - ds.length) (ascii '0') ++ ds

section Written

variable {f : Field} {n : Number} {long : Bool}

lemma Field.minDigits_le {p : ℕ} (hp : p ∈ f.minDigits) : p ≤ 20 := by
  obtain ⟨ds, hds, rfl⟩ := map_eq_some_iff.1 hp
  exact f.precision_le ds hds

lemma Number.length_sign (n : Number) : n.sign.length ≤ 1 := by
  rw [sign]
  split_ifs <;> decide

lemma Field.written_eq (h : f.minDigits = some 0 → n.magnitude ≠ 0) : f.written n = f.digits n := by
  rw [written, digits, numeral]
  split_ifs with hn
  · -- a zero has its digit, which is one of those that the precision asks for
    rcases hp : f.minDigits with _ | _ | p
    · simp [hn, digitChar, charAt, cstr, ascii]
    · exact absurd hn (h hp)
    · simp [hn, replicate_succ', digitChar, charAt, cstr, ascii]
  · have hpos : 0 < (Nat.digits n.base n.magnitude).length :=
      length_pos_iff.2 (Nat.digits_ne_nil_iff_ne_zero.2 hn)
    cases f.minDigits with
    | none =>
      simp only [getD_none, length_map, length_reverse]
      rw [Nat.zero_sub, Nat.sub_eq_zero_of_le hpos]
    | some p => rfl

lemma padDigits_field : padDigits (f.directive long).precision n.neg
    ((numeral n.base n.magnitude).map digitChar) = .ok (n.sign ++ f.written n) := by
  have hsign := n.length_sign
  have hprec : (f.directive long).precision = f.minDigits.elim (-1) fun p => (p : ℤ) := rfl
  rw [hprec, Field.written]
  generalize (numeral n.base n.magnitude).map digitChar = ds
  rcases hp : f.minDigits with _ | p
  · rw [Option.elim, padDigits, if_neg (by omega)]
    simp [Number.sign]
  · have hle := Field.minDigits_le hp
    rw [Option.elim, padDigits, ← Number.sign, getD_some, Int.toNat_natCast]
    split_ifs
    · omega
    · rw [append_assoc]
    · rw [Nat.sub_eq_zero_of_le (by omega), replicate_zero, nil_append]

lemma padAndPut_field (f : Field) (long : Bool) {tmp : CStr} (h : tmp.length < 2 ^ 31) :
    padAndPut (f.directive long) tmp = if f.left then
        tmp ++ replicate (f.minWidth - tmp.length) (ascii ' ')
      else replicate (f.minWidth - tmp.length) (if f.zero then ascii '0' else ascii ' ') ++
        tmp := by
  have hw : f.minWidth < 2 ^ 31 := f.width_int
  have hpad : int32 (f.minWidth - tmp.length) = (f.minWidth : ℤ) - tmp.length :=
    Int.bmod_eq_of_le (by omega) (by omega)
  rw [padAndPut, Field.directive]
  simp only [hpad, Int.toNat_sub]
  cases f.left <;> simp

/-- `tmp` and what is put of it, for a number. -/
lemma convert_number {conv : Conversion} (h : n ∈ conv.number) (args : List Arg) :
    convert (f.directive conv.isLong) conv.letter (conv.arg :: args) =
      .ok (padAndPut (f.directive conv.isLong) (n.sign ++ f.written n), args) := by
  have hput : ∀ v : UInt64, v.toNat = n.magnitude →
      (padDigits (f.directive conv.isLong).precision n.neg (utoa v n.base)).bind (fun tmp =>
        .ok (padAndPut (f.directive conv.isLong) tmp, args)) =
      .ok (padAndPut (f.directive conv.isLong) (n.sign ++ f.written n), args) := by
    intro v hv
    have hbase := n.base_ge
    rw [utoa_eq v (by omega), hv, padDigits_field]
    rfl
  rcases conv with _ | _ | v | ⟨hex, v⟩ | ⟨hex, v⟩
  · simp [Conversion.number] at h
  · simp [Conversion.number] at h
  · obtain rfl := some.inj h
    dsimp only at hput
    rw [← hput _ (UInt64.toNat_ofNat_of_lt (natAbs_toInt32_lt v.toNat))]
    exact convert_int _ v args
  · obtain rfl := some.inj h
    cases hex <;> exact hput _ (UInt32.toNat_toUInt64 v)
  · obtain rfl := some.inj h
    cases hex <;> exact hput v rfl


lemma Field.length_written (f : Field) (n : Number) : (n.sign ++ f.written n).length < 2 ^ 31 := by
  have hdigits := length_numeral_le_twenty n.base_ge n.magnitude_lt
  have hsign : n.sign.length ≤ 1 := n.length_sign
  have hprec : f.minDigits.getD 0 ≤ 20 := by
    cases hp : f.minDigits with
    | none => exact Nat.zero_le 20
    | some p => exact Field.minDigits_le hp
  rw [length_append, written, length_append, length_replicate, length_map]
  omega

/-- A zero of precision zero is written with a digit, where the standard asks for none. -/
lemma Field.number_zero (long : Bool) (hp : f.minDigits = some 0) (hn : n.magnitude = 0) :
    ascii '0' ∈ padAndPut (f.directive long) (n.sign ++ f.written n) ∧
      f.minWidth ≤ (padAndPut (f.directive long) (n.sign ++ f.written n)).length ∧
      f.number n = replicate f.minWidth (ascii ' ') := by
  have hneg : n.neg = false := Bool.eq_false_iff.2 fun h => n.magnitude_ne h hn
  have hsign : n.sign = [] := by rw [Number.sign, hneg]; rfl
  have hprec : f.precision ≠ none := fun h => by simp [minDigits, h] at hp
  have hwritten : f.written n = [ascii '0'] := by
    rw [written, hn, hp]
    rfl
  have hdigits : f.digits n = [] := by
    rw [digits, hn, hp]
    simp
  have hnumber : f.number n = f.padded [] := by
    rw [number, if_neg fun h => hprec h.2.2, hsign, hdigits]
    rfl
  rw [hnumber, padded, padAndPut_field f long (f.length_written n), hsign, hwritten]
  cases f.left
  · simp
    omega
  · simp
    omega

/-- A number is written as the standard says exactly if the field agrees with it, and otherwise not
in fewer bytes. -/
lemma Field.number_cases (f : Field) (n : Number) (long : Bool) :
    (padAndPut (f.directive long) (n.sign ++ f.written n) = f.number n ↔ f.Agrees n) ∧
      (f.number n).length ≤ (padAndPut (f.directive long) (n.sign ++ f.written n)).length := by
  by_cases hzero : f.minDigits = some 0 → n.magnitude ≠ 0
  · have hput := padAndPut_field f long (f.length_written n)
    rw [written_eq hzero] at hput ⊢
    rw [hput, number, Agrees]
    by_cases hfill : f.zero ∧ ¬ f.left ∧ (n.sign ++ f.digits n).length < f.minWidth
    · -- zeros fill up the width
      obtain ⟨hz, hl, hlt⟩ := hfill
      obtain ⟨k, hk⟩ : ∃ k, f.minWidth - (n.sign ++ f.digits n).length = k + 1 :=
        ⟨_, (Nat.succ_pred_eq_of_pos (Nat.sub_pos_of_lt hlt)).symm⟩
      rw [if_neg hl, if_pos hz, hk]
      by_cases hp : f.precision = none
      · rw [if_pos ⟨hz, hl, hp⟩]
        cases hn : n.neg
        · have hsign : n.sign = [] := by rw [Number.sign, hn]; rfl
          exact ⟨iff_of_true (by simp [hsign]) ⟨hzero, fun _ _ _ => ⟨hp, by simp⟩⟩, by simp [hsign]⟩
        · have hsign : n.sign = cstr "-" := by rw [Number.sign, hn]; rfl
          refine ⟨iff_of_false ?_ fun h => (h.2 hz hl hlt).2 rfl, ?_⟩
          · simp [hsign, replicate_succ, cstr, ascii]
          · simp only [length_append, length_replicate]
            omega
      · rw [if_neg fun h => hp h.2.2, padded, if_neg hl, hk]
        refine ⟨iff_of_false ?_ fun h => hp (h.2 hz hl hlt).1, by simp⟩
        simp [replicate_succ, ascii]
    · have heq : (if f.left then n.sign ++ f.digits n ++
            replicate (f.minWidth - (n.sign ++ f.digits n).length) (ascii ' ')
          else replicate (f.minWidth - (n.sign ++ f.digits n).length)
            (if f.zero then ascii '0' else ascii ' ') ++ (n.sign ++ f.digits n)) = f.number n := by
        rw [number, padded]
        cases hl : f.left
        · cases hz : f.zero
          · simp
          · have hk : f.minWidth - (n.sign ++ f.digits n).length = 0 := by
              by_contra hk
              exact hfill ⟨hz, by simp [hl], by omega⟩
            rw [hk]
            simp
        · simp
      rw [number] at heq
      exact ⟨iff_of_true heq ⟨hzero, fun hz hl hlt => absurd ⟨hz, hl, hlt⟩ hfill⟩, heq ▸ le_rfl⟩
  · obtain ⟨hp, hn⟩ := Classical.not_imp.1 hzero
    obtain ⟨hmem, hlen, hnumber⟩ := number_zero long hp (not_not.1 hn)
    rw [hnumber]
    refine ⟨iff_of_false (fun h => ?_) fun h => hzero h.1, by rwa [length_replicate]⟩
    exact absurd (eq_of_mem_replicate (h ▸ hmem)) (by decide)

end Written

/-! ## Whole formats -/

/-- The bytes of a format, and its arguments. -/
def formatBytes (ps : List Piece) : CStr := ps.flatMap Piece.bytes

def formatArgs (ps : List Piece) : List Arg := ps.flatMap Piece.args

/-- The part of a string that the precision leaves. -/
lemma Field.take_precision (f : Field) (long : Bool) (s : CStr) :
    s.take (if 0 ≤ (f.directive long).precision ∧ (f.directive long).precision < s.length
      then (f.directive long).precision.toNat else s.length) =
        s.take (f.minDigits.getD s.length) := by
  have hprec : (f.directive long).precision = f.minDigits.elim (-1) fun p => (p : ℤ) := rfl
  rw [hprec]
  cases f.minDigits with
  | none => rfl
  | some p =>
    rw [Option.elim, getD_some, Int.toNat_natCast, take_eq_take_iff]
    split_ifs <;> omega

/-- One piece: what is written for it, before what the rest of the format gives. -/
lemma Piece.formatText_bytes {p : Piece} {text : CStr} (htext : p.text = some text) :
    ∃ out, (out = text ↔ p.Agrees) ∧ text.length ≤ out.length ∧ ∀ fuel fmt args,
      formatText (fuel + 1) (p.bytes ++ fmt) (p.args ++ args) =
        (formatText fuel fmt args).map fun r => (out ++ r.1, r.2) := by
  cases p with
  | lit c h =>
    obtain rfl := some.inj htext
    refine ⟨[c], iff_of_true rfl trivial, le_rfl, fun fuel fmt args => ?_⟩
    exact if_pos h
  | percent =>
    obtain rfl := some.inj htext
    exact ⟨cstr "%", iff_of_true rfl trivial, le_rfl, fun fuel fmt args => rfl⟩
  | directive f conv =>
    have hstep : ∀ {out}, (∀ args, convert (f.directive conv.isLong) conv.letter
        (conv.arg :: args) = .ok (out, args)) → ∀ fuel fmt args,
        formatText (fuel + 1) (ascii '%' :: (f.bytes ++ conv.bytes) ++ fmt) (conv.arg :: args) =
          (formatText fuel fmt args).map fun r => (out ++ r.1, r.2) := by
      intro out hconv fuel fmt args
      rw [cons_append, formatText, if_neg (by simp), directiveText, parseDirective_field]
      simp only [bind, Except.bind, hconv]
      rfl
    have hplain : ∀ {out tmp}, tmp.length < 2 ^ 31 → ¬ f.zero → out = f.padded tmp →
        out = padAndPut (f.directive conv.isLong) tmp := by
      intro out tmp hlen hzero hout
      rw [hout, padAndPut_field f conv.isLong hlen, Field.padded, if_neg hzero]
    rcases hn : conv.number with _ | n
    · have hagree : (Piece.directive f conv).Agrees := by simp [Agrees, hn]
      suffices h : ∀ args, convert (f.directive conv.isLong) conv.letter (conv.arg :: args) =
          .ok (text, args) from ⟨text, iff_of_true rfl hagree, le_rfl, hstep h⟩
      cases conv with
      | char v =>
        rw [Piece.text] at htext
        split_ifs at htext with hz
        rw [hplain (by simp) (fun h => hz (.inl h)) (some.inj htext).symm]
        exact fun args => rfl
      | str s h =>
        rw [Piece.text] at htext
        split_ifs at htext with hz
        have htake : (s.take (f.minDigits.getD s.length)).length < 2 ^ 31 :=
          (length_take_le' _ _).trans_lt h
        rw [hplain htake hz (some.inj htext).symm, ← f.take_precision]
        exact fun args => rfl
      | int v => cases hn
      | unsigned hex v => cases hn
      | long hex v => cases hn
    · have hnumber : text = f.number n := by
        cases conv with
        | char v => cases hn
        | str s h => cases hn
        | int v | unsigned hex v | long hex v =>
          exact some.inj (htext.symm.trans (congrArg (Option.map f.number) hn))
      have hcases := f.number_cases n conv.isLong
      rw [hnumber]
      refine ⟨_, hcases.1.trans ?_, hcases.2, hstep fun args => convert_number hn args⟩
      simp [Agrees, hn]

/-- A whole format, by induction on its pieces.  No piece is written in fewer bytes than the
standard says, so the texts are the same only if those of all pieces are. -/
lemma formatText_pieces {ps : List Piece} {text : CStr} (htext : standardText ps = some text) :
    ∃ out, (out = text ↔ ∀ p ∈ ps, p.Agrees) ∧ text.length ≤ out.length ∧ ∀ fuel, ps.length ≤ fuel →
      formatText fuel (formatBytes ps) (formatArgs ps) = .ok (out, []) := by
  induction ps generalizing text with
  | nil =>
    obtain rfl := some.inj htext
    refine ⟨[], by simp, le_rfl, fun fuel _ => ?_⟩
    cases fuel <;> rfl
  | cons p ps ih =>
    obtain ⟨t, ht, ts, hts, rfl⟩ : ∃ t, p.text = some t ∧ ∃ ts, standardText ps = some ts ∧
        t ++ ts = text := by
      simpa [standardText, bind_eq_some_iff] using htext
    obtain ⟨out, hout, hle, hstep⟩ := Piece.formatText_bytes ht
    obtain ⟨outs, houts, hles, hrun⟩ := ih hts
    refine ⟨out ++ outs, ?_, by simp; omega, fun fuel hfuel => ?_⟩
    · rw [forall_mem_cons, ← hout, ← houts]
      refine ⟨fun h => append_inj h ?_, fun ⟨h, h'⟩ => by rw [h, h']⟩
      have hlen := congrArg List.length h
      simp only [length_append] at hlen
      omega
    · obtain ⟨fuel, rfl⟩ := Nat.exists_eq_add_one.2 (Nat.zero_lt_of_lt hfuel)
      refine (hstep fuel (formatBytes ps) (formatArgs ps)).trans ?_
      rw [hrun fuel (Nat.le_of_succ_le_succ hfuel)]
      rfl

lemma length_le_formatBytes (ps : List Piece) : ps.length ≤ (formatBytes ps).length := by
  induction ps with
  | nil => exact le_rfl
  | cons p ps ih =>
    have hpos : 1 ≤ p.bytes.length := by cases p <;> simp [Piece.bytes, cstr]
    rw [formatBytes, flatMap_cons, length_append, length_cons, Nat.add_comm]
    exact Nat.add_le_add hpos ih

lemma Conversion.exists_number (v : UInt32) : ∃ n, (Conversion.int v).number = some n ∧
    n.base = 10 ∧ int32 ((if n.neg then -1 else 1) * n.magnitude) = toInt32 v.toNat := by
  refine ⟨_, rfl, rfl, ?_⟩
  have hvalue : (if isNegative (some (.int v)) then -1 else 1) * ((toInt32 v.toNat).natAbs : ℤ) =
      toInt32 v.toNat := by
    rw [isNegative]
    split_ifs with hneg <;> rw [decide_eq_true_eq] at hneg <;> omega
  dsimp only
  rw [hvalue]
  exact Int.bmod_bmod

/-- The standard's text of a number with zeros between its sign and its digits is read back. -/
lemma atoi_number {f : Field} {n : Number} (hbase : n.base = 10) (hz : f.zero) (hl : ¬ f.left)
    (hp : f.precision = none) :
    atoi (f.number n) = int32 ((if n.neg then -1 else 1) * n.magnitude) := by
  have hdigits : f.digits n = (numeral 10 n.magnitude).map digitChar := by
    have hnone : f.minDigits = none := by rw [Field.minDigits, hp]; rfl
    rw [← Field.written_eq (by simp [hnone]), Field.written, hnone, hbase, getD_none,
      Nat.zero_sub]
    rfl
  have htext : ∀ k, replicate k (ascii '0') ++ f.digits n =
      (replicate k 0 ++ numeral 10 n.magnitude).map digitChar := by
    intro k
    rw [hdigits, map_append, map_replicate]
    rfl
  rw [Field.number, if_pos ⟨hz, hl, hp⟩, htext, Number.sign, atoi_digits, readDigits_zeros,
    readDigits_numeral]
  intro d hd
  rcases mem_append.1 hd with hd | hd
  · rw [eq_of_mem_replicate hd]
    decide
  · exact numeral_lt (by decide) hd

/-- What stands in `%05d`. -/
def zeroFive : Field :=
  ⟨cstr "0", [5], none, by decide +kernel, by decide, by decide, by decide, nofun, nofun⟩

end User

end CobjOs
