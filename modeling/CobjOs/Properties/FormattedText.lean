import CobjOs.User.Number

/-!
# Formatted text

The room in the buffer decides which bytes are stored and nothing else: `vsnprintf` stores as much
of the text of a format as there is room for, and takes the same arguments in any case.

What can go wrong is the same for every size.  A directive that the format ends in is taken for
one with the letter NUL, and the format is read on behind it.  And the digits of a number are moved
up in the 32 bytes of `tmp` as far as the precision says.
-/

namespace CobjOs

open List

namespace User

/-- The text of one directive from behind its `%`, and what is left of the format and of the
arguments. -/
def directiveText (fmt : CStr) (args : List Arg) : Except FormatFault (CStr × CStr × List Arg) := do
  let (d, fmt, args) ← parseDirective fmt args
  match fmt with
  | [] => .error .pastFormat
  | letter :: fmt =>
    let (text, args) ← convert d letter args
    return (text, fmt, args)

/-- The text of a format without a bound on its length, and the arguments that are left. -/
def formatText : ℕ → CStr → List Arg → Except FormatFault (CStr × List Arg)
  | 0, _, args => .ok ([], args)
  | _ + 1, [], args => .ok ([], args)
  | fuel + 1, c :: fmt, args =>
    if c ≠ ascii '%' then (formatText fuel fmt args).map fun r => (c :: r.1, r.2)
    else (directiveText fmt args).bind fun (text, fmt, args) =>
      (formatText fuel fmt args).map fun r => (text ++ r.1, r.2)

section Loop

variable {size : UInt64} {fuel : ℕ} {fmt out : CStr} {args : List Arg}

lemma vsnprintfLoop_percent : vsnprintfLoop size (fuel + 1) (ascii '%' :: fmt) args out =
    (directiveText fmt args).bind fun (text, fmt, args) =>
      vsnprintfLoop size fuel fmt args (putAll size out text) := by
  rw [vsnprintfLoop, if_neg (by simp), directiveText]
  cases parseDirective fmt args with
  | error e => rfl
  | ok r =>
    obtain ⟨d, fmt, args⟩ := r
    cases fmt with
    | nil => rfl
    | cons letter fmt =>
      simp only [bind, Except.bind]
      cases convert d letter args <;> rfl

lemma vsnprintfLoop_eq : vsnprintfLoop size fuel fmt args out =
    (formatText fuel fmt args).map fun r => (putAll size out r.1, r.2) := by
  induction fuel generalizing fmt args out with
  | zero => rfl
  | succ fuel ih =>
    cases fmt with
    | nil => rfl
    | cons c fmt =>
      rw [formatText]
      split_ifs with hc
      · rw [vsnprintfLoop_cons hc, ih]
        cases formatText fuel fmt args <;> rfl
      · obtain rfl := not_ne_iff.1 hc
        rw [vsnprintfLoop_percent]
        cases directiveText fmt args with
        | error e => rfl
        | ok r =>
          obtain ⟨text, fmt, args⟩ := r
          simp only [Except.bind, ih]
          cases formatText fuel fmt args with
          | error e => rfl
          | ok r => simp only [Except.map, putAll_append]

end Loop

/-- What a call makes of the text of its format. -/
lemma vsnprintf_eq (size : UInt64) (fmt : CStr) (args : List Arg) :
    vsnprintf size fmt args = (formatText fmt.length fmt args).map fun r =>
      ⟨r.1.take (size - 1).toNat, toInt32 (min (size - 1).toNat r.1.length), r.2⟩ := by
  rw [vsnprintf, vsnprintfLoop_eq]
  cases formatText fmt.length fmt args with
  | error e => rfl
  | ok r => simp [Except.map, bind, Except.bind, putAll_eq, pure, Except.pure]

/-! ## Truncation -/

/-- A number in a wide field, and a full stop behind it. -/
lemma formatText_wide {w : ℤ} {fmt : CStr} (hparse : parseDirective fmt [.int 5] =
      .ok (⟨false, false, w, -1, false⟩, ascii 'd' :: cstr ".", [.int 5])) :
    formatText 13 (ascii '%' :: fmt) [.int 5] =
      .ok (padAndPut ⟨false, false, w, -1, false⟩ (cstr "5") ++ cstr ".", []) := by
  have hconv : convert ⟨false, false, w, -1, false⟩ (ascii 'd') [.int 5] =
      .ok (padAndPut ⟨false, false, w, -1, false⟩ (cstr "5"), []) := rfl
  have htext : directiveText fmt [.int 5] =
      .ok (padAndPut ⟨false, false, w, -1, false⟩ (cstr "5"), cstr ".", []) := by
    rw [directiveText, hparse]
    simp only [bind, Except.bind, hconv]
    rfl
  rw [formatText, if_neg (by simp), htext]
  rfl

lemma length_wide {w : ℕ} (hw : w < 2 ^ 31) (hpos : 0 < w) :
    (padAndPut ⟨false, false, w, -1, false⟩ (cstr "5") ++ cstr ".").length = w + 1 := by
  have hpad : int32 (w - (cstr "5").length) = w - 1 :=
    Int.bmod_eq_of_le (by simp [cstr]; omega) (by simp [cstr]; omega)
  rw [padAndPut, hpad]
  simp [cstr]
  omega

def takesArg (letter : UInt8) : Bool := (cstr "csduxp").contains letter

/-- A condition on every directive of a format: on what stands before its letter, on the letter if
there is one, and on the argument for it. -/
def everyDirective (P : Directive → Option UInt8 → Option Arg → Bool) : ℕ → CStr → List Arg → Bool
  | 0, _, _ => true
  | _ + 1, [], _ => true
  | fuel + 1, c :: fmt, args =>
    if c ≠ ascii '%' then everyDirective P fuel fmt args
    else match parseDirective fmt args with
      | .error _ => false
      | .ok (d, [], args) => P d none args.head?
      | .ok (d, letter :: fmt, args) => P d (some letter) args.head? &&
          everyDirective P fuel fmt (if takesArg letter then args.tail else args)

/-- The argument is of the type that the letter asks for. -/
def argMatches (d : Directive) (letter : Option UInt8) (arg : Option Arg) : Bool :=
  letter.all fun c => !takesArg c || match arg with
    | some (.int _) =>
      c = ascii 'c' || c = ascii 'd' || (c = ascii 'u' || c = ascii 'x') && !d.isLong
    | some (.long _) => (c = ascii 'u' || c = ascii 'x') && d.isLong
    | some (.str _) => c = ascii 's'
    | some (.ptr _) => c = ascii 'p'
    | none => false

/-- The argument is a negative `int`, for which `%d` writes a sign. -/
def isNegative : Option Arg → Bool
  | some (.int v) => toInt32 v.toNat < 0
  | _ => false

/-- `tmp` has room for a number of that precision, for its sign and the NUL. -/
def numberFits (neg : Bool) (precision : ℤ) : Bool := (if neg then 1 else 0) + precision < 32

/-- The directive has a letter, and with the letters of numbers `tmp` has room for its precision. -/
def directiveFits (d : Directive) (letter : Option UInt8) (arg : Option Arg) : Bool :=
  letter.any fun c => !(cstr "dux").contains c ||
    numberFits (c = ascii 'd' && isNegative arg) d.precision

section Bounds

variable {fuel : ℕ} {fmt : CStr} {args : List Arg} {d : Directive}

/-- The digits of a number are moved out of `tmp` exactly if the precision is too large for it:
the number itself has 20 digits at most. -/
lemma number_cases (neg : Bool) (v : UInt64) {base : ℕ} (hbase : 10 ≤ base) (rest : List Arg) :
    let text := (padDigits d.precision neg (utoa v base)).bind fun tmp =>
      .ok (padAndPut d tmp, rest)
    (∃ out, text = .ok (out, rest)) ∧ numberFits neg d.precision ∨
      text = .error .pastTmp ∧ ¬ numberFits neg d.precision := by
  have hlen : (utoa v base).length ≤ 20 := by
    rw [utoa_eq v (by omega), length_map]
    exact length_numeral_le_twenty hbase v.toNat_lt
  have hsign : ((if neg then cstr "-" else []).length : ℤ) = if neg then 1 else 0 := by
    cases neg <;> rfl
  simp only [padDigits, hsign, numberFits, decide_eq_true_eq]
  split_ifs <;> first | exact .inl ⟨⟨_, rfl⟩, by omega⟩ | exact .inr ⟨rfl, by omega⟩

lemma convert_int (d : Directive) (v : UInt32) (args : List Arg) :
    convert d (ascii 'd') (.int v :: args) = (padDigits d.precision (isNegative (some (.int v)))
      (utoa (UInt64.ofNat (toInt32 v.toNat).natAbs) 10)).bind fun tmp =>
        .ok (padAndPut d tmp, args) := rfl

lemma directiveFits_int (d : Directive) (arg : Option Arg) :
    directiveFits d (some (ascii 'd')) arg = numberFits (isNegative arg) d.precision := by
  simp [directiveFits, cstr, ascii]

lemma convert_cases {letter : UInt8} (h : argMatches d (some letter) args.head?) :
    (∃ text, convert d letter args = .ok (text, if takesArg letter then args.tail else args)) ∧
        directiveFits d (some letter) args.head? ∨
      convert d letter args = .error .pastTmp ∧ ¬ directiveFits d (some letter) args.head? := by
  by_cases htakes : takesArg letter
  · have hletter : letter ∈ [ascii 'c', ascii 's', ascii 'd', ascii 'u', ascii 'x', ascii 'p'] :=
      contains_iff_mem.1 htakes
    simp only [mem_cons, not_mem_nil, or_false] at hletter
    obtain ⟨left, zero, width, precision, isLong⟩ := d
    rcases hletter with rfl | rfl | rfl | rfl | rfl | rfl <;>
      rcases args with _ | ⟨v | v | s | v, args⟩ <;> try exact (Bool.false_ne_true h).elim
    · exact .inl ⟨⟨_, rfl⟩, rfl⟩
    · exact .inl ⟨⟨_, rfl⟩, rfl⟩
    · rw [convert_int, directiveFits_int]
      exact number_cases (isNegative (some (.int v))) _ (by decide) args
    all_goals cases isLong
    all_goals first
      | exact (Bool.false_ne_true h).elim
      | exact number_cases _ _ (by decide) _
      | exact .inl ⟨⟨_, rfl⟩, rfl⟩
  · have hne : ∀ c, takesArg c → letter ≠ c := fun c hc he => htakes (he ▸ hc)
    refine .inl ⟨?_, by simp [directiveFits, cstr, hne 100 rfl, hne 117 rfl, hne 120 rfl]⟩
    unfold convert
    rw [if_neg (hne _ rfl), if_neg (hne _ rfl), if_neg (hne _ rfl), if_neg (hne _ rfl),
      if_neg (hne _ rfl), if_neg (hne _ rfl), if_neg htakes]
    split_ifs <;> exact ⟨_, rfl⟩

/-- With arguments that match, what a format can run into are the two ends. -/
lemma exists_formatText_iff (h : everyDirective argMatches fuel fmt args) :
    (∃ r, formatText fuel fmt args = .ok r) ↔ everyDirective directiveFits fuel fmt args := by
  induction fuel generalizing fmt args with
  | zero => simp [formatText, everyDirective]
  | succ fuel ih =>
    cases fmt with
    | nil => simp [formatText, everyDirective]
    | cons c fmt =>
      rw [everyDirective] at h ⊢
      rw [formatText]
      split_ifs at h ⊢ with hc
      · rw [← ih h]
        cases formatText fuel fmt args <;> simp [Except.map]
      · rw [directiveText]
        cases hparse : parseDirective fmt args with
        | error e => simp [hparse] at h
        | ok r =>
          obtain ⟨d, fmt, args⟩ := r
          cases fmt with
          | nil => simp [bind, Except.bind, directiveFits]
          | cons letter fmt =>
            simp only [hparse, Bool.and_eq_true] at h ⊢
            simp only [bind, Except.bind]
            rcases convert_cases h.1 with ⟨⟨text, hconv⟩, hfit⟩ | ⟨hconv, hfit⟩
            · rw [← ih h.2]
              simp only [hconv, hfit, pure, Except.pure, true_and]
              cases formatText fuel fmt _ <;> simp [Except.map]
            · simp [hconv, hfit]

end Bounds

end User

end CobjOs
