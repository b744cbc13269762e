import CobjOs.User.Number

/-!
# Numbers written and read

`utoa` writes the numeral of a number.  Nothing in it is a blank, a sign or the letter of a prefix,
so `strtoull` skips nothing in front of it and reads all of it.
-/

namespace CobjOs

namespace User

/-- The text of a number in a base from 2 to 16 has at most 64 digits and no NUL in it, begins
with a `0` only for zero, and is read back by `strtoull` to its end. -/
theorem number_text_round_trip (v : UInt64) {base : ℕ} (hlo : 2 ≤ base) (hhi : base ≤ 16) :
    (utoa v base).length ≤ 64 ∧ (∀ c ∈ utoa v base, ∃ d < base, digitValue c = some d ∧ c ≠ 0) ∧
      utoa v base ≠ [] ∧ ((utoa v base).head? = some (ascii '0') → v = 0) ∧
      strtoull (utoa v base) base = (v, []) := by
  have hchars : ∀ d < 16, digitValue (digitChar d) = some d ∧ digitChar d ≠ 0 ∧
      isBlank (digitChar d) = false ∧ digitChar d ≠ ascii '+' ∧ digitChar d ≠ ascii 'x' ∧
      digitChar d ≠ ascii 'X' ∧ (digitChar d = ascii '0' → d = 0) := by decide
  have hlt : ∀ d ∈ numeral base v.toNat, d < base := fun d => numeral_lt hlo
  rw [utoa_eq v hlo]
  refine ⟨?_, ?_, by simp [numeral_ne_nil], ?_, ?_⟩
  · rw [List.length_map]
    exact length_numeral_le hlo (by decide) (v.toNat_lt.trans_le (Nat.pow_le_pow_left hlo 64))
  · intro c hc
    obtain ⟨d, hd, rfl⟩ := List.mem_map.1 hc
    have hd' := hlt d hd
    obtain ⟨hvalue, hne, -⟩ := hchars d (by omega)
    exact ⟨d, hd', hvalue, hne⟩
  · rw [List.head?_map, Option.map_eq_some_iff]
    rintro ⟨d, hd, hzero⟩
    have hd' := hlt d (List.mem_of_mem_head? hd)
    obtain rfl := (hchars d (by omega)).2.2.2.2.2.2 hzero
    exact UInt64.toNat_inj.1 (head_numeral hd)
  · have hloop := strtoullLoop_digits hhi hlt 0
    rw [readDigits_numeral, UInt64.ofNat_toNat] at hloop
    cases hnum : numeral base v.toNat with
    | nil => exact absurd hnum (numeral_ne_nil _ _)
    | cons d ds =>
      rw [hnum] at hloop hlt
      have hd := hlt d List.mem_cons_self
      obtain ⟨-, -, hblank, hplus, -⟩ := hchars d (by omega)
      have hskip : ((d :: ds).map digitChar).dropWhile isBlank = (d :: ds).map digitChar := by
        simp [hblank]
      have hfirst : charAt ((d :: ds).map digitChar) 0 = digitChar d := rfl
      -- behind the first digit there is a digit or the NUL, so there is no prefix
      have hsecond : ¬(charAt ((d :: ds).map digitChar) 1 = ascii 'x' ∨
          charAt ((d :: ds).map digitChar) 1 = ascii 'X') := by
        cases ds with
        | nil => exact (by decide : ¬((0 : UInt8) = ascii 'x' ∨ (0 : UInt8) = ascii 'X'))
        | cons e ds =>
          have he := hlt e (by simp)
          obtain ⟨-, -, -, -, hx, hX, -⟩ := hchars e (by omega)
          exact not_or.2 ⟨hx, hX⟩
      rw [strtoull, hskip]
      simp only [hfirst, if_neg hplus, if_neg (by omega : base ≠ 0), hsecond, and_false, if_false]
      exact hloop

/-- The largest number in base 2, and a number in base 16. -/
theorem number_text_round_trip_max : (utoa (2 ^ 64 - 1) 2).length = 64 ∧
    strtoull (utoa (2 ^ 64 - 1) 2) 2 = (2 ^ 64 - 1, []) ∧ utoa 0xdeadbeef 16 = cstr "deadbeef" ∧
    strtoull (utoa 0xdeadbeef 16) 16 = (0xdeadbeef, []) :=
  ⟨by decide +kernel, (number_text_round_trip (2 ^ 64 - 1) (by decide) (by decide)).2.2.2.2,
    by decide,
    (number_text_round_trip 0xdeadbeef (by decide) (by decide)).2.2.2.2⟩

end User

end CobjOs
