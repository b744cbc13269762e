import CobjOs.Framework.Mixing
import CobjOs.Kernel.Frame

/-!
# Port tokens

`port_create` makes the token of a port from the time stamp counter by five steps that can all be
undone, so it takes different readings to different tokens.
-/

namespace CobjOs

/-- The token is a bijection on the 64-bit values, `0` is the token of the reading `0` alone, and
ports created at different readings have different tokens. -/
theorem port_tokens_are_injective :
    Set.BijOn portToken (Set.Iio (2 ^ 64)) (Set.Iio (2 ^ 64)) ∧
      (∀ tsc < 2 ^ 64, portToken tsc = 0 ↔ tsc = 0) ∧
      ∀ {k₁ k₁' k₂ k₂' : Kernel} {p₁ p₂ : Ptr} {tsc₁ tsc₂ : ℕ}, tsc₁ < 2 ^ 64 → tsc₂ < 2 ^ 64 →
        tsc₁ ≠ tsc₂ → k₁.portCreate tsc₁ = some (k₁', p₁) → k₂.portCreate tsc₂ = some (k₂', p₂) →
        ∃ port₁ port₂, k₁'.ports p₁ = some port₁ ∧ k₂'.ports p₂ = some port₂ ∧
          port₁.token ≠ port₂.token := by
  have hbij : Set.BijOn portToken (Set.Iio (2 ^ 64)) (Set.Iio (2 ^ 64)) := by
    have hxor := Mixing.bijOn_xorShift (by decide : 64 ≤ 33 + 33)
    have hmul₁ := Mixing.bijOn_mul
      (by decide : 0xff51afd7ed558ccd * 0x4f74430c22a54005 % 2 ^ 64 = 1)
    have hmul₂ := Mixing.bijOn_mul
      (by decide : 0xc4ceb9fe1a85ec53 * 0x9cb4b2f8129337db % 2 ^ 64 = 1)
    exact hxor.comp (hmul₂.comp (hxor.comp (hmul₁.comp hxor)))
  refine ⟨hbij, fun tsc htsc => ?_, ?_⟩
  · have hzero : portToken 0 = 0 := by decide
    refine ⟨fun h => hbij.injOn htsc (by decide : 0 < 2 ^ 64) (h.trans hzero.symm), ?_⟩
    rintro rfl
    exact hzero
  · intro k₁ k₁' k₂ k₂' p₁ p₂ tsc₁ tsc₂ h₁ h₂ hne hc₁ hc₂
    obtain ⟨o₁, -, rfl, rfl⟩ := Kernel.portCreate_cases hc₁
    obtain ⟨o₂, -, rfl, rfl⟩ := Kernel.portCreate_cases hc₂
    exact ⟨_, _, Function.update_self _ _ _, Function.update_self _ _ _,
      fun heq => hne (hbij.injOn h₁ h₂ heq)⟩

end CobjOs
