import Mathlib.Data.List.Basic
import Mathlib.Tactic.Common

/-!
# Forests of tables

Several trees of tables that share one memory: each tree `s` has a root table `root s`, and
`child t i` is the table that entry `i` of the table `t` points to.  `tableAt` follows a path of
indices from a root, with the last index written first.

`Forest` says that no two paths, of one tree or of two, lead to the same table, for the paths in
a set `A` that is closed under removing the last step (entries outside it may be shared).  So a
change of one entry is a change at one path (`Forest.insert`, `Forest.tableAt_root`).
-/

namespace CobjOs

open Option

variable {σ α ι : Type*}

/-- The table at the end of a path. -/
def tableAt (root : σ → Option α) (child : α → ι → Option α) (s : σ) : List ι → Option α
  | [] => root s
  | i :: p => (tableAt root child s p).bind fun t => child t i

/-- Different paths in `A` lead to different tables. -/
def Forest (A : List ι → Prop) (root : σ → Option α) (child : α → ι → Option α) : Prop :=
  ∀ ⦃s s' p p' t⦄, A p → A p' → tableAt root child s p = some t →
    tableAt root child s' p' = some t → s = s' ∧ p = p'

variable {A : List ι → Prop} {root root' : σ → Option α} {child child' : α → ι → Option α}
  {s s₀ : σ} {p p₀ : List ι} {i₀ : ι} {t₀ n : α}

lemma tableAt_of_root_none (h : root s = none) : ∀ p : List ι, tableAt root child s p = none
  | [] => h
  | i :: p => by rw [tableAt, tableAt_of_root_none h p, bind_none]

/-- The entries that the paths of `A` read are unchanged. -/
lemma tableAt_congr (hA : ∀ i p, A (i :: p) → A p)
    (h : ∀ p i t, A (i :: p) → tableAt root child s p = some t → child' t i = child t i) :
    ∀ p, A p → tableAt root child' s p = tableAt root child s p
  | [], _ => rfl
  | i :: p, hp => by
      have ih := tableAt_congr hA h p (hA i p hp)
      rw [tableAt, tableAt, ih]
      cases ht : tableAt root child s p with
      | none => rfl
      | some t => exact h p i t hp ht

lemma Forest.congr (hf : Forest A root child)
    (heq : ∀ s p, A p → tableAt root' child' s p = tableAt root child s p) :
    Forest A root' child' := by
  intro s s' p p' t hp hp' ht ht'
  rw [heq s p hp] at ht
  rw [heq s' p' hp'] at ht'
  exact hf hp hp' ht ht'

namespace Forest

/-- A new empty table is hung into an empty entry: one path is new and nothing else changes. -/
lemma tableAt_link (hf : Forest A root child) (hA : ∀ i p, A (i :: p) → A p)
    (ht₀ : tableAt root child s₀ p₀ = some t₀) (hp₀ : A (i₀ :: p₀)) (hnone : child t₀ i₀ = none)
    (hnew : ∀ s p, A p → tableAt root child s p ≠ some n)
    (hlink : child' t₀ i₀ = some n) (hempty : ∀ i p, A (i :: p) → child' n i = none)
    (hsame : ∀ t i p, A (i :: p) → t ≠ n → ¬(t = t₀ ∧ i = i₀) → child' t i = child t i) :
    ∀ s p, A p → (s = s₀ ∧ p = i₀ :: p₀ ∧ tableAt root child' s p = some n) ∨
      (¬(s = s₀ ∧ p = i₀ :: p₀) ∧ tableAt root child' s p = tableAt root child s p)
  | s, [], _ => .inr ⟨nofun, rfl⟩
  | s, i :: p, hp => by
      have hp' := hA i p hp
      rcases tableAt_link hf hA ht₀ hp₀ hnone hnew hlink hempty hsame s p hp' with
        ⟨rfl, rfl, hn⟩ | ⟨-, heq⟩
      · -- below the new table there is nothing, as before
        refine .inr ⟨fun h => by simp at h, ?_⟩
        rw [tableAt, hn, bind_some, hempty i _ hp, tableAt, tableAt, ht₀, bind_some,
          hnone]
        rfl
      · rw [tableAt, heq]
        cases ht : tableAt root child s p with
        | none =>
          refine .inr ⟨?_, ?_⟩
          · rintro ⟨rfl, hcons⟩
            obtain ⟨rfl, rfl⟩ := List.cons.inj hcons
            rw [ht₀] at ht
            cases ht
          · rw [tableAt, ht]
            rfl
        | some t =>
          by_cases hentry : t = t₀ ∧ i = i₀
          · obtain ⟨rfl, rfl⟩ := hentry
            obtain ⟨rfl, rfl⟩ := hf hp' (hA _ _ hp₀) ht ht₀
            exact .inl ⟨rfl, rfl, hlink⟩
          · refine .inr ⟨?_, ?_⟩
            · rintro ⟨rfl, hcons⟩
              obtain ⟨rfl, rfl⟩ := List.cons.inj hcons
              rw [ht₀, some.injEq] at ht
              exact hentry ⟨ht.symm, rfl⟩
            · have hne : t ≠ n := by
                rintro rfl
                exact hnew s p hp' ht
              rw [tableAt, ht]
              exact hsame t i p hp hne hentry

/-- A new tree whose root has no children inside `A`. -/
lemma tableAt_root (hA : ∀ i p, A (i :: p) → A p) (hnone : root s₀ = none)
    (hroot : root' s₀ = some n) (hothers : ∀ s, s ≠ s₀ → root' s = root s)
    (hempty : ∀ i, A [i] → child' n i = none)
    (hsame : ∀ s p i t, A (i :: p) → tableAt root child s p = some t → child' t i = child t i) :
    ∀ s p, A p → (s = s₀ ∧ p = [] ∧ tableAt root' child' s p = some n) ∨
      (¬(s = s₀ ∧ p = []) ∧ tableAt root' child' s p = tableAt root child s p)
  | s, [], _ => by
      by_cases hs : s = s₀
      · exact .inl ⟨hs, rfl, by rw [tableAt, hs, hroot]⟩
      · exact .inr ⟨fun h => hs h.1, by rw [tableAt, tableAt, hothers s hs]⟩
  | s, i :: p, hp => by
      refine .inr ⟨fun h => by simp at h, ?_⟩
      rcases tableAt_root hA hnone hroot hothers hempty hsame s p (hA i p hp) with
        ⟨rfl, rfl, hn⟩ | ⟨-, heq⟩
      · rw [tableAt, hn, bind_some, hempty i hp, tableAt_of_root_none hnone]
      · rw [tableAt, tableAt, heq]
        cases ht : tableAt root child s p with
        | none => rfl
        | some t => exact hsame s p i t hp ht

/-- A new table at one path, and nothing else changes. -/
lemma insert (hf : Forest A root child) (hnew : ∀ s p, A p → tableAt root child s p ≠ some n)
    (hall : ∀ s p, A p → (s = s₀ ∧ p = p₀ ∧ tableAt root' child' s p = some n) ∨
      (¬(s = s₀ ∧ p = p₀) ∧ tableAt root' child' s p = tableAt root child s p)) :
    Forest A root' child' := by
  intro s s' p p' t hp hp' ht ht'
  rcases hall s p hp with ⟨rfl, rfl, hn⟩ | ⟨-, heq⟩ <;>
    rcases hall s' p' hp' with ⟨rfl, rfl, hn'⟩ | ⟨-, heq'⟩
  · exact ⟨rfl, rfl⟩
  · rw [hn] at ht
    rw [heq', ← ht] at ht'
    exact absurd ht' (hnew s' p' hp')
  · rw [hn'] at ht'
    rw [heq, ← ht'] at ht
    exact absurd ht (hnew s p hp)
  · rw [heq] at ht
    rw [heq'] at ht'
    exact hf hp hp' ht ht'

end Forest

end CobjOs
