import Mathlib.Tactic.Common

/-!
# Runs of a partial step function

A labelled transition system is a partial function `step : σ → ℓ → Option σ`.  `Run step ok s₀ ls s`
says that the labels `ls` lead from `s₀` to `s` and that every one of them met `ok` in the state it
was taken in; one definition serves the unrestricted runs and those in which some step is only
taken where it is safe.

`Run.invariant` turns "holds at the start and is kept by one step" into "holds in every state
reached", and `Run.of_exec` turns an evaluated run into a derivation.
-/

namespace CobjOs

variable {σ ℓ : Type*}

/-- The labels `ls` lead from `s₀` to `s`, each taken in a state where `ok` allows it. -/
inductive Run (step : σ → ℓ → Option σ) (ok : σ → ℓ → Prop) (s₀ : σ) : List ℓ → σ → Prop
  | nil : Run step ok s₀ [] s₀
  | snoc {ls : List ℓ} {s s' : σ} {l : ℓ} :
      Run step ok s₀ ls s → ok s l → step s l = some s' → Run step ok s₀ (ls ++ [l]) s'

/-- The state after the labels `ls`, computed. -/
def exec (step : σ → ℓ → Option σ) : σ → List ℓ → Option σ
  | s, [] => some s
  | s, l :: ls => (step s l).bind fun s' => exec step s' ls

/-- `ok` holds at every step of the computed run; a check that evaluates. -/
def execOk (step : σ → ℓ → Option σ) (ok : σ → ℓ → Bool) : σ → List ℓ → Bool
  | _, [] => true
  | s, l :: ls => ok s l && ((step s l).elim true fun s' => execOk step ok s' ls)

namespace Run

variable {step : σ → ℓ → Option σ} {ok : σ → ℓ → Prop} {s₀ s : σ} {ls : List ℓ}

/-- The invariant rule, with the condition of the run available at each step. -/
lemma invariant {I : σ → Prop} (h0 : I s₀)
    (hstep : ∀ s l s', I s → ok s l → step s l = some s' → I s')
    (h : Run step ok s₀ ls s) : I s := by
  induction h with
  | nil => exact h0
  | snoc _ hok hs ih => exact hstep _ _ _ ih hok hs

lemma mono {ok' : σ → ℓ → Prop} (himp : ∀ s l, ok s l → ok' s l)
    (h : Run step ok s₀ ls s) : Run step ok' s₀ ls s := by
  induction h with
  | nil => exact .nil
  | snoc _ hok hs ih => exact .snoc ih (himp _ _ hok) hs

lemma append {ls' : List ℓ} {s' : σ} (h : Run step ok s₀ ls s)
    (h' : Run step ok s ls' s') : Run step ok s₀ (ls ++ ls') s' := by
  induction h' with
  | nil => simpa using h
  | snoc _ hok hs ih =>
      rw [← List.append_assoc]
      exact .snoc ih hok hs

lemma of_exec {okb : σ → ℓ → Bool} (hokb : ∀ s l, okb s l = true → ok s l) :
    ∀ (ls : List ℓ) (s₀ : σ), exec step s₀ ls = some s → execOk step okb s₀ ls = true →
      Run step ok s₀ ls s
  | [], s₀, h, _ => by
      rw [exec, Option.some.injEq] at h
      exact h ▸ .nil
  | l :: ls, s₀, h, hb => by
      rw [exec, Option.bind_eq_some_iff] at h
      obtain ⟨s₁, hs₁, hrest⟩ := h
      rw [execOk, Bool.and_eq_true, hs₁] at hb
      have hone : Run step ok s₀ ([] ++ [l]) s₁ := .snoc .nil (hokb _ _ hb.1) hs₁
      exact hone.append (of_exec hokb ls s₁ hrest hb.2)

lemma exists_of_exec (okb : σ → ℓ → Bool) (hokb : ∀ s l, okb s l = true → ok s l) (P : σ → Bool)
    (h : (exec step s₀ ls).any P = true) (hb : execOk step okb s₀ ls = true) :
    ∃ s, Run step ok s₀ ls s ∧ P s = true := by
  cases hs : exec step s₀ ls with
  | none => simp [hs] at h
  | some s => exact ⟨s, of_exec hokb ls s₀ hs hb, by simpa [hs] using h⟩

end Run

/-- The rule for a loop over a list: what every turn keeps holds at the end. -/
lemma foldlM_invariant {f : σ → ℓ → Option σ} {I : σ → Prop}
    (hf : ∀ s a s', I s → f s a = some s' → I s') {s' : σ} :
    ∀ (as : List ℓ) (s : σ), I s → as.foldlM f s = some s' → I s'
  | [], s, hs, h => by
      simp only [List.foldlM_nil, pure, Option.some.injEq] at h
      exact h ▸ hs
  | a :: as, s, hs, h => by
      simp only [List.foldlM_cons, bind, Option.bind_eq_some_iff] at h
      obtain ⟨s₁, h₁, h⟩ := h
      exact foldlM_invariant hf as s₁ (hf s a s₁ hs h₁) h

/-- The rule for a counted loop, whose invariant may name the number of turns made. -/
@[elab_as_elim]
lemma foldlM_range_invariant {f : σ → ℕ → Option σ} {I : ℕ → σ → Prop} {s s' : σ} {n : ℕ}
    (hs : I 0 s) (hf : ∀ i s₁ s', i < n → I i s₁ → f s₁ i = some s' → I (i + 1) s')
    (h : (List.range n).foldlM f s = some s') : I n s' := by
  induction n generalizing s' with
  | zero =>
    obtain rfl : s = s' := by simpa using h
    exact hs
  | succ n ih =>
    rw [List.range_succ, List.foldlM_append] at h
    obtain ⟨s₁, h₁, hturn⟩ := Option.bind_eq_some_iff.1 h
    have hI := ih (fun i s₁ s' hi => hf i s₁ s' (Nat.lt_succ_of_lt hi)) h₁
    exact hf n s₁ s' (Nat.lt_succ_self n) hI (by simpa using hturn)

end CobjOs
