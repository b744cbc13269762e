import Mathlib.Data.List.Basic
import Mathlib.Tactic.Common

/-!
# Programs as lists of statements

`exec s c` runs the statement `c` on the state `s`; it gives the new state and the statements
that have to run before the rest of the program (the body of a branch or of a loop that was
entered), or nothing when the statement goes wrong.  `Seq exec s cs s'` is the run of a whole
program without interruption.
-/

namespace CobjOs

variable {σ ς : Type*}

/-- The statements `cs`, run one after the other, lead from `s` to `s'`. -/
inductive Seq (exec : σ → ς → Option (σ × List ς)) : σ → List ς → σ → Prop
  | nil {s : σ} : Seq exec s [] s
  | cons {s s₁ s' : σ} {c : ς} {more cs : List ς} :
      exec s c = some (s₁, more) → Seq exec s₁ (more ++ cs) s' → Seq exec s (c :: cs) s'

namespace Seq

variable {exec : σ → ς → Option (σ × List ς)} {s s₁ s' : σ} {c : ς} {cs ds : List ς}

lemma append (h : Seq exec s cs s₁) (h' : Seq exec s₁ ds s') : Seq exec s (cs ++ ds) s' := by
  induction h with
  | nil => exact h'
  | cons hc _ ih =>
    rw [List.cons_append]
    refine .cons hc ?_
    rw [← List.append_assoc]
    exact ih h'

/-- A statement that asks for nothing, then the rest. -/
lemma step (h : exec s c = some (s₁, [])) (h' : Seq exec s₁ cs s') : Seq exec s (c :: cs) s' :=
  .cons h h'

lemma single (h : exec s c = some (s', [])) : Seq exec s [c] s' := .cons h .nil

/-- A statement and what it asks for, as a step of the program `c :: cs`. -/
lemma then_single {more : List ς} (h : exec s c = some (s₁, more))
    (hmore : Seq exec s₁ more s') : Seq exec s [c] s' := by
  refine .cons h ?_
  rw [List.append_nil]
  exact hmore

lemma map_of_foldlM {ι : Type*} {f : σ → ι → Option σ} {stmt : ι → ς}
    (hf : ∀ s i s', f s i = some s' → Seq exec s [stmt i] s') :
    ∀ (is : List ι) (s : σ), is.foldlM f s = some s' → Seq exec s (is.map stmt) s'
  | [], s, h => by
      simp only [List.foldlM_nil, pure, Option.some.injEq] at h
      rw [List.map_nil, h]
      exact .nil
  | i :: is, s, h => by
      simp only [List.foldlM_cons, bind, Option.bind_eq_some_iff] at h
      obtain ⟨s₁, h₁, h⟩ := h
      exact (hf s i s₁ h₁).append (map_of_foldlM hf is s₁ h)

end Seq

end CobjOs
