import Mathlib.Data.List.Basic
import Mathlib.Tactic.Common

/-!
# Steps that record what they do

A state has a log of events.  `Adds log A s s'` says that nothing was taken out of the log between
`s` and `s'` and that every new event satisfies `A`.  Such steps compose, and a loop of them is one;
what one turn of the loop certainly records is in the log after the loop.
-/

namespace CobjOs

/-- From `s` to `s'` the log has only grown, by events in `A`. -/
structure Adds {σ ε : Type*} (log : σ → List ε) (A : ε → Prop) (s s' : σ) : Prop where
  sub : log s ⊆ log s'
  mem : ∀ e ∈ log s', e ∈ log s ∨ A e

namespace Adds

variable {σ α ε : Type*} {log : σ → List ε} {A B : ε → Prop} {s s' s'' : σ} {step : σ → α → σ}

lemma refl (s : σ) : Adds log A s s := ⟨fun _ h => h, fun _ => .inl⟩

lemma trans (h : Adds log A s s') (h' : Adds log A s' s'') : Adds log A s s'' :=
  ⟨List.Subset.trans h.sub h'.sub, fun e he => (h'.mem e he).elim (h.mem e) .inr⟩

lemma mono (h : Adds log A s s') (hAB : ∀ e, A e → B e) : Adds log B s s' :=
  ⟨h.sub, fun e he => (h.mem e he).imp_right (hAB e)⟩

lemma of_append {e : ε} (h : log s' = log s ++ [e]) (he : A e) : Adds log A s s' := by
  refine ⟨fun x hx => by simp [h, hx], fun x hx => ?_⟩
  rw [h, List.mem_append, List.mem_singleton] at hx
  exact hx.imp_right fun hx : x = e => hx ▸ he

lemma foldl {xs : List α} (hstep : ∀ x ∈ xs, ∀ s, Adds log A s (step s x)) (s : σ) :
    Adds log A s (xs.foldl step s) :=
  List.foldlRecOn xs step (refl s) fun _ h x hx => h.trans (hstep x hx _)

lemma foldl_reaches {xs : List α} {x : α} (hstep : ∀ x ∈ xs, ∀ s, Adds log A s (step s x))
    (hx : x ∈ xs) {R : ε → Prop} (hR : ∀ s, ∃ e ∈ log (step s x), R e) (s : σ) :
    ∃ e ∈ log (xs.foldl step s), R e := by
  obtain ⟨pre, post, rfl⟩ := List.append_of_mem hx
  obtain ⟨e, he, hRe⟩ := hR (pre.foldl step s)
  refine ⟨e, ?_, hRe⟩
  rw [List.foldl_append, List.foldl_cons]
  exact (foldl (fun y hy => hstep y (by simp [hy])) _).sub he

end Adds

end CobjOs
