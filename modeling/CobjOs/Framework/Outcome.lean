import Mathlib.Tactic.Common

/-!
# Rules for computations that can fail

`Ends E P x` says of a computation `x : Except ε α` that it returns a value with `P` or fails
with an error that `E` allows.  With an `E` that excludes one error it is the statement that this
error does not occur; with `E` always false it is total correctness.  The rules follow the ways
in which computations are put together.
-/

namespace CobjOs

universe u v

variable {ε : Type u} {α β : Type v} {E : ε → Prop} {P Q : α → Prop} {R : β → Prop} {x : Except ε α}

def Ends (E : ε → Prop) (P : α → Prop) : Except ε α → Prop
  | .ok a => P a
  | .error e => E e

namespace Ends

variable {x : Except ε α}

@[simp] lemma ok_iff {a : α} : Ends E P (.ok a) ↔ P a := Iff.rfl

@[simp] lemma error_iff {e : ε} : Ends E P (.error e) ↔ E e := Iff.rfl

lemma of_eq {a : α} (hx : x = .ok a) (ha : P a) : Ends E P x := hx ▸ ha

lemma mono (h : Ends E P x) (hPQ : ∀ a, P a → Q a) : Ends E Q x := by
  cases x with
  | ok a => exact hPQ a h
  | error e => exact h

lemma toOption (h : Ends E P x) {a : α} (ha : x.toOption = some a) : P a := by
  cases x with
  | ok b => exact Option.some.inj ha ▸ h
  | error e => cases ha

lemma ne_error (h : Ends E P x) {e : ε} (he : ¬E e) : x ≠ .error e := by
  rintro rfl
  exact he h

lemma bind {f : α → Except ε β} (hx : Ends E P x)
    (hf : ∀ a, P a → Ends E R (f a)) : Ends E R (x >>= f) := by
  cases x with
  | ok a => exact hf a hx
  | error e => exact hx

/-- Sequencing after a part whose result is known. -/
lemma bind_of_eq {f : α → Except ε β} {a : α} (hx : x = .ok a)
    (hf : Ends E R (f a)) : Ends E R (x >>= f) := hx ▸ hf

lemma foldlM {f : α → β → Except ε α} (hf : ∀ s a, P s → Ends E P (f s a)) (as : List β) {s : α}
    (hs : P s) : Ends E P (as.foldlM f s) := by
  induction as generalizing s with
  | nil => exact hs
  | cons a as ih =>
    rw [List.foldlM_cons]
    exact (hf s a hs).bind fun s' hs' => ih hs'

end Ends

lemma bind_eq_ok {f : α → Except ε β} {b : β} :
    x >>= f = .ok b ↔ ∃ a, x = .ok a ∧ f a = .ok b := by
  constructor
  · intro h
    cases x with
    | ok a => exact ⟨a, rfl, h⟩
    | error e => cases h
  · rintro ⟨a, rfl, h⟩
    exact h

lemma toOption_eq_some {a : α} : x.toOption = some a ↔ x = .ok a := by
  cases x with
  | ok b => exact ⟨fun h => congrArg _ (Option.some.inj h), fun h => congrArg _ (Except.ok.inj h)⟩
  | error e => exact ⟨nofun, nofun⟩

/-- An evaluated computation that returns a value with the evaluated property `P`. -/
lemma exists_ok_of_any {P : α → Bool} (h : x.toOption.any P = true) :
    ∃ a, x = .ok a ∧ P a = true := by
  cases x with
  | ok a => exact ⟨a, rfl, h⟩
  | error e => cases h

end CobjOs
