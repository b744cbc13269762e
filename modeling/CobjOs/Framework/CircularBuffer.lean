import Mathlib.Data.List.Basic
import Mathlib.Logic.Function.Basic
import Mathlib.Tactic.Common

/-!
# Bounded queues in circular buffers

A bounded queue keeps the elements offered to it in order and drops what is offered while it is
full.  `Fifo.replay` says which histories of `FifoEvent`s a queue of a given capacity can have, and
for those the elements taken are the elements accepted, in order (`Fifo.accepted_eq`).

The usual implementation is an array with two indices, `head` for the cell that is written next and
`tail` for the oldest element; one cell stays unused.  `contents` reads the queue off the array.
-/

namespace CobjOs

open List

/-! ## The bounded queue -/

/-- What happens to a queue: an element is offered to it, or taken from it. -/
inductive FifoEvent (α : Type*)
  | offered (a : α)
  | taken (a : α)
  deriving DecidableEq, Repr

namespace Fifo

variable {α : Type*} [DecidableEq α] {cap : ℕ} {q q' : List α} {es : List (FifoEvent α)}

/-- The queue after an event, if the event is possible: only the first element is taken. -/
def step (cap : ℕ) (q : List α) : FifoEvent α → Option (List α)
  | .offered a => some (if q.length < cap then q ++ [a] else q)
  | .taken a => if q.head? = some a then some q.tail else none

/-- The queue after a history. -/
def replay (cap : ℕ) (q : List α) (es : List (FifoEvent α)) : Option (List α) :=
  es.foldlM (step cap) q

/-- The elements that were offered when there was room. -/
def accepted (cap : ℕ) (q : List α) : List (FifoEvent α) → List α
  | [] => []
  | .offered a :: es =>
    (if q.length < cap then [a] else []) ++
      accepted cap (if q.length < cap then q ++ [a] else q) es
  | .taken _ :: es => accepted cap q.tail es

/-- The elements taken. -/
def takenOf (es : List (FifoEvent α)) : List α :=
  es.filterMap fun e => match e with
    | .offered _ => none
    | .taken a => some a

lemma replay_snoc {e : FifoEvent α} (h : replay cap q es = some q') :
    replay cap q (es ++ [e]) = step cap q' e := by
  simp only [replay] at h
  simp [replay, foldlM_append, h]

/-- Nothing is lost, repeated or reordered: what was there and what was accepted is what was
taken and what is left. -/
lemma accepted_eq : ∀ (es : List (FifoEvent α)) (q : List α), replay cap q es = some q' →
    q ++ accepted cap q es = takenOf es ++ q'
  | [], q, h => by simpa [replay, accepted, takenOf] using h
  | .offered a :: es, q, h => by
      have h' : replay cap (if q.length < cap then q ++ [a] else q) es = some q' := by
        simpa [replay, step] using h
      have ih := accepted_eq es _ h'
      have hq : q ++ (if q.length < cap then [a] else []) =
          if q.length < cap then q ++ [a] else q := by split <;> simp
      rw [accepted, ← append_assoc, hq, ih]
      simp [takenOf]
  | .taken a :: es, q, h => by
      have h' : q.head? = some a ∧ replay cap q.tail es = some q' := by
        simp only [replay, foldlM_cons, step, bind, Option.bind_eq_some_iff] at h
        obtain ⟨q₁, hq₁, h⟩ := h
        split at hq₁
        · exact ⟨by assumption, by rwa [← Option.some.inj hq₁] at h⟩
        · cases hq₁
      have hcons : q = a :: q.tail := (cons_head?_tail h'.1).symm
      have ih := accepted_eq es _ h'.2
      calc q ++ accepted cap q.tail es = a :: (q.tail ++ accepted cap q.tail es) := by
            conv_lhs => rw [hcons]
            rfl
        _ = takenOf (.taken a :: es) ++ q' := by rw [ih]; simp [takenOf]

end Fifo

/-! ## The circular buffer -/

namespace CircularBuffer

variable {α : Type*} {n head tail : ℕ} {buf : ℕ → α}

/-- The number of cells in use. -/
def used (n head tail : ℕ) : ℕ := (head + n - tail) % n

/-- The elements in the buffer, the oldest first. -/
def contents (n : ℕ) (buf : ℕ → α) (head tail : ℕ) : List α :=
  (List.range (used n head tail)).map fun i => buf ((tail + i) % n)

lemma used_cases (hh : head < n) (ht : tail < n) :
    tail ≤ head ∧ used n head tail = head - tail ∨
      head < tail ∧ used n head tail = head + n - tail := by
  rcases Nat.lt_or_ge head tail with hlt | hge
  · exact .inr ⟨hlt, Nat.mod_eq_of_lt (by omega)⟩
  · refine .inl ⟨hge, ?_⟩
    rw [used, show head + n - tail = head - tail + n by omega, Nat.add_mod_right,
      Nat.mod_eq_of_lt (by omega)]

lemma next_cases (hh : head < n) :
    head + 1 < n ∧ (head + 1) % n = head + 1 ∨ head + 1 = n ∧ (head + 1) % n = 0 := by
  rcases Nat.lt_or_ge (head + 1) n with hlt | hge
  · exact .inl ⟨hlt, Nat.mod_eq_of_lt hlt⟩
  · have heq : head + 1 = n := by omega
    exact .inr ⟨heq, by rw [heq, Nat.mod_self]⟩

lemma contents_eq_nil (hh : head < n) (ht : tail < n) :
    contents n buf head tail = [] ↔ head = tail := by
  have hused := used_cases hh ht
  rw [← length_eq_zero_iff, contents, length_map, length_range]
  omega

lemma length_contents_lt (hh : head < n) (ht : tail < n) :
    (contents n buf head tail).length < n - 1 ↔ (head + 1) % n ≠ tail := by
  have hused := used_cases hh ht
  have hnext := next_cases hh
  rw [contents, length_map, length_range]
  omega

/-- The cells in use are not the one at the head. -/
lemma cell_ne_head (hh : head < n) (ht : tail < n) {i : ℕ} (hi : i < used n head tail) :
    (tail + i) % n ≠ head := by
  have hused := used_cases hh ht
  rcases Nat.lt_or_ge (tail + i) n with hlt | hge
  · rw [Nat.mod_eq_of_lt hlt]
    omega
  · rw [Nat.mod_eq_sub_mod hge, Nat.mod_eq_of_lt (by omega)]
    omega

/-- Writing the cell at the head and moving the head on appends an element. -/
lemma contents_push (hh : head < n) (ht : tail < n) (hroom : (head + 1) % n ≠ tail) (a : α) :
    contents n (Function.update buf head a) ((head + 1) % n) tail =
      contents n buf head tail ++ [a] := by
  have hn : (head + 1) % n < n := Nat.mod_lt _ (by omega)
  have hused : used n ((head + 1) % n) tail = used n head tail + 1 := by
    have h₁ := used_cases hh ht
    have h₂ := used_cases hn ht
    have h₃ := next_cases hh
    omega
  have hlast : (tail + used n head tail) % n = head := by
    rcases used_cases hh ht with ⟨hle, hu⟩ | ⟨hlt, hu⟩
    · rw [hu, Nat.add_sub_cancel' hle, Nat.mod_eq_of_lt hh]
    · rw [hu, show tail + (head + n - tail) = head + n by omega, Nat.add_mod_right,
        Nat.mod_eq_of_lt hh]
  rw [contents, hused, range_succ, map_append, map_singleton, hlast,
    Function.update_self, contents]
  congr 1
  refine map_congr_left fun i hi => ?_
  exact Function.update_of_ne (cell_ne_head hh ht (mem_range.1 hi)) _ _

/-- Moving the tail on drops the oldest element, the one in the cell at the tail. -/
lemma contents_pop (hh : head < n) (ht : tail < n) (hne : head ≠ tail) :
    contents n buf head tail = buf tail :: contents n buf head ((tail + 1) % n) := by
  have hn : (tail + 1) % n < n := Nat.mod_lt _ (by omega)
  have hused : used n head tail = used n head ((tail + 1) % n) + 1 := by
    have h₁ := used_cases hh ht
    have h₂ := used_cases hh hn
    have h₃ := next_cases ht
    omega
  rw [contents, hused, range_succ_eq_map, map_cons, Nat.add_zero, Nat.mod_eq_of_lt ht,
    map_map, contents]
  refine congrArg _ (map_congr_left fun i _ => congrArg buf ?_)
  simp only [Function.comp_apply, Nat.succ_eq_add_one, Nat.mod_add_mod]
  congr 1
  omega

end CircularBuffer

end CobjOs
