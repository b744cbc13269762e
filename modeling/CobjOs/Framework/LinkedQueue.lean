import Mathlib.Data.List.Nodup
import Mathlib.Tactic.Common

/-!
# Queues between a head and a tail pointer

Cells are kept in a store `cell : α → Option (β × Option α)`: the payload and the link to the next
cell.  `Linked cell start l` says that the cells from `start` on, up to a null link, are those of
`l`, and `IsQueue cell head tail l` that `head` and `tail` are the two ends of such a list without
repetition.  The edits are stated for an arbitrary new store that agrees with the old one where it
should.  `collect` walks the links with a bound on the number of cells.
-/

namespace CobjOs

open List

variable {α β : Type*}

/-- The cells from `start` on, up to a null link, are those of the list. -/
def Linked (cell : α → Option (β × Option α)) : Option α → List (α × β) → Prop
  | start, [] => start = none
  | start, (a, b) :: l => start = some a ∧ ∃ next, cell a = some (b, next) ∧ Linked cell next l

/-- The cells found by following the links, at most `fuel` of them. -/
def collect (cell : α → Option (β × Option α)) : ℕ → Option α → List (α × β)
  | 0, _ => []
  | _, none => []
  | fuel + 1, some a =>
    match cell a with
    | none => []
    | some (b, next) => (a, b) :: collect cell fuel next

namespace Linked

variable {cell cell' : α → Option (β × Option α)} {start : Option α} {l : List (α × β)}

/-- Only the cells of the list matter. -/
lemma congr (h : Linked cell start l) (heq : ∀ a ∈ l.map Prod.fst, cell' a = cell a) :
    Linked cell' start l := by
  induction l generalizing start with
  | nil => exact h
  | cons x l ih =>
    obtain ⟨a, b⟩ := x
    obtain ⟨hstart, next, hcell, hrest⟩ := h
    refine ⟨hstart, next, ?_, ih hrest fun c hc => heq c (by simp at hc; simp [hc])⟩
    rw [heq a (by simp)]
    exact hcell

lemma start_eq_none_iff (h : Linked cell start l) : start = none ↔ l = [] := by
  cases l with
  | nil => exact ⟨fun _ => rfl, fun _ => h⟩
  | cons x l =>
    have hstart := h.1
    simp [hstart]

lemma collect_eq {fuel : ℕ} (h : Linked cell start l) (hlen : l.length ≤ fuel) :
    collect cell fuel start = l := by
  induction l generalizing start fuel with
  | nil =>
    have hstart : start = none := h
    subst hstart
    cases fuel <;> rfl
  | cons x l ih =>
    obtain ⟨a, b⟩ := x
    obtain ⟨rfl, next, hcell, hrest⟩ := h
    cases fuel with
    | zero => simp at hlen
    | succ fuel =>
      rw [collect, hcell]
      simp only [List.cons.injEq, true_and]
      exact ih hrest (by simpa using hlen)

lemma last_cell {t : α} {b : β} (h : Linked cell start (l ++ [(t, b)])) :
    cell t = some (b, none) := by
  induction l generalizing start with
  | nil =>
    obtain ⟨-, next, hcell, hnext⟩ := h
    have hnone : next = none := hnext
    rw [hcell, hnone]
  | cons x l ih =>
    obtain ⟨-, next, -, hrest⟩ := h
    exact ih hrest

lemma snoc {t n : α} {b c : β} (h : Linked cell start (l ++ [(t, b)]))
    (heq : ∀ a ∈ l.map Prod.fst, cell' a = cell a) (ht : cell' t = some (b, some n))
    (hn : cell' n = some (c, none)) : Linked cell' start (l ++ [(t, b)] ++ [(n, c)]) := by
  induction l generalizing start with
  | nil => exact ⟨h.1, some n, ht, rfl, none, hn, rfl⟩
  | cons x l ih =>
    obtain ⟨a, d⟩ := x
    obtain ⟨hstart, next, hcell, hrest⟩ := h
    refine ⟨hstart, next, ?_, ih hrest fun a' ha' => heq a' (by simp at ha'; simp [ha'])⟩
    rw [heq a (by simp)]
    exact hcell

end Linked

/-- `head` and `tail` are the ends of the linked list `l`, which has no cell twice. -/
structure IsQueue (cell : α → Option (β × Option α)) (head tail : Option α) (l : List (α × β)) :
    Prop where
  linked : Linked cell head l
  tail_eq : tail = l.getLast?.map Prod.fst
  nodup : (l.map Prod.fst).Nodup

namespace IsQueue

variable {cell cell' : α → Option (β × Option α)} {head tail : Option α} {l : List (α × β)}
  {a n t : α} {b c : β}

lemma empty : IsQueue cell none none [] := ⟨rfl, rfl, nodup_nil⟩

lemma congr (h : IsQueue cell head tail l) (heq : ∀ a ∈ l.map Prod.fst, cell' a = cell a) :
    IsQueue cell' head tail l :=
  { h with linked := h.linked.congr heq }

/-- Head and tail are null together. -/
lemma nil_of_tail (h : IsQueue cell head tail l) (ht : tail = none) : l = [] := by
  have htail := h.tail_eq
  rw [ht] at htail
  simpa using htail.symm

lemma push_first (hn : cell n = some (c, none)) : IsQueue cell (some n) (some n) [(n, c)] :=
  ⟨⟨rfl, none, hn, rfl⟩, rfl, nodup_singleton n⟩

lemma eq_snoc_of_tail (h : IsQueue cell head tail l) (ht : tail = some t) :
    ∃ l' b, l = l' ++ [(t, b)] := by
  have htail := h.tail_eq
  rw [ht, eq_comm, Option.map_eq_some_iff] at htail
  obtain ⟨⟨a, b⟩, hlast, rfl⟩ := htail
  exact ⟨l.dropLast, b, (dropLast_append_getLast? _ hlast).symm⟩

lemma push (h : IsQueue cell head tail l) (ht : tail = some t) (hcell : cell t = some (b, none))
    (hnew : n ∉ l.map Prod.fst) (hn : cell' n = some (c, none)) (ht' : cell' t = some (b, some n))
    (heq : ∀ a ∈ l.map Prod.fst, a ≠ t → cell' a = cell a) :
    IsQueue cell' head (some n) (l ++ [(n, c)]) := by
  obtain ⟨l', b', rfl⟩ := h.eq_snoc_of_tail ht
  have hb : b' = b := by
    have hlast := h.linked.last_cell
    rw [hcell, Option.some.injEq, Prod.mk.injEq] at hlast
    exact hlast.1.symm
  subst hb
  have hnot : t ∉ l'.map Prod.fst := by
    have hnd := h.nodup
    rw [map_append, nodup_append_comm] at hnd
    simpa using hnd.notMem
  refine ⟨h.linked.snoc ?_ ht' hn, by simp, ?_⟩
  · intro a ha
    refine heq a (by simp at ha; simp [ha]) ?_
    rintro rfl
    exact hnot ha
  · rw [map_append, nodup_append_comm]
    simpa using ⟨by simpa using hnew, by simpa using h.nodup⟩

lemma pop (h : IsQueue cell head tail l) (hh : head = some a) :
    ∃ b next rest, l = (a, b) :: rest ∧ cell a = some (b, next) ∧ a ∉ rest.map Prod.fst ∧
      IsQueue cell next (if next.isNone then none else tail) rest := by
  cases l with
  | nil =>
    have hnone : head = none := h.linked
    simp [hh] at hnone
  | cons x rest =>
    obtain ⟨a', b⟩ := x
    obtain ⟨hhead, next, hcell, hrest⟩ := h.linked
    obtain rfl := Option.mem_unique hh hhead
    have hnd := h.nodup
    rw [map_cons, nodup_cons] at hnd
    refine ⟨b, next, rest, rfl, hcell, hnd.1, hrest, ?_, hnd.2⟩
    cases next with
    | none => simp [hrest.start_eq_none_iff.mp rfl]
    | some m =>
      cases rest with
      | nil => simp [Linked] at hrest
      | cons y rest => simp [h.tail_eq]

end IsQueue

end CobjOs
