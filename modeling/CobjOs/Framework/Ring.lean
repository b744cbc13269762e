import Mathlib.Data.List.Chain
import Mathlib.Data.List.Nodup
import Mathlib.Tactic.Common

/-!
# Circular singly linked lists

A linked structure is seen through its link function `next : α → Option α`.  `IsRing next l` says
that `l` lists, from some starting point on, one cycle of that function and every member of it once.
The starting point is free, so rotating the list (`IsRing.rotate`) is what moving a head pointer
around the ring amounts to.

`IsRing.push` and `IsRing.unlink` are stated for an arbitrary new link function that agrees with the
old one where it should.  The loops that walk a ring take a fuel argument: `walkTo` finds the member
whose link is a given one, `findPrev` does the same but gives up when it is back at the start, and
the length of the ring is enough fuel for both.
-/

namespace CobjOs

open List Option

variable {α : Type*}

/-- `l` is one full turn of the links `next`, each member listed once. -/
structure IsRing (next : α → Option α) (l : List α) : Prop where
  nodup : l.Nodup
  linked : List.IsChain (fun a b => next a = some b) (l ++ l.head?.toList)

namespace IsRing

variable {next next' : α → Option α} {l l₁ l₂ : List α} {a b x : α}

lemma nil : IsRing next [] := ⟨nodup_nil, by simp⟩

lemma singleton (h : next a = some a) : IsRing next [a] := ⟨nodup_singleton a, by simpa⟩

/-- Only the links of the members matter. -/
lemma congr (h : IsRing next l) (heq : ∀ a ∈ l, next' a = next a) : IsRing next' l := by
  refine ⟨h.nodup, h.linked.imp_of_mem_imp ?_⟩
  intro a b ha _ hab
  have hmem : a ∈ l := by
    rcases mem_append.mp ha with hl | hl
    · exact hl
    · exact mem_of_mem_head? (by simpa using hl)
  rw [heq a hmem, hab]

lemma rotate (h : IsRing next (l₁ ++ l₂)) : IsRing next (l₂ ++ l₁) := by
  refine ⟨nodup_append_comm.mp h.nodup, ?_⟩
  have hl := h.linked
  cases l₁ with
  | nil => simpa using hl
  | cons a t₁ =>
    cases l₂ with
    | nil => simpa using hl
    | cons b t₂ =>
      simp only [cons_append, head?_cons, toList_some, append_assoc] at hl ⊢
      rw [← cons_append, isChain_split] at hl
      rw [← cons_append, isChain_split]
      exact ⟨by simpa using hl.2, by simpa using hl.1⟩

lemma next_eq (h : IsRing next (l₁ ++ a :: l₂)) : next a = (l₂ ++ l₁ ++ [a]).head? := by
  have hrot : IsRing next (a :: (l₂ ++ l₁)) := by simpa using h.rotate
  have hl := hrot.linked
  simp only [head?_cons, toList_some] at hl
  cases hr : l₂ ++ l₁ with
  | nil => simpa [hr] using hl
  | cons b t =>
    rw [hr] at hl
    simp only [cons_append, isChain_cons_cons] at hl
    simpa using hl.1

/-- Adding `x` behind the last member `b`. -/
lemma push (h : IsRing next (l ++ [b])) (hx : x ∉ l ++ [b]) (hb : next' b = some x)
    (hx' : next' x = (l ++ [b]).head?) (heq : ∀ c ∈ l, next' c = next c) :
    IsRing next' (l ++ [b] ++ [x]) := by
  refine ⟨?_, ?_⟩
  · rw [nodup_append_comm]
    simpa using ⟨by simpa using hx, by simpa using h.nodup⟩
  · have hnb : b ∉ l := by
      have := h.nodup
      rw [nodup_append_comm] at this
      simpa using this.notMem
    have hpre : List.IsChain (fun a b => next' a = some b) (l ++ [b]) := by
      have hc : List.IsChain (fun a b => next a = some b) (l ++ [b]) :=
        h.linked.left_of_append
      rw [isChain_append] at hc ⊢
      refine ⟨hc.1.imp_of_mem_imp fun c d hcm _ hcd => by rw [heq c hcm, hcd], by simp, ?_⟩
      intro c hc' d hd
      rw [heq c (mem_of_mem_getLast? hc')]
      exact hc.2.2 c hc' d hd
    have hhead : (l ++ [b] ++ [x]).head? = (l ++ [b]).head? := by cases l <;> simp
    rw [hhead, append_assoc, isChain_append]
    refine ⟨hpre, ?_, ?_⟩
    · cases l with
      | nil => simpa using hx'
      | cons c t => simpa using hx'
    · intro c hc d hd
      simp only [getLast?_append, getLast?_singleton, some_or,
        mem_def, some.injEq] at hc
      simp only [cons_append, nil_append, head?_cons, mem_def,
        some.injEq] at hd
      rw [← hc, ← hd, hb]

/-- Taking out the first member: its link is handed to the last one. -/
lemma unlink (h : IsRing next (x :: (l ++ [b]))) (hb : next' b = next x)
    (heq : ∀ c ∈ l, next' c = next c) : IsRing next' (l ++ [b]) := by
  have hnd : (l ++ [b]).Nodup := (nodup_cons.mp h.nodup).2
  refine ⟨hnd, ?_⟩
  have hx : next x = (l ++ [b]).head? := by
    have hfirst : IsRing next ([] ++ x :: (l ++ [b])) := h
    rw [hfirst.next_eq]
    cases l <;> simp
  have hl := h.linked
  simp only [head?_cons, toList_some] at hl
  have hmid : List.IsChain (fun a b => next a = some b) (l ++ [b]) := by
    have := hl.left_of_append
    exact (isChain_cons.mp this).2
  rw [isChain_append] at hmid ⊢
  refine ⟨?_, ?_, ?_⟩
  · rw [isChain_append]
    refine ⟨hmid.1.imp_of_mem_imp fun c d hcm _ hcd => by rw [heq c hcm, hcd], by simp, ?_⟩
    intro c hc d hd
    rw [heq c (mem_of_mem_getLast? hc)]
    exact hmid.2.2 c hc d hd
  · cases (l ++ [b]).head? <;> simp
  · intro c hc d hd
    simp only [getLast?_append, getLast?_singleton, some_or,
      mem_def, some.injEq] at hc
    rw [← hc, hb, hx]
    cases hh : (l ++ [b]).head? with
    | none => simp [hh] at hd
    | some e => simpa [hh] using hd

end IsRing

/-! ## Walking a ring -/

variable [DecidableEq α]

/-- `while (p->next != stop) p = p->next;` and then `p`. -/
def walkTo (next : α → Option α) (stop : α) : ℕ → α → Option α
  | 0, _ => none
  | fuel + 1, p =>
    match next p with
    | none => none
    | some q => if q = stop then some p else walkTo next stop fuel q

/-- `while (p->next != target) { p = p->next; if (p == start) return; }`: the inner `none` is
the `return`, the outer one a null link or lack of fuel. -/
def findPrev (next : α → Option α) (start target : α) : ℕ → α → Option (Option α)
  | 0, _ => none
  | fuel + 1, p =>
    match next p with
    | none => none
    | some q =>
      if q = target then some (some p)
      else if q = start then some none
      else findPrev next start target fuel q

variable {next : α → Option α} {l : List α} {a b x : α}

lemma walkTo_suffix (hring : IsRing next (a :: l ++ [b])) :
    ∀ (post pre : List α) (p : α) (n : ℕ), a :: l ++ [b] = pre ++ p :: post →
      post.length < n → walkTo next a n p = some b
  | [], pre, p, n, hsplit, hn => by
      obtain ⟨m, rfl⟩ : ∃ m, n = m + 1 := ⟨n - 1, by omega⟩
      have hp : b = p := by simpa using (append_inj' hsplit rfl).2
      have hnext : next b = ([] ++ (a :: l) ++ [b]).head? := hring.next_eq
      rw [walkTo, ← hp, hnext]
      simp
  | q :: post, pre, p, n, hsplit, hn => by
      obtain ⟨m, rfl⟩ : ∃ m, n = m + 1 := ⟨n - 1, by omega⟩
      rw [hsplit] at hring
      have hnext := hring.next_eq
      have hq : q ≠ a := by
        intro hqa
        have hnd := hring.nodup
        cases pre with
        | nil =>
          simp only [cons_append, nil_append, List.cons.injEq] at hsplit
          rw [hqa, ← hsplit.1] at hnd
          simp at hnd
        | cons c pre' =>
          simp only [cons_append, List.cons.injEq] at hsplit
          rw [hqa, ← hsplit.1] at hnd
          simp at hnd
      rw [walkTo, hnext]
      simp only [cons_append, head?_cons]
      rw [if_neg hq]
      refine walkTo_suffix (by rw [hsplit]; exact hring) post (pre ++ [p]) q m ?_ ?_
      · rw [hsplit]; simp
      · simpa using hn

lemma walkTo_last (hring : IsRing next (l ++ [b])) (ha : (l ++ [b]).head? = some a) {n : ℕ}
    (hn : l.length < n) : walkTo next a n a = some b := by
  cases l with
  | nil =>
    obtain ⟨m, rfl⟩ : ∃ m, n = m + 1 := ⟨n - 1, by omega⟩
    have hba : b = a := by simpa using ha
    have hnext : next b = ([] ++ [] ++ [b]).head? := hring.next_eq
    rw [walkTo, ← hba, hnext]
    simp
  | cons c t =>
    have hca : c = a := by simpa using ha
    subst hca
    exact walkTo_suffix hring (t ++ [b]) [] c n (by simp) (by simpa using hn)

lemma findPrev_suffix_none (hring : IsRing next (a :: l)) (hx : x ∉ a :: l) :
    ∀ (post pre : List α) (p : α) (n : ℕ), a :: l = pre ++ p :: post →
      post.length < n → findPrev next a x n p = some none
  | [], pre, p, n, hsplit, hn => by
      obtain ⟨m, rfl⟩ : ∃ m, n = m + 1 := ⟨n - 1, by omega⟩
      have hnext := (hsplit ▸ hring).next_eq
      have hax : a ≠ x := fun h => hx (by simp [h])
      have hhead : ([] ++ pre ++ [p]).head? = some a := by
        have : pre ++ [p] = a :: l := by rw [hsplit]
        simp [this]
      rw [findPrev, hnext, hhead]
      simp [hax]
  | q :: post, pre, p, n, hsplit, hn => by
      obtain ⟨m, rfl⟩ : ∃ m, n = m + 1 := ⟨n - 1, by omega⟩
      have hring' := hsplit ▸ hring
      have hnext := hring'.next_eq
      have hqx : q ≠ x := fun h => hx (by rw [hsplit]; simp [h])
      rw [findPrev, hnext]
      simp only [cons_append, head?_cons]
      rw [if_neg hqx]
      by_cases hqa : q = a
      · rw [if_pos hqa]
      · rw [if_neg hqa]
        refine findPrev_suffix_none hring hx post (pre ++ [p]) q m ?_ ?_
        · rw [hsplit]; simp
        · simpa using hn

lemma findPrev_absent (hring : IsRing next (a :: l)) (hx : x ∉ a :: l) {n : ℕ}
    (hn : l.length < n) : findPrev next a x n a = some none :=
  findPrev_suffix_none hring hx l [] a n rfl hn

lemma findPrev_present {l₁ l₂ : List α} (hring : IsRing next (l₁ ++ b :: x :: l₂)) :
    ∀ (pre : List α) (p : α) (n : ℕ), ∀ mid, l₁ ++ [b] = pre ++ p :: mid →
      mid.length < n → ∀ a, a = x ∨ (l₁ ++ [b]).head? = some a →
        findPrev next a x n p = some (some b)
  | pre, p, n, [], hsplit, hn, a, _ => by
      obtain ⟨m, rfl⟩ : ∃ m, n = m + 1 := ⟨n - 1, by omega⟩
      have hpb : b = p := by
        have := append_inj_right' hsplit rfl
        simpa using this
      have hnext := hring.next_eq
      rw [findPrev, ← hpb, hnext]
      simp
  | pre, p, n, q :: mid, hsplit, hn, a, ha => by
      obtain ⟨m, rfl⟩ : ∃ m, n = m + 1 := ⟨n - 1, by omega⟩
      have hfull : l₁ ++ b :: x :: l₂ = pre ++ p :: (q :: mid ++ x :: l₂) := by
        have : l₁ ++ b :: x :: l₂ = (l₁ ++ [b]) ++ x :: l₂ := by simp
        rw [this, hsplit]
        simp
      have hring' := hfull ▸ hring
      have hnext := hring'.next_eq
      have hnd := hring'.nodup
      have hqx : q ≠ x := by
        intro h
        rw [h] at hnd
        simp [nodup_append] at hnd
      have hqa : q ≠ a := by
        intro h
        rcases ha with ha | ha
        · exact hqx (h.trans ha)
        rw [hsplit] at ha
        cases pre with
        | nil =>
          simp only [nil_append, head?_cons, some.injEq] at ha
          rw [h, ← ha] at hnd
          simp at hnd
        | cons c pre' =>
          simp only [cons_append, head?_cons, some.injEq] at ha
          rw [h, ← ha] at hnd
          simp at hnd
      rw [findPrev, hnext]
      simp only [cons_append, head?_cons]
      rw [if_neg hqx, if_neg hqa]
      refine findPrev_present hring (pre ++ [p]) q m mid ?_ ?_ a ha
      · rw [hsplit]; simp
      · simpa using hn

lemma findPrev_later {l₂ : List α} (hring : IsRing next (l ++ b :: x :: l₂))
    (ha : (l ++ [b]).head? = some a) {n : ℕ} (hn : l.length < n) :
    findPrev next a x n a = some (some b) := by
  obtain ⟨mid, hmid⟩ := head?_eq_some_iff.1 ha
  have hlen := congrArg List.length hmid
  simp only [length_append, length_cons, length_nil] at hlen
  exact findPrev_present hring [] a n mid (by simpa using hmid) (by omega) a (.inr ha)

/-- Searching for the first member goes once around. -/
lemma findPrev_first (hring : IsRing next (a :: (l ++ [b]))) {n : ℕ} (hn : l.length + 1 < n) :
    findPrev next a a n a = some (some b) := by
  obtain ⟨n, rfl⟩ : ∃ m, n = m + 1 := ⟨n - 1, by omega⟩
  obtain ⟨c, hc⟩ : ∃ c, (l ++ [b]).head? = some c := by cases l <;> simp
  have hca : c ≠ a := by
    rintro rfl
    exact (nodup_cons.1 hring.nodup).1 (mem_of_mem_head? hc)
  have hnext : next a = some c := by
    have hfirst : IsRing next ([] ++ a :: (l ++ [b])) := hring
    rw [hfirst.next_eq, append_nil, head?_append, hc]
    rfl
  have hrot : IsRing next (l ++ b :: a :: []) := by
    have hsplit : IsRing next ([a] ++ (l ++ [b])) := hring
    simpa using hsplit.rotate
  obtain ⟨mid, hmid⟩ := head?_eq_some_iff.1 hc
  have hlen := congrArg List.length hmid
  simp only [length_append, length_cons, length_nil] at hlen
  rw [findPrev, hnext]
  simp only [if_neg hca]
  exact findPrev_present hrot [] c n mid (by simpa using hmid) (by omega) a (.inl rfl)

end CobjOs
