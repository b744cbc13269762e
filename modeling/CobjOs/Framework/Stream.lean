import Mathlib.Data.List.Basic
import Mathlib.Data.Int.Notation
import Mathlib.Tactic.Common

/-!
# Reading a stream piece by piece

A stream is a list with a position in it.  A read of up to `k` elements answers with some of what
stands at the position, and with nothing only if nothing is left or nothing was asked for
(`ReadsAt`).  Reads that go on from where the one before stopped (`ReadsOn`) come to a part of the
stream without gaps, and to all of it after enough of them.

`Stream.run` is the ideal stream with a position below a limit, which reads advance and seeks set.
-/

namespace CobjOs

open List

namespace Stream

variable {α : Type*} {c bs out : List α} {p k : ℕ} {ks : List ℕ}

/-- Up to `k` elements from position `p` on. -/
def piece (c : List α) (p k : ℕ) : List α := (c.drop p).take k

@[simp]
lemma length_piece : (piece c p k).length = min k (c.length - p) := by simp [piece]

lemma piece_of_le (h : c.length ≤ p) : piece c p k = [] := by
  simp [piece, drop_eq_nil_of_le h]

/-- Asking for more than is left makes no difference. -/
lemma piece_min (c : List α) (p k : ℕ) : piece c p (min k (c.length - p)) = piece c p k := by
  rw [piece, piece, ← length_drop, Nat.min_comm, take_eq_take_min (i := k), Nat.min_comm]

/-- An answer to a read of up to `k` elements at position `p`. -/
structure ReadsAt (c : List α) (p k : ℕ) (bs : List α) : Prop where
  initial : bs <+: c.drop p
  le : bs.length ≤ k
  pos : 0 < bs.length ↔ p < c.length ∧ 0 < k

lemma readsAt_piece (c : List α) (p k : ℕ) : ReadsAt c p k (piece c p k) where
  initial := take_prefix _ _
  le := by
    rw [length_piece]
    exact Nat.min_le_left _ _
  pos := by
    rw [length_piece]
    omega

/-- The answers to reads of the given sizes, each from where the one before stopped. -/
inductive ReadsOn (c : List α) : ℕ → List ℕ → List α → Prop
  | nil {p : ℕ} : ReadsOn c p [] []
  | cons {p k : ℕ} {ks : List ℕ} {bs out : List α} (h : ReadsAt c p k bs)
      (rest : ReadsOn c (p + bs.length) ks out) : ReadsOn c p (k :: ks) (bs ++ out)

namespace ReadsOn

lemma initial (h : ReadsOn c p ks out) : out <+: c.drop p := by
  induction h with
  | nil => exact nil_prefix
  | @cons p k ks bs out h _ ih =>
    obtain ⟨t, ht⟩ := h.initial
    rw [← drop_drop, ← ht, drop_left] at ih
    obtain ⟨u, rfl⟩ := ih
    exact ⟨u, by rw [append_assoc, ht]⟩

/-- Reads that ask for something come to the end of the stream, one element each at least. -/
lemma all (h : ReadsOn c p ks out) (hpos : ∀ k ∈ ks, 0 < k) (hlen : c.length - p ≤ ks.length) :
    out = c.drop p := by
  refine h.initial.eq_of_length_le ?_
  rw [length_drop]
  induction h with
  | nil => simpa using hlen
  | @cons p k ks bs out h _ ih =>
    have hlen' : c.length - p ≤ ks.length + 1 := hlen
    have hstep := ih (fun k hk => hpos k (by simp [hk])) ?_
    · rw [length_append]
      omega
    · have hk := hpos k (by simp)
      by_cases hp : p < c.length
      · have := h.pos.2 ⟨hp, hk⟩
        omega
      · omega

end ReadsOn

/-! ## Positions -/

/-- A seek relative to the start, the position or the end, and a read. -/
inductive Op
  | seek (offset whence : ℤ)
  | read (k : ℕ)
  deriving DecidableEq, Repr

/-- What a seek is relative to. -/
def base (c : List α) (p : ℕ) (whence : ℤ) : Option ℕ :=
  if whence = 0 then some 0
  else if whence = 1 then some p
  else if whence = 2 then some c.length
  else none

/-- The position after an operation, with what was read and the result: the new position of a
seek or `-1`, the number of elements of a read. -/
def step (limit : ℕ) (c : List α) (p : ℕ) : Op → ℕ × List α × ℤ
  | .seek offset whence =>
    match base c p whence with
    | none => (p, [], -1)
    | some b =>
      if 0 ≤ b + offset ∧ b + offset < limit then ((b + offset).toNat, [], b + offset)
      else (p, [], -1)
  | .read k => (p + (piece c p k).length, piece c p k, (piece c p k).length)

def run (limit : ℕ) (c : List α) : ℕ → List Op → ℕ × List (List α × ℤ)
  | p, [] => (p, [])
  | p, op :: ops =>
    let r := step limit c p op
    let rest := run limit c r.1 ops
    (rest.1, r.2 :: rest.2)

variable {limit : ℕ}

/-- The position stays below the limit, if that leaves room for the stream. -/
lemma step_lt (hp : p < limit) (hc : c.length < limit) (op : Op) :
    (step limit c p op).1 < limit := by
  cases op with
  | seek offset whence =>
    rw [step]
    cases base c p whence with
    | none => exact hp
    | some b =>
      dsimp only
      split_ifs with h
      · dsimp only
        omega
      · exact hp
  | read k =>
    simp only [step, length_piece]
    omega

lemma run_append (ops ops' : List Op) : ∀ p : ℕ, (run limit c p (ops ++ ops')).2 =
    (run limit c p ops).2 ++ (run limit c (run limit c p ops).1 ops').2 := by
  induction ops with
  | nil => exact fun _ => rfl
  | cons op ops ih => exact fun p => congrArg (_ :: ·) (ih _)

/-- Reads alone go through the stream. -/
lemma run_reads : ∀ (ks : List ℕ) (p : ℕ),
    ReadsOn c p ks ((run limit c p (ks.map .read)).2.flatMap Prod.fst) ∧
      (run limit c p (ks.map .read)).1 =
        p + ((run limit c p (ks.map .read)).2.flatMap Prod.fst).length
  | [], _ => ⟨.nil, rfl⟩
  | k :: ks, p => by
      obtain ⟨hon, hpos⟩ := run_reads ks (p + (piece c p k).length)
      refine ⟨.cons (readsAt_piece c p k) hon, ?_⟩
      have hflat : (run limit c p ((k :: ks).map .read)).2.flatMap Prod.fst = piece c p k ++
          (run limit c (p + (piece c p k).length) (ks.map .read)).2.flatMap Prod.fst := rfl
      rw [hflat, length_append, ← Nat.add_assoc]
      exact hpos

/-- Enough reads that ask for something deliver the whole stream, and the next one nothing. -/
lemma run_reads_all (ks : List ℕ) (hpos : ∀ k ∈ ks, 0 < k) (hlen : c.length ≤ ks.length) (k : ℕ) :
    (run limit c 0 (ks.map .read)).2.flatMap Prod.fst = c ∧
      (run limit c 0 (ks.map .read ++ [.read k])).2 =
        (run limit c 0 (ks.map .read)).2 ++ [([], 0)] := by
  obtain ⟨hon, hend⟩ := @run_reads _ c limit ks 0
  have hall := hon.all hpos (by omega)
  rw [List.drop_zero] at hall
  rw [hall, Nat.zero_add] at hend
  have hnil : piece c c.length k = [] := piece_of_le (Nat.le_refl _)
  refine ⟨hall, ?_⟩
  rw [run_append, hend]
  simp [run, step, hnil]

end Stream

end CobjOs
