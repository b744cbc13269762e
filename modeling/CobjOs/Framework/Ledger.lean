import Mathlib.Data.List.Flatten
import Mathlib.Data.List.Perm.Subperm
import Mathlib.Tactic.Common

/-!
# Things that owners have

A list of owners, each of which has the things `f x`.  What all of them have is, up to the order,
what one of them has and the rest; when that one changes, the rest stays.
-/

namespace CobjOs

open List

namespace Ledger

variable {α β : Type*} {f : α → List β} {ps : List α} {i : ℕ} {x y : α}

/-- What all but owner `i` have. -/
def rest (f : α → List β) (ps : List α) (i : ℕ) : List β := (ps.eraseIdx i).flatMap f

lemma perm_owner (h : ps[i]? = some x) : (ps.flatMap f).Perm (f x ++ rest f ps i) := by
  obtain ⟨hi, rfl⟩ := List.getElem?_eq_some_iff.1 h
  have hperm : (ps[i] :: ps.eraseIdx i).Perm ps := getElem_cons_eraseIdx_perm hi
  exact (hperm.flatMap_right f).symm

lemma perm_set (h : ps[i]? = some x) : ((ps.set i y).flatMap f).Perm (f y ++ rest f ps i) := by
  obtain ⟨hi, -⟩ := List.getElem?_eq_some_iff.1 h
  have hset : (ps.set i y)[i]? = some y := by rw [getElem?_set_self hi]
  have hrest : rest f (ps.set i y) i = rest f ps i := by rw [rest, rest, eraseIdx_set_eq]
  rw [← hrest]
  exact perm_owner hset

lemma map_set_eq {γ : Type*} {g : α → γ} (h : ps[i]? = some x) (hg : g y = g x) :
    (ps.set i y).map g = ps.map g := by
  refine ext_getElem? fun j => ?_
  rw [getElem?_map, getElem?_map, getElem?_set]
  split_ifs with hij hlt
  · rw [← hij, h, Option.map_some, Option.map_some, hg]
  · rw [← hij, getElem?_eq_none (Nat.not_lt.1 hlt)]
  · rfl

lemma mem_rest {b : β} (hy : y ∈ ps.eraseIdx i) (hb : b ∈ f y) : b ∈ rest f ps i :=
  mem_flatMap.2 ⟨y, hy, hb⟩

lemma eq_or_mem_of_mem_set (h : y ∈ ps.set i x) : y = x ∨ y ∈ ps.eraseIdx i := by
  obtain ⟨j, hj⟩ := mem_iff_getElem?.1 h
  by_cases hij : i = j
  · subst hij
    rw [getElem?_set_self'] at hj
    obtain ⟨-, -, rfl⟩ := Option.map_eq_some_iff.1 hj
    exact .inl rfl
  · rw [getElem?_set_ne hij] at hj
    exact .inr (mem_eraseIdx_iff_getElem?.2 ⟨j, fun hji => hij hji.symm, hj⟩)

end Ledger

end CobjOs
