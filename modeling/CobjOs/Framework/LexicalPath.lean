import Mathlib.Data.List.Basic
import Mathlib.Tactic.Common

/-!
# Lexical resolution of paths

`fields` cuts a string at a separator and drops the empty parts.  `resolve` runs over the parts with
a stack: one name stands for the place itself, one for the place above, and every other is put on
the stack; going up from the bottom stays there.  `resolveMax` has a stack of limited depth and
fails as soon as one part too many is put on it, even when the path would lead back up.

Printing the parts with one separator between them and cutting again gives the parts back
(`fields_intercalate`).
-/

namespace CobjOs

open List

namespace LexicalPath

/-! ## Cutting at a separator -/

section Fields

variable {α : Type*} [DecidableEq α] {sep : α} {s t : List α} {cs : List (List α)}

/-- The non-empty parts of a string between the separators. -/
def fields (sep : α) (s : List α) : List (List α) := (s.splitOn sep).filter (· ≠ [])

@[simp] lemma fields_nil : fields sep [] = [] := by simp [fields]

lemma fields_append_cons (s t : List α) :
    fields sep (s ++ sep :: t) = fields sep s ++ fields sep t := by
  rw [fields, splitOn_append_cons_self, filter_append]
  rfl

/-- A leading separator does not count. -/
lemma fields_cons (t : List α) : fields sep (sep :: t) = fields sep t := by
  simpa using fields_append_cons ([] : List α) t

lemma fields_of_notMem (h : sep ∉ s) (hs : s ≠ []) : fields sep s = [s] := by
  rw [fields, splitOn_eq_singleton h]
  simp [hs]

/-- Parts that are printed with a separator between them are read back. -/
lemma fields_intercalate (hne : ∀ c ∈ cs, c ≠ []) (hsep : ∀ c ∈ cs, sep ∉ c) :
    fields sep ([sep].intercalate cs) = cs := by
  rcases eq_or_ne cs [] with rfl | hcs
  · simp [List.intercalate]
  · rw [fields, splitOn_intercalate sep hsep hcs]
    exact filter_eq_self.2 fun c hc => by simpa using hne c hc

lemma ne_nil_of_mem_fields {c : List α} (h : c ∈ fields sep s) : c ≠ [] := by
  simpa using (mem_filter.1 h).2

lemma notMem_of_mem_splitOn {c : List α} (h : c ∈ s.splitOn sep) : sep ∉ c := by
  induction s generalizing c with
  | nil =>
    obtain rfl : c = [] := by simpa using h
    exact not_mem_nil
  | cons x s ih =>
    obtain ⟨d, ds, hsplit⟩ := exists_cons_of_ne_nil (splitOn_ne_nil sep s)
    rw [splitOn_cons_eq_if_modifyHead, hsplit] at h
    rw [hsplit] at ih
    split_ifs at h with hx
    · -- a separator starts a new part
      rcases mem_cons.1 h with rfl | h
      · exact not_mem_nil
      · exact ih h
    · rcases mem_cons.1 h with rfl | h
      · have hne : sep ≠ x := fun heq => hx (by simp [heq])
        exact not_mem_cons_of_ne_of_not_mem hne (ih mem_cons_self)
      · exact ih (mem_cons_of_mem d h)

lemma notMem_of_mem_fields {c : List α} (h : c ∈ fields sep s) : sep ∉ c :=
  notMem_of_mem_splitOn (mem_filter.1 h).1

end Fields

/-! ## Running over the parts -/

section Resolve

variable {β γ : Type*} [DecidableEq β] [DecidableEq γ] {here up c : β} {st st' cs : List β}
  {depth : ℕ}

/-- One part on a stack with its top at the end. -/
def enter (here up : β) (st : List β) (c : β) : List β :=
  if c = here then st else if c = up then st.dropLast else st ++ [c]

/-- Where a list of parts leads from the bottom. -/
def resolve (here up : β) (cs : List β) : List β := cs.foldl (enter here up) []

/-- `enter` on a stack that holds no more than `depth` parts. -/
def enterMax (here up : β) (depth : ℕ) (st : List β) (c : β) : Option (List β) :=
  if c = here then some st
  else if c = up then some st.dropLast
  else if depth ≤ st.length then none
  else some (st ++ [c])

def resolveMax (here up : β) (depth : ℕ) (cs : List β) : Option (List β) :=
  cs.foldlM (enterMax here up depth) []

lemma enterMax_eq_some (h : enterMax here up depth st c = some st') :
    st' = enter here up st c ∧ (st.length ≤ depth → st'.length ≤ depth) := by
  unfold enterMax at h
  unfold enter
  split_ifs at h ⊢ with hhere hup hfull
  all_goals obtain rfl := Option.some.inj h
  · exact ⟨rfl, id⟩
  · exact ⟨rfl, fun hle => by rw [length_dropLast]; omega⟩
  · exact ⟨rfl, fun _ => by rw [length_append, length_singleton]; omega⟩

lemma foldlM_enterMax_eq_some (h : cs.foldlM (enterMax here up depth) st = some st') :
    st' = cs.foldl (enter here up) st ∧ (st.length ≤ depth → st'.length ≤ depth) := by
  induction cs generalizing st with
  | nil =>
    obtain rfl := Option.some.inj h
    exact ⟨rfl, id⟩
  | cons c cs ih =>
    rw [foldlM_cons, Option.bind_eq_bind, Option.bind_eq_some_iff] at h
    obtain ⟨st₁, hstep, hrest⟩ := h
    obtain ⟨rfl, hdepth⟩ := enterMax_eq_some hstep
    obtain ⟨rfl, hdepth'⟩ := ih hrest
    exact ⟨rfl, hdepth' ∘ hdepth⟩

/-- When the limit is not hit, the result is that without a limit. -/
lemma resolveMax_eq_some (h : resolveMax here up depth cs = some st) :
    st = resolve here up cs ∧ st.length ≤ depth := by
  obtain ⟨hst, hdepth⟩ := foldlM_enterMax_eq_some h
  exact ⟨hst, hdepth (Nat.zero_le _)⟩

lemma enterMax_of_length_le (h : (enter here up st c).length ≤ depth) :
    enterMax here up depth st c = some (enter here up st c) := by
  unfold enter at h
  unfold enter enterMax
  split_ifs at h ⊢ with hhere hup hfull
  · rfl
  · rfl
  · rw [length_append, length_singleton] at h
    omega
  · rfl

lemma foldlM_enterMax_of_length_le
    (h : ∀ k, ((cs.take k).foldl (enter here up) st).length ≤ depth) :
    cs.foldlM (enterMax here up depth) st = some (cs.foldl (enter here up) st) := by
  induction cs generalizing st with
  | nil => rfl
  | cons c cs ih =>
    have hstep : (enter here up st c).length ≤ depth := h 1
    rw [foldlM_cons, enterMax_of_length_le hstep]
    exact ih fun k => h (k + 1)

/-- When no part of the way is too deep, the limit is not hit. -/
lemma resolveMax_of_length_le (h : ∀ k, (resolve here up (cs.take k)).length ≤ depth) :
    resolveMax here up depth cs = some (resolve here up cs) :=
  foldlM_enterMax_of_length_le h

/-- What is on the stack was put there, so it is a part with a name of its own. -/
lemma mem_enter {x : β} (h : x ∈ enter here up st c) : x ∈ st ∨ x = c ∧ x ≠ here ∧ x ≠ up := by
  unfold enter at h
  split_ifs at h with hhere hup
  · exact .inl h
  · exact .inl (dropLast_subset st h)
  · rcases mem_append.1 h with h | h
    · exact .inl h
    · obtain rfl := mem_singleton.1 h
      exact .inr ⟨rfl, hhere, hup⟩

lemma mem_foldl_enter {x : β} (h : x ∈ cs.foldl (enter here up) st) :
    x ∈ st ∨ x ∈ cs ∧ x ≠ here ∧ x ≠ up := by
  induction cs generalizing st with
  | nil => exact .inl h
  | cons c cs ih =>
    rcases ih h with hst | ⟨hx, hname⟩
    · rcases mem_enter hst with hx | ⟨rfl, hname⟩
      · exact .inl hx
      · exact .inr ⟨mem_cons_self, hname⟩
    · exact .inr ⟨mem_cons_of_mem c hx, hname⟩

lemma mem_resolve {x : β} (h : x ∈ resolve here up cs) : x ∈ cs ∧ x ≠ here ∧ x ≠ up := by
  rcases mem_foldl_enter h with hx | hx
  · simp at hx
  · exact hx

/-- Names are put on the stack one after the other. -/
lemma foldlM_enterMax_names (hnames : ∀ x ∈ cs, x ≠ here ∧ x ≠ up)
    (hdepth : st.length + cs.length ≤ depth) :
    cs.foldlM (enterMax here up depth) st = some (st ++ cs) := by
  induction cs generalizing st with
  | nil => simp
  | cons c cs ih =>
    obtain ⟨hhere, hup⟩ := hnames c mem_cons_self
    rw [length_cons] at hdepth
    rw [foldlM_cons, enterMax, if_neg hhere, if_neg hup, if_neg (by omega)]
    have hlen : (st ++ [c]).length + cs.length ≤ depth := by
      rw [length_append, length_singleton]
      omega
    simpa using ih (fun x hx => hnames x (mem_cons_of_mem c hx)) hlen

/-! A map of the parts that keeps the two special ones apart from the others goes through. -/

variable {here' up' : γ} {f : β → γ}

lemma enterMax_map (hhere : f c = here' ↔ c = here) (hup : f c = up' ↔ c = up) :
    enterMax here' up' depth (st.map f) (f c) = (enterMax here up depth st c).map (·.map f) := by
  simp only [enterMax, hhere, hup, length_map]
  split_ifs <;> simp [map_dropLast]

lemma foldlM_enterMax_map (hhere : ∀ c ∈ cs, f c = here' ↔ c = here)
    (hup : ∀ c ∈ cs, f c = up' ↔ c = up) (st : List β) :
    (cs.map f).foldlM (enterMax here' up' depth) (st.map f) =
      (cs.foldlM (enterMax here up depth) st).map (·.map f) := by
  induction cs generalizing st with
  | nil => rfl
  | cons c cs ih =>
    rw [map_cons, foldlM_cons, foldlM_cons,
      enterMax_map (hhere c mem_cons_self) (hup c mem_cons_self)]
    cases enterMax here up depth st c with
    | none => rfl
    | some st₁ =>
      exact ih (fun x hx => hhere x (mem_cons_of_mem c hx))
        (fun x hx => hup x (mem_cons_of_mem c hx)) st₁

lemma resolveMax_map (hhere : ∀ c ∈ cs, f c = here' ↔ c = here)
    (hup : ∀ c ∈ cs, f c = up' ↔ c = up) :
    resolveMax here' up' depth (cs.map f) = (resolveMax here up depth cs).map (·.map f) :=
  foldlM_enterMax_map hhere hup []

end Resolve

end LexicalPath

end CobjOs
