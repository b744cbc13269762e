import CobjOs.User.Path

/-!
# What a joined path is

`join` goes over the components of the working directory and of the input with a stack.  What it
is for is the path that lexical resolution gives, `normalPath`: `.` stays, `..` goes up but not
above the root, and every component is written in full.

The first half cuts components to 63 bytes, and cutting goes through the resolution
(`pushComps_eq`).  The second half cuts the text at the end of the buffer and returns zero.  So
`join` computes the normal form where neither cut takes anything away.  The path that comes out is
read back as the components it was printed from (`pushComps_printed`), so joining twice is joining
once.
-/

namespace CobjOs

open List

namespace User

open LexicalPath

variable {size : UInt64} {drive rest input a b r : CStr} {comps : List CStr}

/-- The components of the path that `input` names from the directory `rest` of a drive. -/
def normalComps (rest input : CStr) : List CStr :=
  resolve (cstr ".") (cstr "..") (joinParts rest input)

/-- The path that `input` names from the directory `rest` of a drive. -/
def normalPath (drive rest input : CStr) : CStr := fullPath drive (normalComps rest input)

/-! ## Cut components -/

/-- Cutting does not make a component one of the short ones. -/
lemma cut_eq_iff {c s : CStr} (hs : s.length < tokMax) : cut c = s ↔ c = s := by
  constructor
  · rintro rfl
    rw [length_cut] at hs
    exact (take_of_length_le (by omega)).symm
  · rintro rfl
    exact take_of_length_le hs.le

lemma pushComps_eq (cs : List CStr) : pushComps [] cs =
    (resolveMax (cstr ".") (cstr "..") compsMax cs).map (·.map cut) :=
  resolveMax_map (fun _ _ => cut_eq_iff (by decide)) (fun _ _ => cut_eq_iff (by decide))

lemma map_cut (h : ∀ c ∈ comps, c.length ≤ tokMax) : comps.map cut = comps :=
  (map_congr_left fun c hc => take_of_length_le (h c hc)).trans (map_id comps)

/-! ## The normal form -/

/-- The components on the stack are read back from the path that is printed of them. -/
lemma pushComps_printed {cs : List CStr} (h : pushComps [] cs = some comps)
    (hparts : ∀ c ∈ cs, c ≠ [] ∧ slash ∉ c) :
    fields slash (slash :: [slash].intercalate comps) = comps ∧
      pushComps [] comps = some comps := by
  obtain ⟨rfl, hdepth⟩ := resolveMax_eq_some h
  have hmem : ∀ c ∈ resolve (cstr ".") (cstr "..") (cs.map cut),
      (∃ d ∈ cs, cut d = c) ∧ c ≠ cstr "." ∧ c ≠ cstr ".." := fun c hc =>
    ⟨mem_map.1 (mem_resolve hc).1, (mem_resolve hc).2⟩
  constructor
  · rw [fields_cons]
    refine fields_intercalate (fun c hc => ?_) fun c hc => ?_
    all_goals obtain ⟨⟨d, hd, rfl⟩, -⟩ := hmem c hc
    · exact cut_ne_nil (hparts d hd).1
    · exact fun hslash => (hparts d hd).2 (mem_of_mem_take hslash)
  · have hcut := map_cut (length_of_pushComps h)
    rw [pushComps, hcut]
    exact foldlM_enterMax_names (fun c hc => (hmem c hc).2) (by simpa using hdepth)

lemma mem_joinParts {c : CStr} (h : c ∈ joinParts rest input) : c ≠ [] ∧ slash ∉ c := by
  rw [joinParts] at h
  rcases mem_append.1 h with h | h
  · split_ifs at h
    · exact ⟨ne_nil_of_mem_fields h, notMem_of_mem_fields h⟩
    · exact absurd h not_mem_nil
  · exact ⟨ne_nil_of_mem_fields h, notMem_of_mem_fields h⟩

lemma joinParts_append (ha : a ≠ []) (b : CStr) :
    joinParts rest (a ++ slash :: b) = joinParts rest a ++ fields slash b := by
  obtain ⟨c, a, rfl⟩ := exists_cons_of_ne_nil ha
  have hfirst : charAt (c :: a ++ slash :: b) 0 = charAt (c :: a) 0 := rfl
  rw [joinParts, joinParts, hfirst, fields_append_cons, append_assoc]

/-- Let `join` of `a` give `r`, not cut at the end of the buffer.  Then joining `b` to `r` is
joining `a ++ "/" ++ b`, with the same return value and the same path, and `.` is neutral.  A
component of more than 63 bytes is cut on both sides alike, so nothing is asked of the lengths. -/
theorem join_composes (drive rest : CStr) (hdrive : drive.length ≤ 6) (hcolon : colon ∉ drive)
    (ha : a ≠ []) (hac : colon ∉ a) (hbc : colon ∉ b) (hb : charAt b 0 ≠ slash)
    (hjoin : join size (drive ++ colon :: rest) a = .ok (some r))
    (hwhole : (fullPath drive ((normalComps rest a).map cut)).length < size.toNat) :
    join size r b = join size (drive ++ colon :: rest) (a ++ slash :: b) ∧
    join size r (cstr ".") = .ok (some r) := by
  have hsize : 0 < size.toNat := by omega
  rw [join_eq hsize hdrive hcolon hac] at hjoin
  obtain ⟨comps, hcomps, hr⟩ := Option.map_eq_some_iff.1 (Except.ok.inj hjoin)
  -- the path is whole
  obtain rfl : fullPath drive comps = r := by
    rw [pushComps_eq] at hcomps
    obtain ⟨st, hst, rfl⟩ := Option.map_eq_some_iff.1 hcomps
    obtain ⟨rfl, -⟩ := resolveMax_eq_some hst
    rw [← hr]
    exact (take_of_length_le (Nat.le_sub_one_of_lt hwhole)).symm
  obtain ⟨hfields, hagain⟩ := pushComps_printed hcomps fun c hc => mem_joinParts hc
  have hparts : ∀ s, charAt s 0 ≠ slash →
      pushComps [] (joinParts (slash :: [slash].intercalate comps) s) =
        pushComps comps (fields slash s) := by
    intro s hs
    rw [joinParts, if_pos hs, pushComps_append, hfields, hagain]
    rfl
  have habc : colon ∉ a ++ slash :: b := by
    simp [hac, hbc, show colon ≠ slash by decide]
  constructor
  · rw [fullPath, join_eq hsize hdrive hcolon hbc, join_eq hsize hdrive hcolon habc, hparts b hb,
      joinParts_append ha, pushComps_append, hcomps]
    rfl
  · have hdot : pushComps comps (fields slash (cstr ".")) = some comps := rfl
    rw [fullPath, join_eq hsize hdrive hcolon (by decide), hparts _ (by decide), hdot]
    exact congrArg (fun p => Except.ok (some p)) hr

theorem join_composes_relative :
    join 256 (cstr "0:/usr/lib") (cstr "../bin") =
      join 256 (cstr "0:/") (cstr "usr/lib" ++ slash :: cstr "../bin") ∧
    join 256 (cstr "0:/usr/lib") (cstr ".") = .ok (some (cstr "0:/usr/lib")) :=
  join_composes (cstr "0") (cstr "/") (by decide) (by decide) (by decide)
    (by decide) (by decide) (by decide) (by decide +kernel) (by decide)

end User

end CobjOs
