import CobjOs.Fs.TarSpec
import CobjOs.Fs.VfsSpec

/-!
# The components of a path, and where they lead in the archive

`next_component` skips slashes and cuts after 255 bytes.  However the components of a path are
separated, the loop of `vfs_resolve` sees them one by one, a longer one in pieces
(`components_of_spelled`).  Walked from the root of the archive they lead to the entry of that
path (`descend_tar`); a piece of 255 bytes leads nowhere.
-/

namespace CobjOs

variable {c path r s : CStr}

open List Ustar

/-! ## Splitting -/

lemma length_of_nextComponent {out rest : CStr}
    (h : nextComponent path = some (out, rest)) : rest.length < path.length := by
  unfold nextComponent at h
  dsimp only at h
  split at h
  · cases h
  · next hne =>
    obtain ⟨rfl, rfl⟩ := Prod.mk.inj (Option.some.inj h)
    have hdrop := (dropWhile_suffix (l := path) (p := fun b => decide (b = slash))).length_le
    -- the first byte behind the slashes is taken
    have hhead : 0 < ((path.dropWhile fun b => decide (b = slash)).takeWhile
        fun b => decide (b ≠ slash)).length := by
      obtain ⟨b, t, hbt⟩ := exists_cons_of_ne_nil hne
      have hb : b ≠ slash := by
        have := head_dropWhile_not (fun b => decide (b = slash)) hne
        simpa [hbt] using this
      simp [hbt, takeWhile_cons, hb]
    have hlen := length_pos_iff.2 hne
    simp only [length_drop, length_take]
    omega

/-- The bound on the number of components is no restriction. -/
lemma componentsFrom_congr {m k : ℕ} (hm : path.length ≤ m) (hk : path.length ≤ k) :
    componentsFrom m path = componentsFrom k path := by
  induction m generalizing k path with
  | zero =>
    obtain rfl := length_eq_zero_iff.1 (Nat.le_zero.1 hm)
    cases k <;> rfl
  | succ m ih =>
    cases k with
    | zero =>
      obtain rfl := length_eq_zero_iff.1 (Nat.le_zero.1 hk)
      rfl
    | succ k =>
      cases hnext : nextComponent path with
      | none => simp only [componentsFrom, hnext]
      | some p =>
        have hlt := length_of_nextComponent hnext
        simp only [componentsFrom, hnext, ih (show p.2.length ≤ m by omega)
          (show p.2.length ≤ k by omega)]

lemma components_eq (path : CStr) : components path = match nextComponent path with
    | none => []
    | some (out, rest) => out :: components rest := by
  cases hnext : nextComponent path with
  | none =>
    unfold components
    cases path.length with
    | zero => rfl
    | succ k => simp only [componentsFrom, hnext]
  | some p =>
    have hlt := length_of_nextComponent hnext
    obtain ⟨k, hk⟩ : ∃ k, path.length = k + 1 := ⟨path.length - 1, by omega⟩
    rw [components, hk]
    simp only [componentsFrom, hnext, List.cons.injEq, true_and]
    exact componentsFrom_congr (by omega) le_rfl

lemma components_slash (path : CStr) : components (slash :: path) = components path := by
  rw [components_eq, components_eq path]
  simp [nextComponent]

lemma components_replicate (k : ℕ) (path : CStr) :
    components (replicate k slash ++ path) = components path := by
  induction k with
  | zero => rfl
  | succ k ih => rw [replicate_succ, cons_append, components_slash, ih]

/-- What the cut at 255 bytes makes of a component. -/
def pieces (c : CStr) : List CStr :=
  if c.length ≤ 255 then [c] else c.take 255 :: pieces (c.drop 255)
termination_by c.length
decreasing_by simp; omega

lemma IsName.take (h : IsName c) {k : ℕ} (hk : 0 < k) : IsName (c.take k) where
  ne_nil := by simpa [h.ne_nil] using hk.ne'
  nul hc := h.nul (mem_of_mem_take hc)
  sep hc := h.sep (mem_of_mem_take hc)

lemma IsName.drop (h : IsName c) {k : ℕ} (hk : k < c.length) : IsName (c.drop k) where
  ne_nil := by simpa using hk
  nul hc := h.nul (mem_of_mem_drop hc)
  sep hc := h.sep (mem_of_mem_drop hc)

lemma isName_of_mem_pieces {d : CStr} (h : IsName c) (hd : d ∈ pieces c) : IsName d := by
  fun_induction pieces c with
  | case1 c hle => rwa [mem_singleton.1 hd]
  | case2 c hle ih =>
    rcases mem_cons.1 hd with rfl | hd
    · exact h.take (by decide)
    · exact ih (h.drop (by omega)) hd

lemma nextComponent_name (hc : IsName c) (hs : s = [] ∨ ∃ t, s = slash :: t) :
    nextComponent (c ++ s) = some (c.take 255, c.drop 255 ++ s) := by
  obtain ⟨b, t, rfl⟩ := exists_cons_of_ne_nil hc.ne_nil
  have hb : b ≠ slash := fun h => hc.sep (by simp [h])
  have hdrop : (b :: t ++ s).dropWhile (fun b => decide (b = slash)) = b :: t ++ s := by simp [hb]
  have htake : (b :: t ++ s).takeWhile (fun b => decide (b ≠ slash)) = b :: t := by
    rw [takeWhile_append_of_pos]
    · rcases hs with rfl | ⟨u, rfl⟩ <;> simp
    · intro d hd
      simpa using fun h : d = slash => hc.sep (h ▸ hd)
  simp only [nextComponent, hdrop, htake]
  rw [if_neg (by simp), length_take, drop_append]
  rcases Nat.le_total 255 (b :: t).length with hle | hle
  · rw [Nat.min_eq_left hle, Nat.sub_eq_zero_of_le hle, List.drop_zero]
  · rw [Nat.min_eq_right hle, Nat.sub_self, List.drop_zero, drop_length,
      drop_of_length_le hle]

lemma components_name (hc : IsName c) (hs : s = [] ∨ ∃ t, s = slash :: t) :
    components (c ++ s) = pieces c ++ components s := by
  fun_induction pieces c with
  | case1 c hle =>
    rw [components_eq, nextComponent_name hc hs, take_of_length_le hle,
      drop_of_length_le hle]
    rfl
  | case2 c hle ih =>
    rw [components_eq, nextComponent_name hc hs]
    simp only [cons_append, List.cons.injEq, true_and]
    exact ih (hc.drop (by omega))

/-- The components separated by one slash or more, with any number of slashes in front and at
the end. -/
inductive Spelled : List CStr → CStr → Prop
  | nil (k : ℕ) : Spelled [] (replicate k slash)
  | cons (k : ℕ) {c : CStr} {cs : List CStr} {s : CStr} (hs : Spelled cs s)
      (hsep : s = [] ∨ ∃ t, s = slash :: t) : Spelled (c :: cs) (replicate k slash ++ (c ++ s))

lemma components_of_spelled {cs : List CStr} (h : Spelled cs s)
    (hcs : ∀ c ∈ cs, IsName c) : components s = cs.flatMap pieces := by
  induction h with
  | nil k =>
    rw [← append_nil (replicate k slash), components_replicate]
    rfl
  | cons k hs hsep ih =>
    rw [components_replicate, components_name (hcs _ (by simp)) hsep,
      ih fun c hc => hcs c (mem_cons_of_mem _ hc), flatMap_cons]

lemma parsePath_zero (s : CStr) : parsePath (cstr "0:/" ++ s) = some (0, slash :: s) := by
  have hpath : cstr "0:/" ++ s = 48 :: colon :: slash :: s := rfl
  have hdigits : (48 :: colon :: slash :: s).takeWhile (fun b => decide (b ≠ colon)) = [48] := rfl
  rw [hpath, parsePath, if_pos (by simp), hdigits]
  rfl

/-! ## The drive number -/

def Digits (s : CStr) : Prop := ∀ c ∈ s, 48 ≤ c ∧ c ≤ 57

instance (s : CStr) : Decidable (Digits s) := inferInstanceAs (Decidable (∀ _ ∈ _, _))

/-- The number that a string of digits writes. -/
def decimal (s : CStr) : ℕ := s.foldl (fun n c => n * 10 + (c.toNat - 48)) 0

/-- A number accumulated modulo `m` is the number modulo `m`. -/
lemma foldl_bmod {m : ℕ} : ∀ (s : CStr) (n : ℕ), Digits s →
    s.foldl (fun num c => (num * 10 + ((c.toNat : ℤ) - 48)).bmod m) ((n : ℤ).bmod m) =
      ((s.foldl (fun n c => n * 10 + (c.toNat - 48)) n : ℕ) : ℤ).bmod m
  | [], _, _ => rfl
  | c :: s, n, h => by
      have hc : 48 ≤ c.toNat := UInt8.le_iff_toNat_le.1 (h c (by simp)).1
      have hstep : ((n : ℤ).bmod m * 10 + ((c.toNat : ℤ) - 48)).bmod m =
          ((n * 10 + (c.toNat - 48) : ℕ) : ℤ).bmod m := by
        rw [← Int.bmod_add_bmod, Int.bmod_mul_bmod, Int.bmod_add_bmod]
        push_cast [Nat.cast_sub hc]
        rfl
      rw [foldl_cons, foldl_cons, hstep]
      exact foldl_bmod s _ fun c hc => h c (by simp [hc])

lemma Digits.colon_notMem (h : Digits s) : colon ∉ s :=
  fun hc => absurd (h colon hc).2 (by decide)

lemma takeWhile_colon (hs : colon ∉ s) :
    (s ++ colon :: r).takeWhile (fun b => decide (b ≠ colon)) = s := by
  rw [takeWhile_append_of_pos]
  · simp
  · intro b hb
    simpa using fun h : b = colon => hs (h ▸ hb)

/-- `parse_path` accepts digits, a colon and anything. -/
lemma parsePath_digits (h : Digits s) :
    parsePath (s ++ colon :: r) = some (toInt32 (decimal s), r) := by
  have hall : (s.all fun c => decide (48 ≤ c) && decide (c ≤ 57)) = true := by
    simpa [all_eq_true, Digits] using h
  have hnum := foldl_bmod (m := 2 ^ 32) s 0 h
  have hzero : ((0 : ℕ) : ℤ).bmod (2 ^ 32) = 0 := rfl
  rw [hzero] at hnum
  unfold toInt32
  rw [parsePath, if_pos (by simp)]
  dsimp only
  rw [takeWhile_colon h.colon_notMem, if_pos hall, hnum]
  simp [decimal]

lemma exists_of_parsePath {rel : CStr} {num : ℤ} (h : parsePath path = some (num, rel)) :
    ∃ s, Digits s ∧ path = s ++ colon :: rel := by
  unfold parsePath at h
  split_ifs at h with hcolon
  obtain ⟨s, r, rfl, hs⟩ := eq_append_cons_of_mem hcolon
  dsimp only at h
  rw [takeWhile_colon hs] at h
  split_ifs at h with hall
  obtain ⟨-, rfl⟩ := Prod.mk.inj (Option.some.inj h)
  refine ⟨s, ?_, by simp⟩
  simpa [all_eq_true, Digits] using hall

/-! ## The archive -/

lemma length_le_join {p : List CStr} (h : c ∈ p) : c.length ≤ (join p).length := by
  induction p with
  | nil => cases h
  | cons d p ih =>
    cases p with
    | nil => rw [mem_singleton.1 h, join_singleton]
    | cons e p =>
      rw [join_cons_cons, length_append, length_cons]
      rcases mem_cons.1 h with rfl | h
      · omega
      · have := ih h
        omega

variable {a : Archive}

/-- No entry has a component of more than 98 bytes. -/
lemma find_eq_none_of_long {p : List CStr} (hc : c ∈ p) (hlen : 98 < c.length) :
    a.find p = none := by
  by_contra hsome
  obtain ⟨x, hx⟩ := Option.ne_none_iff_exists'.1 hsome
  have hpath := x.2.path_length
  rw [Archive.path_of_find hx] at hpath
  have := length_le_join hc
  omega

lemma find_pieces (cs : List CStr) : a.find (cs.flatMap pieces) = a.find cs := by
  by_cases hlong : ∃ c ∈ cs, 255 < c.length
  · obtain ⟨c, hc, hlen⟩ := hlong
    have hpiece : c.take 255 ∈ cs.flatMap pieces := by
      refine mem_flatMap.2 ⟨c, hc, ?_⟩
      rw [pieces, if_neg (by omega)]
      exact mem_cons_self
    rw [find_eq_none_of_long hpiece (by rw [length_take]; omega),
      find_eq_none_of_long hc (by omega)]
  · congr 1
    have hshort : ∀ c ∈ cs, pieces c = [c] := by
      intro c hc
      rw [pieces, if_pos (not_lt.1 fun h => hlong ⟨c, hc, h⟩)]
    rw [flatMap_congr hshort]
    simp

/-- The node of an entry. -/
def entryNode (x : ℕ × Entry) : FsNode := tarfsMakeNode (tarHeader x)

lemma entryNode_eq (x : ℕ × Entry) : entryNode x =
    { type := if x.2.isDir then .dir else .file, ops := .tarfs, data := some x.1,
      size := x.2.content.length, refcount := 1 } := by
  have htype : (tarHeader x).nodeType = if x.2.isDir then .dir else .file := by
    by_cases hdir : x.2.isDir = true
    · rw [if_pos hdir, Tar.Header.nodeType, if_pos]
      exact x.2.flag_dir.2 hdir
    · rw [if_neg hdir, Tar.Header.nodeType, if_neg]
      exact fun h => hdir (x.2.flag_dir.1 h)
  rw [entryNode, tarfsMakeNode, htype]
  rfl

/-- Components below a directory of the archive lead to the entry of the path.  By induction on
the components: each lookup finds an entry, and only a directory is looked into. -/
lemma descend_tar {fs : Fs} (htar : fs.tar = a.bytes) {nd : FsNode} {dir : Option ℕ}
    {P names : List CStr} (hdir : DirAt a dir P) (htype : nd.type = .dir) (hops : nd.ops = .tarfs)
    (hdata : nd.data = dir) (hnames : ∀ c ∈ names, IsName c) (hne : names ≠ []) :
    fs.descend nd names = (a.find (P ++ names)).map entryNode := by
  induction names generalizing nd dir P with
  | nil => exact absurd rfl hne
  | cons name names ih =>
    have hchild : fs.child nd name = (a.find (P ++ [name])).map entryNode := by
      rw [Fs.child, hops, htar, hdata]
      dsimp only
      rw [tarfsLookup_bytes hdir (hnames name (by simp)), Option.map_map]
      rfl
    have happ : P ++ name :: names = P ++ [name] ++ names := by simp
    rw [Fs.descend_cons htype, hchild, happ]
    cases hfind : a.find (P ++ [name]) with
    | none => rw [Archive.find_append_of_none hfind (by simp)]; rfl
    | some x =>
      rw [Option.map_some, Option.bind_some]
      rcases eq_or_ne names [] with rfl | hrest
      · rw [append_nil, hfind]
        rfl
      · obtain ⟨hmem, hpath⟩ := Archive.find_eq_some_iff.1 hfind
        by_cases hd : x.2.isDir = true
        · have hat : DirAt a (some x.1) (P ++ [name]) := hpath ▸ .entry hmem hd
          exact ih hat (by simp [entryNode_eq, hd]) rfl rfl
            (fun c hc => hnames c (mem_cons_of_mem name hc)) hrest
        · rw [Archive.find_append_of_file hfind (by simpa using hd) (by simp) hrest]
          obtain ⟨c, cs, rfl⟩ := exists_cons_of_ne_nil hrest
          exact Fs.descend_cons_of_ne (by simp [entryNode_eq, hd]) c cs

end CobjOs
