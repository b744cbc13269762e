import CobjOs.Fs.Tar
import CobjOs.Framework.Ustar

/-!
# The archive walk on a ustar archive

On the bytes of a ustar archive the kernel's loop passes exactly the headers of its entries
(`headers_bytes`), and `tarfs_lookup` in a directory finds the entry whose path is the
directory's path with the name behind it (`tarfsLookup_bytes`).

`tarfs_readdir` compares a directory's path with the beginning of the names.  It lists the
entries of the directory (`tarfsDirent_entry`), and of the other names at most those that go on
behind the path with another character than a slash (`path_of_tarfsDirent`).
-/

namespace CobjOs

open List Ustar

/-- What the loop reads of an entry at an offset. -/
def tarHeader (x : ℕ × Entry) : Tar.Header :=
  { offset := x.1, name := x.2.name, size := x.2.content.length, type := x.2.flag }

lemma sep_eq_slash : sep = slash := rfl

section Walk

variable {pre t : List UInt8} {e : Entry}

lemma parseOctal_octal {n : ℕ} (hn : n < 8 ^ 11) {b : UInt8} (hb : ¬IsOctal b) (t : List UInt8) :
    Tar.parseOctal (octal 11 n ++ b :: t) 12 = n := by
  have htake : (octal 11 n ++ b :: t).take 12 = octal 11 n ++ [b] := by
    rw [take_append, octal_length, take_of_length_le (by simp [octal_length])]
    rfl
  have hpos : ∀ c ∈ octal 11 n, (decide (48 ≤ c) && decide (c ≤ 55)) = true := by
    intro c hc
    simpa [IsOctal] using isOctal_of_mem hc
  have hneg : (decide (48 ≤ b) && decide (b ≤ 55)) = false := by
    simpa [IsOctal, imp_iff_not_or] using hb
  rw [Tar.parseOctal, htake, takeWhile_append_of_pos hpos, takeWhile_cons, hneg]
  simp only [Bool.false_eq_true, if_false, append_nil]
  rw [foldl_octal, Nat.mod_eq_of_lt hn]

lemma headerAt_entry : Tar.headerAt (pre ++ (e.bytes ++ t)) pre.length =
    tarHeader (pre.length, e) := by
  have hname : ((pre ++ (e.bytes ++ t)).drop pre.length).takeWhile (fun b => decide (b ≠ 0)) =
      e.name := by
    rw [drop_left, Entry.bytes, append_assoc, e.takeWhile_header]
  have hsize : (pre ++ (e.bytes ++ t)).drop (pre.length + 124) =
      octal 11 e.content.length ++ (e.stop :: (e.stamp ++ (e.flag :: e.rest)) ++
        (e.content ++ replicate (e.blocks * 512 - e.content.length) 0 ++ t)) := by
    rw [← drop_drop, drop_left, Entry.bytes, append_assoc,
      drop_append_of_le_length (by simp [e.header_length]), e.drop_size, append_assoc]
  have htype : (pre ++ (e.bytes ++ t)).getD (pre.length + 156) 0 = e.flag := by
    rw [← e.getD_flag, Entry.bytes]
    simp [getD_eq_getElem?_getD, getElem?_append, e.header_length]
  rw [Tar.headerAt, hname, hsize, htype, cons_append,
    parseOctal_octal e.size_lt e.stop_octal]
  rfl

/-- The loop ends at the zero blocks. -/
lemma walk_zeros (z fuel : ℕ) :
    Tar.walk (pre ++ replicate (z * 512) 0) fuel pre.length = [] := by
  cases fuel with
  | zero => rfl
  | succ fuel =>
    rw [Tar.walk]
    split
    · next hle =>
      obtain ⟨k, hk⟩ : ∃ k, z * 512 = k + 1 := by
        simp only [length_append, length_replicate] at hle
        exact ⟨z * 512 - 1, by omega⟩
      simp [Tar.headerAt, hk, replicate_succ]
    · rfl

lemma walk_entries (z : ℕ) (es : List Entry) (pre : List UInt8) (fuel : ℕ)
    (hfuel : es.length < fuel) :
    Tar.walk (pre ++ (es.flatMap Entry.bytes ++ replicate (z * 512) 0)) fuel pre.length =
      (place pre.length es).map tarHeader := by
  induction es generalizing pre fuel with
  | nil => simpa [place] using walk_zeros z fuel
  | cons e es ih =>
    obtain ⟨fuel, rfl⟩ : ∃ f, fuel = f + 1 := ⟨fuel - 1, by simp at hfuel; omega⟩
    have hbytes := e.bytes_length
    have hrest := ih (pre ++ e.bytes) fuel (by simp at hfuel; omega)
    simp only [append_assoc, length_append] at hrest
    rw [flatMap_cons, append_assoc, Tar.walk, if_pos (by simp; omega), headerAt_entry]
    simp only [tarHeader, e.name_ne, if_false, place, map_cons, List.cons.injEq, true_and]
    have hnext : pre.length + 512 + (e.content.length + 511) / 512 * 512 =
        pre.length + e.bytes.length := by
      rw [hbytes, Entry.blocks]
      omega
    rw [hnext, hrest]

end Walk

lemma length_flatMap_bytes (es : List Entry) :
    es.length * 512 ≤ (es.flatMap Entry.bytes).length := by
  induction es with
  | nil => simp
  | cons e es ih =>
    have hlen : 512 ≤ e.bytes.length := by rw [e.bytes_length]; exact Nat.le_add_right _ _
    rw [flatMap_cons, length_append, length_cons, Nat.succ_mul, Nat.add_comm]
    exact Nat.add_le_add hlen ih

lemma headers_bytes (a : Archive) : Tar.headers a.bytes = a.placed.map tarHeader := by
  have hcount : a.entries.length ≤ a.bytes.length / 512 := by
    rw [Nat.le_div_iff_mul_le (by decide), Archive.bytes, length_append]
    exact (length_flatMap_bytes a.entries).trans (Nat.le_add_right _ _)
  exact walk_entries a.zeros a.entries [] _ (by omega)

lemma headerAt_place (t : List UInt8) (es : List Entry) (pre : List UInt8) {x : ℕ × Entry}
    (hx : x ∈ place pre.length es) :
    Tar.headerAt (pre ++ (es.flatMap Entry.bytes ++ t)) x.1 = tarHeader x := by
  induction es generalizing pre with
  | nil => cases hx
  | cons e es ih =>
    rw [flatMap_cons, append_assoc]
    rcases mem_cons.1 hx with rfl | hx
    · exact headerAt_entry
    · have hrest := ih (pre ++ e.bytes) (by simpa using hx)
      simpa only [append_assoc] using hrest

/-! ## Lookup -/

variable {a : Archive} {x : ℕ × Entry} {dir : Option ℕ} {P : List CStr} {n : CStr} {e : Entry}

lemma headerAt_placed (hx : x ∈ a.placed) : Tar.headerAt a.bytes x.1 = tarHeader x :=
  headerAt_place _ a.entries [] hx

/-- A component of a path as the splitter delivers it. -/
structure IsName (n : CStr) : Prop where
  ne_nil : n ≠ []
  nul : 0 ∉ n
  sep : slash ∉ n

/-- The `data` field of a directory's node, and its path: the root has no header. -/
inductive DirAt (a : Archive) : Option ℕ → List CStr → Prop
  | root : DirAt a none []
  | entry {x : ℕ × Entry} : x ∈ a.placed → x.2.isDir = true → DirAt a (some x.1) x.2.path

lemma stripSlash_append (s : CStr) : stripSlash (s ++ [slash]) = s := by simp [stripSlash]

lemma stripSlash_of_ne {s : CStr} (h : ∀ t, s ≠ t ++ [slash]) : stripSlash s = s := by
  rw [stripSlash, if_neg]
  intro hlast
  obtain ⟨t, ht⟩ := getLast?_eq_some_iff.1 hlast
  exact h t ht

lemma stripSlash_name : stripSlash e.name = join e.path := by
  rw [Entry.name]
  by_cases ht : e.trailing = true
  · rw [e.parts_of_trailing ht, join_concat_nil e.path_ne]
    exact stripSlash_append _
  · rw [e.parts_of_not_trailing ht]
    exact stripSlash_of_ne (join_ne_append_sep e.path_ne e.comp_sep e.comp_ne)

lemma DirAt.comps (h : DirAt a dir P) : Parts P ∧ ∀ c ∈ P, c ≠ [] := by
  cases h with
  | root => simp [Parts]
  | entry => exact ⟨Entry.comp_sep _, Entry.comp_ne _⟩

lemma DirAt.dirname (h : DirAt a dir P) : (tarfsDirname a.bytes dir).getD [] = join P := by
  cases h with
  | root => rfl
  | entry hx =>
    rw [tarfsDirname, Option.map_some, headerAt_placed hx]
    exact stripSlash_name

/-- `fullpath` holds the path of the entry looked for, or the part of it that fits. -/
lemma DirAt.fullpath (h : DirAt a dir P) :
    tarfsFullpath a.bytes dir n = join (P ++ [n]) ∨
      99 < (tarfsFullpath a.bytes dir n).length ∧ 98 < (join (P ++ [n])).length := by
  have hcut : ∀ (s : CStr) (k : ℕ), 99 < k →
      s.take k = s ∨ 99 < (s.take k).length ∧ 98 < s.length := by
    intro s k hk
    by_cases hs : s.length ≤ k
    · exact .inl (take_of_length_le hs)
    · refine .inr ⟨?_, by omega⟩
      rw [length_take]
      omega
  cases h with
  | root => simpa [tarfsFullpath, tarfsDirname] using hcut n 256 (by decide)
  | @entry x hx =>
    have hjoin : join (x.2.path ++ [n]) = join x.2.path ++ [slash] ++ n := by
      rw [join_append x.2.path_ne (by simp), join_singleton]
      simp [sep_eq_slash]
    simp only [tarfsFullpath, tarfsDirname, Option.map_some, headerAt_placed hx, hjoin]
    rw [show (tarHeader x).name = x.2.name from rfl, stripSlash_name]
    exact hcut _ 255 (by decide)

/-- The two ways to match: the very name, or for a directory the name without its slash. -/
lemma tarfsMatches_iff {full : CStr} {hdr : Tar.Header} (hnul : 0 ∉ hdr.name) :
    tarfsMatches full hdr = true ↔
      hdr.name = full ∨ hdr.type = dirFlag ∧ hdr.name = full ++ [slash] := by
  have hslash : (strncmpEq hdr.name full full.length = true ∧
      charAt hdr.name full.length = slash ∧ charAt hdr.name (full.length + 1) = 0) ↔
      hdr.name = full ++ [slash] := by
    constructor
    · rintro ⟨htake, hlast, hend⟩
      have hpre : hdr.name.take full.length = full := by simpa [strncmpEq] using htake
      obtain ⟨t, ht⟩ : ∃ t, hdr.name = full ++ t :=
        ⟨_, by rw [← take_append_drop full.length hdr.name, hpre]⟩
      rw [ht] at hlast hend hnul ⊢
      match t with
      | [] => simp [charAt, slash] at hlast
      | [b] => simpa [charAt] using hlast
      | b :: c :: t =>
        have hc : c = 0 := by
          simpa [charAt, getD_eq_getElem?_getD, getElem?_append] using hend
        simp [hc] at hnul
    · intro h
      simp [h, strncmpEq, charAt]
  rw [← hslash]
  simp [tarfsMatches, dirFlag, and_assoc]

lemma tarfsMatches_entry (h : DirAt a dir P) (hn : IsName n) :
    tarfsMatches (tarfsFullpath a.bytes dir n) (tarHeader x) = true ↔ x.2.path = P ++ [n] := by
  obtain ⟨hP, hPne⟩ := h.comps
  have hQ : Parts (P ++ [n]) := hP.append fun c hc => by
    rw [mem_singleton.1 hc]
    exact hn.sep
  have hQne : ∀ c ∈ P ++ [n], c ≠ [] := by
    simpa [or_imp, forall_and, hn.ne_nil] using fun c hc => hPne c hc
  rw [tarfsMatches_iff x.2.name_nul]
  rcases h.fullpath (n := n) with hfull | ⟨hlong, hpath⟩
  · rw [hfull]
    have hname : (tarHeader x).name = join x.2.parts := rfl
    constructor
    · rintro (heq | ⟨-, heq⟩)
      · have hparts := join_injective x.2.parts_ne (by simp) x.2.parts_parts hQ (hname ▸ heq)
        by_cases ht : x.2.trailing = true
        · rw [x.2.parts_of_trailing ht] at hparts
          exact absurd (append_inj' hparts rfl).2 (by simpa using Ne.symm hn.ne_nil)
        · rwa [x.2.parts_of_not_trailing ht] at hparts
      · have hstrip := congrArg stripSlash heq
        rw [stripSlash_append] at hstrip
        refine join_injective x.2.path_ne (by simp) x.2.comp_sep hQ ?_
        rw [← hstrip]
        exact stripSlash_name.symm
    · intro hpath
      by_cases ht : x.2.trailing = true
      · refine .inr ⟨x.2.flag_dir.2 (x.2.trailing_dir ht), ?_⟩
        rw [hname, x.2.parts_of_trailing ht, hpath, join_concat_nil (by simp)]
        rfl
      · left
        rw [hname, x.2.parts_of_not_trailing ht, hpath]
  · have hle : (tarHeader x).name.length ≤ 99 := x.2.name_length
    refine iff_of_false ?_ ?_
    · rintro (heq | ⟨-, heq⟩)
      · rw [heq] at hle
        omega
      · rw [heq, length_append] at hle
        omega
    · intro heq
      have := x.2.path_length
      rw [heq] at this
      omega

lemma tarfsLookup_bytes (h : DirAt a dir P) (hn : IsName n) :
    tarfsLookup a.bytes dir n = (a.find (P ++ [n])).map tarHeader := by
  rw [tarfsLookup, headers_bytes, find?_map, Archive.find]
  congr 2
  funext x
  rw [Bool.eq_iff_iff]
  simpa using tarfsMatches_entry h hn

/-! ## Listing -/

section Listing

variable {S : List CStr}

/-- The rest of a name is what the parts behind the directory's path spell. -/
lemma tarfsRelative_parts (hS : S ≠ []) (h : e.parts = P ++ S) :
    tarfsRelative (join P) e.name = some (join S) := by
  rcases eq_or_ne P [] with rfl | hP
  · -- below the root nothing is cut off, and a name starts with a component
    have hname : e.name = join S := by rw [Entry.name, h, nil_append]
    have hhead : charAt e.name 0 ≠ slash := by
      obtain ⟨c, p, hp⟩ := exists_cons_of_ne_nil e.path_ne
      have hc : c ≠ [] := e.comp_ne c (by simp [hp])
      obtain ⟨b, c, rfl⟩ := exists_cons_of_ne_nil hc
      have hb : b ≠ slash := fun hb => e.comp_sep (b :: c) (by simp [hp]) (by simp [hb, sep_eq_slash])
      obtain ⟨t, ht⟩ : ∃ t, e.name = b :: t := by
        rw [Entry.name, Entry.parts, hp, cons_append]
        cases p ++ if e.trailing = true then [[]] else [] with
        | nil => exact ⟨c, by simp⟩
        | cons d q => exact ⟨_, by rw [join_cons_cons, cons_append]⟩
      simpa [charAt, ht] using hb
    simp [tarfsRelative, hhead, hname ▸ hhead, hname]
  · have hname : e.name = join P ++ slash :: join S := by rw [Entry.name, h, join_append hP hS]; rfl
    simp [tarfsRelative, hname, strncmpEq, charAt]

/-- Conversely, a rest that starts behind a slash is spelled by the parts that follow. -/
lemma parts_of_tarfsRelative (hP : Parts P) {rel : CStr}
    (h : tarfsRelative (join P) e.name = some rel) (hrel : rel ≠ [])
    (hext : P ≠ [] → ∀ c t, e.name = join P ++ c :: t → c = slash) :
    ∃ S, S ≠ [] ∧ e.parts = P ++ S := by
  rcases eq_or_ne P [] with rfl | hne
  · exact ⟨e.parts, e.parts_ne, rfl⟩
  · have hpre : ∃ t, e.name = join P ++ t := by
      simp only [tarfsRelative] at h
      split at h
      · next hc =>
        rcases Bool.or_eq_true _ _ ▸ hc with hlen | hcmp
        · exact ⟨e.name, by simpa using hlen⟩
        · refine ⟨e.name.drop (join P).length, ?_⟩
          have htake : e.name.take (join P).length = join P := by simpa [strncmpEq] using hcmp
          conv_lhs => rw [← take_append_drop (join P).length e.name, htake]
      · cases h
    obtain ⟨t, ht⟩ := hpre
    cases t with
    | nil =>
      -- the directory itself, which has no rest
      simp [tarfsRelative, ht, strncmpEq, charAt, slash] at h
      exact absurd h hrel
    | cons c u =>
      obtain rfl := hext hne c u ht
      obtain ⟨S, hS, hSs, rfl⟩ := exists_join u
      refine ⟨S, hS, join_injective e.parts_ne (by simp [hS]) e.parts_parts (hP.append hSs) ?_⟩
      rw [join_append hne hS]
      exact ht

/-- A single component, with or without a slash behind it. -/
lemma tarfsListed_join (hS : S ≠ []) (hSs : Parts S) (h : tarfsListed (join S) = true) :
    ∃ n, S = [n] ∨ S = [n, []] := by
  match S with
  | [n] => exact ⟨n, .inl rfl⟩
  | n :: c :: S =>
    have hn : slash ∉ n := hSs n (by simp)
    have hidx : (join (n :: c :: S)).idxOf slash = n.length := by
      rw [join_cons_cons, idxOf_append_of_notMem hn]
      simp [sep_eq_slash]
    have hlen : (join (n :: c :: S)).length = n.length + 1 + (join (c :: S)).length := by
      rw [join_cons_cons]
      simp
      omega
    have hmem : slash ∈ join (n :: c :: S) := by simp [join_cons_cons, sep_eq_slash]
    have hend : (join (c :: S)).length = 0 := by
      simp only [tarfsListed, hmem, not_true_eq_false, decide_false, Bool.false_or,
        Bool.and_eq_true, decide_eq_true_eq, hidx, hlen] at h
      omega
    have hnil : c :: S = [[]] := by
      refine join_injective (by simp) (by simp) (fun d hd => hSs d ?_) (by simp [Parts]) ?_
      · exact mem_cons_of_mem n hd
      · simpa using hend
    exact ⟨n, .inr (by rw [hnil])⟩

/-- The entries of a directory are listed under their own names. -/
lemma tarfsDirent_entry (h : x.2.path = P ++ [n]) :
    tarfsDirent (join P) (tarHeader x) = some
      { name := n, type := (tarHeader x).nodeType, size := (tarHeader x).size } := by
  have hnmem : n ∈ x.2.path := by simp [h]
  have hn : n ≠ [] := x.2.comp_ne n hnmem
  have hns : slash ∉ n := x.2.comp_sep n hnmem
  have hlen : n.length ≤ 99 := by
    have hpath := x.2.path_length
    rw [h] at hpath
    rcases eq_or_ne P [] with rfl | hP
    · simp at hpath
      omega
    · rw [join_append hP (by simp), join_singleton] at hpath
      simp at hpath
      omega
  -- the parts behind `P`, what is listed of them and the name that is made of them
  obtain ⟨S, hS, hparts, hlisted, hstrip⟩ : ∃ S, S ≠ [] ∧ x.2.parts = P ++ S ∧
      tarfsListed (join S) = true ∧ stripSlash (join S) = n := by
    by_cases ht : x.2.trailing = true
    · refine ⟨[n, []], by simp, by rw [x.2.parts_of_trailing ht, h]; simp, ?_, ?_⟩
      · simp [join_cons_cons, sep_eq_slash, tarfsListed, idxOf_append_of_notMem hns]
      · simpa [join_cons_cons, sep_eq_slash] using stripSlash_append n
    · refine ⟨[n], by simp, by rw [x.2.parts_of_not_trailing ht, h], ?_, ?_⟩
      · simp [tarfsListed, hn, hns]
      · rw [join_singleton]
        exact stripSlash_of_ne fun t ht => hns (by simp [ht])
  have hrel : tarfsRelative (join P) (tarHeader x).name = some (join S) :=
    tarfsRelative_parts hS hparts
  rw [tarfsDirent, hrel, Option.bind_some, if_pos hlisted, hstrip, take_of_length_le hlen]

/-- What is listed is an entry of the directory, unless its name goes on behind the directory's
path with another character than a slash. -/
lemma path_of_tarfsDirent (hP : Parts P) {ent : Dirent}
    (h : tarfsDirent (join P) (tarHeader x) = some ent)
    (hext : P ≠ [] → ∀ c t, x.2.name = join P ++ c :: t → c = slash) :
    ∃ n, x.2.path = P ++ [n] := by
  obtain ⟨rel, hrel, hent⟩ := Option.bind_eq_some_iff.1 h
  have hlisted : tarfsListed rel = true := by
    by_contra hno
    rw [if_neg hno] at hent
    cases hent
  have hne : rel ≠ [] := by
    rintro rfl
    simp [tarfsListed] at hlisted
  obtain ⟨S, hS, hparts⟩ := parts_of_tarfsRelative hP hrel hne hext
  obtain rfl : join S = rel := Option.some.inj ((tarfsRelative_parts hS hparts).symm.trans hrel)
  have hSs : Parts S := Parts.of_append_right (hparts ▸ x.2.parts_parts)
  obtain ⟨n, rfl | rfl⟩ := tarfsListed_join hS hSs hlisted
  · by_cases ht : x.2.trailing = true
    · rw [x.2.parts_of_trailing ht] at hparts
      obtain ⟨-, hn⟩ := append_inj' hparts rfl
      simp [← singleton_inj.1 hn] at hne
    · exact ⟨n, by rw [← hparts, x.2.parts_of_not_trailing ht]⟩
  · by_cases ht : x.2.trailing = true
    · rw [x.2.parts_of_trailing ht, show P ++ [n, []] = P ++ [n] ++ [[]] by simp] at hparts
      exact ⟨n, (append_inj' hparts rfl).1⟩
    · rw [x.2.parts_of_not_trailing ht] at hparts
      exact absurd rfl (x.2.comp_ne [] (by simp [hparts]))

end Listing

end CobjOs
