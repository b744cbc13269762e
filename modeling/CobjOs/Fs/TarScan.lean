import CobjOs.Fs.Tar
import Mathlib.Data.Int.Notation
import Mathlib.Order.Basic

/-!
# The loop over the archive

What holds of `Tar.scan` whatever the bytes of the archive are and whatever the loop is used for:
it comes to an end, the offsets at which it looks at headers increase in whole blocks and leave
room for the header, and what it returns was made of a header it looked at.

Without a condition of its own the loop does its turns over `Tar.headers` (`scanFrom_turns`), and
the four functions are read off from there.
-/

namespace CobjOs

open List

namespace Tar

variable {σ ρ : Type} {data : List UInt8} {guard : σ → Bool} {body : σ → Header → σ ⊕ ρ}

/-! ## Where it looks -/

lemma scanFrom_fuel : ∀ {fuel fuel' offset : ℕ} (s : σ), data.length < offset + 512 * fuel →
    data.length < offset + 512 * fuel' →
    scanFrom data guard body fuel offset s = scanFrom data guard body fuel' offset s
  | 0, 0, _, _, _, _ => rfl
  | 0, _ + 1, _, _, h, _ => by rw [scanFrom, scanFrom, if_neg (by omega)]
  | _ + 1, 0, _, _, _, h => by rw [scanFrom, scanFrom, if_neg (by omega)]
  | fuel + 1, fuel' + 1, offset, s, h, h' => by
      have hnext : offset + 512 ≤ (headerAt data offset).next := Nat.le_add_right _ _
      have ih := fun s => @scanFrom_fuel fuel fuel' (headerAt data offset).next s
        (by omega) (by omega)
      simp only [scanFrom, ih]

/-- The offsets start where the loop does, increase, and leave room for a header. -/
lemma scanFrom_visits : ∀ (fuel offset : ℕ) (s : σ), 512 ∣ offset →
    (scanFrom data guard body fuel offset s).2.Pairwise (· < ·) ∧
      ∀ o ∈ (scanFrom data guard body fuel offset s).2,
        offset ≤ o ∧ 512 ∣ o ∧ o + 512 ≤ data.length
  | 0, _, _, _ => by simp [scanFrom]
  | fuel + 1, offset, s, hdvd => by
      rw [scanFrom]
      by_cases hin : offset + 512 ≤ data.length ∧ guard s = true
      swap
      · simp [hin]
      have hone : ∀ o ∈ [offset], offset ≤ o ∧ 512 ∣ o ∧ o + 512 ≤ data.length := by
        intro o ho
        rw [mem_singleton.1 ho]
        exact ⟨Nat.le_refl _, hdvd, hin.1⟩
      rw [if_pos hin]
      dsimp only
      split_ifs with hname
      · exact ⟨pairwise_singleton _ _, hone⟩
      cases body s (headerAt data offset) with
      | inr r => exact ⟨pairwise_singleton _ _, hone⟩
      | inl s' =>
        have hlt : offset < (headerAt data offset).next :=
          Nat.lt_of_lt_of_le (Nat.lt_add_of_pos_right (by decide)) (Nat.le_add_right _ _)
        have hnext : 512 ∣ (headerAt data offset).next :=
          Nat.dvd_add (Nat.dvd_add hdvd (Nat.dvd_refl _)) (Nat.dvd_mul_left _ _)
        obtain ⟨hpair, hall⟩ := scanFrom_visits fuel _ s' hnext
        refine ⟨pairwise_cons.2 ⟨fun o ho => Nat.lt_of_lt_of_le hlt (hall o ho).1, hpair⟩, ?_⟩
        intro o ho
        rcases mem_cons.1 ho with ho | ho
        · exact hone o (mem_singleton.2 ho)
        · obtain ⟨hle, hrest⟩ := hall o ho
          exact ⟨Nat.le_trans (Nat.le_of_lt hlt) hle, hrest⟩

/-- The offset at which the walk over all headers ends. -/
def stopFrom (data : List UInt8) : ℕ → ℕ → ℕ
  | 0, offset => offset
  | fuel + 1, offset =>
    if offset + 512 ≤ data.length ∧ (headerAt data offset).name ≠ [] then
      stopFrom data fuel (headerAt data offset).next
    else offset

def stop (data : List UInt8) : ℕ := stopFrom data (data.length / 512 + 1) 0

lemma walk_next {fuel offset : ℕ} (hin : offset + 512 ≤ data.length)
    (hname : (headerAt data offset).name ≠ []) : walk data (fuel + 1) offset =
      headerAt data offset :: walk data fuel (headerAt data offset).next := by
  rw [walk, if_pos hin]
  exact if_neg hname

lemma stopFrom_next {fuel offset : ℕ} (hin : offset + 512 ≤ data.length)
    (hname : (headerAt data offset).name ≠ []) :
    stopFrom data (fuel + 1) offset = stopFrom data fuel (headerAt data offset).next :=
  if_pos ⟨hin, hname⟩

lemma le_stopFrom : ∀ (fuel offset : ℕ), offset ≤ stopFrom data fuel offset
  | 0, _ => Nat.le_refl _
  | fuel + 1, offset => by
      rw [stopFrom]
      split_ifs with h
      · have hnext : offset + 512 ≤ (headerAt data offset).next := Nat.le_add_right _ _
        have ih := le_stopFrom fuel (headerAt data offset).next
        omega
      · exact Nat.le_refl _

/-- A header that the loop looked at and that has a name is one of the walk, and its contents end
where the walk does or before. -/
lemma scanFrom_passed : ∀ (fuel offset : ℕ) (s : σ),
    ∀ o ∈ (scanFrom data guard body fuel offset s).2, (headerAt data o).name ≠ [] →
      headerAt data o ∈ walk data fuel offset ∧
        (headerAt data o).next ≤ stopFrom data fuel offset
  | 0, _, _, o, ho, _ => by simp [scanFrom] at ho
  | fuel + 1, offset, s, o, ho, hne => by
      rw [scanFrom] at ho
      split_ifs at ho with hin
      swap
      · simp at ho
      have hself : (headerAt data offset).name ≠ [] →
          headerAt data offset ∈ walk data (fuel + 1) offset ∧
            (headerAt data offset).next ≤ stopFrom data (fuel + 1) offset := by
        intro hname
        rw [walk_next hin.1 hname, stopFrom_next hin.1 hname]
        exact ⟨mem_cons_self, le_stopFrom fuel _⟩
      dsimp only at ho
      split_ifs at ho with hname
      · rw [mem_singleton.1 ho] at hne
        exact absurd hname hne
      cases hbody : body s (headerAt data offset) with
      | inr r =>
        rw [hbody] at ho
        rw [mem_singleton.1 ho]
        exact hself hname
      | inl s' =>
        rw [hbody] at ho
        rcases mem_cons.1 ho with rfl | ho
        · exact hself hname
        · obtain ⟨hmem, hle⟩ := scanFrom_passed fuel _ s' o ho hne
          rw [walk_next hin.1 hname, stopFrom_next hin.1 hname]
          exact ⟨mem_cons_of_mem _ hmem, hle⟩

/-- What the loop returns was made of a header it looked at. -/
lemma scanFrom_result : ∀ (fuel offset : ℕ) (s : σ) {r : ρ},
    (scanFrom data guard body fuel offset s).1 = .inr r →
    ∃ o ∈ (scanFrom data guard body fuel offset s).2, (headerAt data o).name ≠ [] ∧
      ∃ s, body s (headerAt data o) = .inr r
  | 0, _, _, _, h => by simp [scanFrom] at h
  | fuel + 1, offset, s, r, h => by
      rw [scanFrom] at h ⊢
      split_ifs at h ⊢ with hin
      dsimp only at h ⊢
      split_ifs at h ⊢ with hname
      cases hbody : body s (headerAt data offset) with
      | inr r' =>
        rw [hbody] at h
        obtain rfl : r' = r := Sum.inr.inj h
        exact ⟨offset, by simp, hname, s, hbody⟩
      | inl s' =>
        rw [hbody] at h
        obtain ⟨o, ho, hrest⟩ := scanFrom_result fuel _ s' h
        exact ⟨o, mem_cons_of_mem _ ho, hrest⟩

/-! ## What it returns -/

/-- The turns of a loop over a list of headers. -/
def turns (body : σ → Header → σ ⊕ ρ) : List Header → σ → σ ⊕ ρ
  | [], s => .inl s
  | hdr :: hdrs, s =>
    match body s hdr with
    | .inr r => .inr r
    | .inl s => turns body hdrs s

lemma scanFrom_turns : ∀ (fuel offset : ℕ) (s : σ),
    (scanFrom data (fun _ => true) body fuel offset s).1 = turns body (walk data fuel offset) s
  | 0, _, _ => rfl
  | fuel + 1, offset, s => by
      rw [scanFrom, walk]
      by_cases hin : offset + 512 ≤ data.length
      · rw [if_pos ⟨hin, rfl⟩, if_pos hin]
        dsimp only
        split_ifs with hname
        · rfl
        · rw [turns]
          cases body s (headerAt data offset) with
          | inr r => rfl
          | inl s' => exact scanFrom_turns fuel _ s'
      · simp [hin, turns]

end Tar

/-! ## The four functions -/

variable {data : List UInt8}

/-- A turn of `tarfs_lookup`. -/
def tarfsLookupBody (fullpath : CStr) (_ : Unit) (hdr : Tar.Header) : Unit ⊕ Tar.Header :=
  if tarfsMatches fullpath hdr then .inr hdr else .inl ()

/-- The loop of `tarfs_lookup`. -/
def tarfsLookupScan (data : List UInt8) (dir : Option ℕ) (name : CStr) :
    (Unit ⊕ Tar.Header) × List ℕ :=
  Tar.scan data (fun _ => true) (tarfsLookupBody (tarfsFullpath data dir name)) ()

lemma turns_lookup (fullpath : CStr) : ∀ hdrs : List Tar.Header,
    (Tar.turns (tarfsLookupBody fullpath) hdrs ()).getRight? = hdrs.find? (tarfsMatches fullpath)
  | [] => rfl
  | hdr :: hdrs => by
      rw [Tar.turns, find?_cons, tarfsLookupBody]
      cases tarfsMatches fullpath hdr with
      | true => rfl
      | false => exact turns_lookup fullpath hdrs

lemma tarfsLookup_scan (data : List UInt8) (dir : Option ℕ) (name : CStr) :
    tarfsLookup data dir name = (tarfsLookupScan data dir name).1.getRight? := by
  rw [tarfsLookupScan, Tar.scan, Tar.scanFrom_turns, turns_lookup]
  rfl

/-- A turn of `tarfs_readdir`, which has seen `seen` entries. -/
def tarfsReaddirBody (path : CStr) (index seen : UInt32) (hdr : Tar.Header) : UInt32 ⊕ Dirent :=
  match tarfsDirent path hdr with
  | none => .inl seen
  | some ent => if seen = index then .inr ent else .inl (seen + 1)

/-- The loop of `tarfs_readdir`. -/
def tarfsReaddirScan (data : List UInt8) (dir : Option ℕ) (index : UInt32) :
    (UInt32 ⊕ Dirent) × List ℕ :=
  Tar.scan data (fun _ => true) (tarfsReaddirBody ((tarfsDirname data dir).getD []) index) 0

/-- The counter reaches the index before it can wrap. -/
lemma turns_readdir (path : CStr) (index : UInt32) : ∀ (hdrs : List Tar.Header) (seen : UInt32),
    seen.toNat ≤ index.toNat →
    (Tar.turns (tarfsReaddirBody path index) hdrs seen).getRight? =
      (hdrs.filterMap (tarfsDirent path))[index.toNat - seen.toNat]?
  | [], _, _ => rfl
  | hdr :: hdrs, seen, hle => by
      rw [Tar.turns, filterMap_cons, tarfsReaddirBody]
      cases tarfsDirent path hdr with
      | none => exact turns_readdir path index hdrs seen hle
      | some ent =>
        dsimp only
        by_cases heq : seen = index
        · rw [if_pos heq, heq, Nat.sub_self]
          rfl
        · have hne : seen.toNat ≠ index.toNat := fun h => heq (UInt32.toNat_inj.1 h)
          have hlt := index.toNat_lt
          have hsucc : (seen + 1).toNat = seen.toNat + 1 := by
            rw [UInt32.toNat_add, UInt32.toNat_one]
            exact Nat.mod_eq_of_lt (by omega)
          have ih := turns_readdir path index hdrs (seen + 1) (by omega)
          have hsub : index.toNat - seen.toNat = index.toNat - (seen.toNat + 1) + 1 := by omega
          rw [if_neg heq, hsub, getElem?_cons_succ, ← hsucc]
          exact ih

lemma tarfsReaddir_scan (data : List UInt8) (dir : Option ℕ) (index : UInt32) :
    tarfsReaddir data dir index = (tarfsReaddirScan data dir index).1.getRight? := by
  rw [tarfsReaddirScan, Tar.scan, Tar.scanFrom_turns, turns_readdir _ _ _ _ (Nat.zero_le _)]
  rfl

/-- `tar_listdir` goes on until it has `max` entries. -/
lemma scanFrom_listdir (path : CStr) (max : ℤ) : ∀ (fuel offset : ℕ) (entries : List TarEntry),
    (Tar.scanFrom data (fun entries => decide ((entries.length : ℤ) < max)) (tarListdirBody path)
      fuel offset entries).1 = .inl (entries ++
        ((Tar.walk data fuel offset).filterMap (tarListdirEntry path)).take
          (max - entries.length).toNat)
  | 0, _, _ => by simp [Tar.scanFrom, Tar.walk]
  | fuel + 1, offset, entries => by
      rw [Tar.scanFrom, Tar.walk]
      by_cases hin : offset + 512 ≤ data.length
      swap
      · simp [hin]
      by_cases hmax : (entries.length : ℤ) < max
      swap
      · have hzero : (max - entries.length).toNat = 0 := by omega
        simp [hmax, hzero]
      rw [if_pos ⟨hin, decide_eq_true hmax⟩, if_pos hin]
      dsimp only
      split_ifs with hname
      · simp
      have ih := scanFrom_listdir path max fuel (Tar.headerAt data offset).next
        (entries ++ (tarListdirEntry path (Tar.headerAt data offset)).toList)
      rw [tarListdirBody]
      dsimp only
      rw [ih, filterMap_cons]
      cases tarListdirEntry path (Tar.headerAt data offset) with
      | none =>
        simp only [Option.toList_none, append_nil]
        rfl
      | some e =>
        have hsucc : (max - entries.length).toNat =
            (max - (entries ++ [e]).length).toNat + 1 := by
          rw [length_append, length_singleton]
          omega
        simp only [Option.toList_some, hsucc, take_succ_cons, append_assoc,
          singleton_append]
        rfl

lemma tarListdir_eq (data : List UInt8) (path : CStr) (max : ℤ) :
    tarListdir data path max =
      ((Tar.headers data).filterMap (tarListdirEntry path)).take max.toNat := by
  rw [tarListdir, tarListdirScan, Tar.scan, scanFrom_listdir]
  simp [Tar.headers]

lemma scanFrom_listdir_mem {path : CStr} {guard : List TarEntry → Bool} :
    ∀ (fuel offset : ℕ) (entries : List TarEntry) {es : List TarEntry},
    (Tar.scanFrom data guard (tarListdirBody path) fuel offset entries).1 = .inl es →
    ∀ e ∈ es, e ∈ entries ∨
      ∃ o ∈ (Tar.scanFrom data guard (tarListdirBody path) fuel offset entries).2,
        (Tar.headerAt data o).name ≠ [] ∧ tarListdirEntry path (Tar.headerAt data o) = some e
  | 0, _, entries, es, h, e, he => by
      obtain rfl : entries = es := Sum.inl.inj h
      exact .inl he
  | fuel + 1, offset, entries, es, h, e, he => by
      rw [Tar.scanFrom] at h ⊢
      split_ifs at h ⊢ with hin
      swap
      · obtain rfl : entries = es := Sum.inl.inj h
        exact .inl he
      dsimp only at h ⊢
      split_ifs at h ⊢ with hname
      · obtain rfl : entries = es := Sum.inl.inj h
        exact .inl he
      · rw [tarListdirBody] at h ⊢
        dsimp only at h ⊢
        rcases scanFrom_listdir_mem fuel _ _ h e he with hold | ⟨o, ho, hrest⟩
        · rcases mem_append.1 hold with hold | hnew
          · exact .inl hold
          · exact .inr ⟨offset, mem_cons_self, hname, Option.mem_toList.1 hnew⟩
        · exact .inr ⟨o, mem_cons_of_mem _ ho, hrest⟩

/-! ## What they read of the names

How many bytes the string functions read, counted from the start of the string; a string that
has no NUL before the end of the archive is read beyond it.  A function that compares stops at
the NUL of the first string, so none reads further than `strlen`. -/

/-- `strlen`. -/
def strlenReads (s : List UInt8) : ℕ := (s.takeWhile (· ≠ 0)).length + 1

/-- `strcmp`, of its first argument. -/
def strcmpReads : List UInt8 → CStr → ℕ
  | [], _ => 1
  | b :: s, t => if b ≠ 0 ∧ b = t.headD 0 then strcmpReads s t.tail + 1 else 1

/-- `strncmp`, of its first argument. -/
def strncmpReads : ℕ → List UInt8 → CStr → ℕ
  | 0, _, _ => 0
  | _ + 1, [], _ => 1
  | n + 1, b :: s, t =>
    if n ≠ 0 ∧ b ≠ 0 ∧ b = t.headD 0 then strncmpReads n s t.tail + 1 else 1

/-- `strchr`. -/
def strchrReads (c : UInt8) : List UInt8 → ℕ
  | [] => 1
  | b :: s => if b = c ∨ b = 0 then 1 else strchrReads c s + 1

/-- What a turn of `tar_find` reads of the name at an offset. -/
def tarFindReads (data : List UInt8) (name : CStr) (offset : ℕ) : ℕ :=
  let hdr := Tar.headerAt data offset
  if hdr.name ≠ [] ∧ (hdr.type = 48 ∨ hdr.type = 0) then strcmpReads (data.drop offset) name else 1

/-- What a turn of `tar_listdir` or `tarfs_readdir` reads of the name at an offset. -/
def tarListReads (data : List UInt8) (path : CStr) (offset : ℕ) : ℕ :=
  let name := (Tar.headerAt data offset).name
  if name = [] then 1
  else
    max (max 1 (strncmpReads path.length (data.drop offset) path))
      (match tarfsRelative path name with
      | none => 1
      | some relative =>
        let start := name.length - relative.length
        if relative = [] then start + 1
        else start + max (strchrReads slash (data.drop (offset + start)))
          (strlenReads (data.drop (offset + start))))

/-- What a turn of `tarfs_lookup` reads of the name at an offset. -/
def tarfsLookupReads (data : List UInt8) (fullpath : CStr) (offset : ℕ) : ℕ :=
  let hdr := Tar.headerAt data offset
  if hdr.name = [] then 1
  else
    max (strcmpReads (data.drop offset) fullpath)
      (if hdr.name ≠ fullpath ∧ hdr.type = 53 then
        max (strncmpReads fullpath.length (data.drop offset) fullpath)
          (if strncmpEq hdr.name fullpath fullpath.length then
            if charAt hdr.name fullpath.length = slash then fullpath.length + 2
            else fullpath.length + 1
          else 0)
      else 0)

lemma strlenReads_cons {b : UInt8} (hb : b ≠ 0) (s : List UInt8) :
    strlenReads (b :: s) = strlenReads s + 1 := by
  simp [strlenReads, hb]

lemma one_le_strlenReads (s : List UInt8) : 1 ≤ strlenReads s := Nat.le_add_left 1 _

lemma strcmpReads_le : ∀ (s : List UInt8) (t : CStr), strcmpReads s t ≤ strlenReads s
  | [], _ => Nat.le_refl _
  | b :: s, t => by
      rw [strcmpReads]
      split_ifs with h
      · rw [strlenReads_cons h.1]
        exact Nat.succ_le_succ (strcmpReads_le s t.tail)
      · exact one_le_strlenReads _

lemma strncmpReads_le : ∀ (n : ℕ) (s : List UInt8) (t : CStr), strncmpReads n s t ≤ strlenReads s
  | 0, _, _ => Nat.zero_le _
  | _ + 1, [], _ => Nat.le_refl _
  | n + 1, b :: s, t => by
      rw [strncmpReads]
      split_ifs with h
      · rw [strlenReads_cons h.2.1]
        exact Nat.succ_le_succ (strncmpReads_le n s t.tail)
      · exact one_le_strlenReads _

lemma strchrReads_le (c : UInt8) : ∀ s : List UInt8, strchrReads c s ≤ strlenReads s
  | [] => Nat.le_refl _
  | b :: s => by
      rw [strchrReads]
      split_ifs with h
      · exact one_le_strlenReads _
      · rw [strlenReads_cons fun hb => h (.inr hb)]
        exact Nat.succ_le_succ (strchrReads_le c s)

lemma strlenReads_drop : ∀ (k : ℕ) (s : List UInt8), k ≤ (s.takeWhile (· ≠ 0)).length →
    k + strlenReads (s.drop k) = strlenReads s
  | 0, _, _ => by simp
  | k + 1, [], h => by simp at h
  | k + 1, b :: s, h => by
      by_cases hb : b = 0
      · simp [hb] at h
      · have hk : k ≤ (s.takeWhile (· ≠ 0)).length := by simpa [hb] using h
        rw [drop_succ_cons, strlenReads_cons hb, ← strlenReads_drop k s hk]
        omega

lemma length_le_of_strncmpEq {s t : CStr} (h : strncmpEq s t t.length = true) :
    t.length ≤ s.length := by
  have heq : s.take t.length = t := by simpa [strncmpEq] using h
  have hlen := congrArg List.length heq
  rw [length_take] at hlen
  omega

variable {offset : ℕ}

lemma tarFindReads_le (name : CStr) :
    tarFindReads data name offset ≤ strlenReads (data.drop offset) := by
  rw [tarFindReads]
  split_ifs
  · exact strcmpReads_le _ _
  · exact one_le_strlenReads _

lemma tarfsRelative_length {path name relative : CStr}
    (h : tarfsRelative path name = some relative) : relative.length ≤ name.length := by
  rw [tarfsRelative] at h
  split_ifs at h with hpath
  dsimp only at h
  rw [Option.some.injEq] at h
  rw [← h]
  split_ifs <;> simp only [length_tail, length_drop] <;> omega

lemma tarListReads_le (path : CStr) :
    tarListReads data path offset ≤ strlenReads (data.drop offset) := by
  have hone := one_le_strlenReads (data.drop offset)
  rw [tarListReads]
  dsimp only
  split_ifs with hname
  · exact hone
  refine Nat.max_le.2 ⟨Nat.max_le.2 ⟨hone, strncmpReads_le _ _ _⟩, ?_⟩
  cases hrel : tarfsRelative path (Tar.headerAt data offset).name with
  | none => exact hone
  | some relative =>
    have hlen := tarfsRelative_length hrel
    have hstart : (Tar.headerAt data offset).name.length - relative.length ≤
        ((data.drop offset).takeWhile (· ≠ 0)).length := Nat.sub_le _ _
    have hrest := strlenReads_drop _ _ hstart
    rw [drop_drop] at hrest
    dsimp only
    split_ifs with hnil
    · exact Nat.succ_le_succ hstart
    · rw [← hrest]
      exact Nat.add_le_add_left (Nat.max_le.2 ⟨strchrReads_le _ _, Nat.le_refl _⟩) _

lemma tarfsLookupReads_le (fullpath : CStr) :
    tarfsLookupReads data fullpath offset ≤ strlenReads (data.drop offset) := by
  have hcmp := strcmpReads_le (data.drop offset) fullpath
  have hncmp := strncmpReads_le fullpath.length (data.drop offset) fullpath
  rw [tarfsLookupReads]
  split_ifs with hname hdir hpre hslash
  · exact one_le_strlenReads _
  · -- the byte behind the path is a slash, so the NUL comes after it
    have hlt : fullpath.length < (Tar.headerAt data offset).name.length := by
      by_contra hge
      rw [charAt, getD_eq_getElem?_getD, getElem?_eq_none (by omega)] at hslash
      exact absurd hslash (by decide)
    exact Nat.max_le.2 ⟨hcmp, Nat.max_le.2 ⟨hncmp, Nat.succ_le_succ hlt⟩⟩
  · have hle := length_le_of_strncmpEq hpre
    exact Nat.max_le.2 ⟨hcmp, Nat.max_le.2 ⟨hncmp, Nat.succ_le_succ hle⟩⟩
  · exact Nat.max_le.2 ⟨hcmp, Nat.max_le.2 ⟨hncmp, Nat.zero_le _⟩⟩
  · exact Nat.max_le.2 ⟨hcmp, Nat.zero_le _⟩

end CobjOs
