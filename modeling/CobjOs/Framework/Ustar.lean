import Mathlib.Data.List.Basic
import Mathlib.Data.List.Infix
import Mathlib.Data.List.Nodup
import Mathlib.Data.List.TakeWhile
import Mathlib.Tactic.Common
import Mathlib.Tactic.Ring

/-!
# Archives in the ustar format

The bytes of an archive as the format lays them down: for every entry a header block of 512 bytes
and the contents padded to whole blocks, then a number of zero blocks.

* `join` writes a path as a string; a trailing separator is a last component without bytes.
* `Entry` is one file or directory, with what the format demands of it as fields.
* `Archive` is a list of entries that describes a tree: the paths are unique, and above every
  entry there are directories.
-/

namespace CobjOs

open List

namespace Ustar

/-- The separator of path components. -/
def sep : UInt8 := 47

/-- The type flag of a directory. -/
def dirFlag : UInt8 := 53

/-! ## Paths -/

/-- A path as a string. -/
def join (path : List (List UInt8)) : List UInt8 := [sep].intercalate path

/-- The parts of a name have no separator in them. -/
def Parts (p : List (List UInt8)) : Prop := ∀ c ∈ p, sep ∉ c

section Join

variable {p q r : List (List UInt8)} {c d : List UInt8}

@[simp] lemma join_nil : join [] = [] := rfl

@[simp] lemma join_singleton : join [c] = c := by simp [join]

lemma join_cons_cons : join (c :: d :: p) = c ++ sep :: join (d :: p) := by
  simp [join, intercalate_cons_cons]

lemma join_append (hp : p ≠ []) (hq : q ≠ []) : join (p ++ q) = join p ++ sep :: join q := by
  induction p with
  | nil => exact absurd rfl hp
  | cons c p ih =>
    cases p with
    | nil =>
      obtain ⟨d, q, rfl⟩ := exists_cons_of_ne_nil hq
      rw [singleton_append, join_cons_cons, join_singleton]
    | cons d p =>
      have hrest := ih (cons_ne_nil d p)
      simp only [cons_append] at hrest ⊢
      rw [join_cons_cons, join_cons_cons, hrest]
      simp

lemma join_injective (hp : p ≠ []) (hq : q ≠ []) (hps : Parts p) (hqs : Parts q)
    (h : join p = join q) : p = q := by
  rw [← splitOn_intercalate sep hps hp, ← splitOn_intercalate sep hqs hq]
  exact congrArg _ h

/-- Every string is a path. -/
lemma exists_join (s : List UInt8) : ∃ p, p ≠ [] ∧ Parts p ∧ join p = s := by
  induction s with
  | nil => exact ⟨[[]], by simp, by simp [Parts], by simp⟩
  | cons b s ih =>
    obtain ⟨p, hne, hp, rfl⟩ := ih
    obtain ⟨c, p, rfl⟩ := exists_cons_of_ne_nil hne
    by_cases hb : b = sep
    · -- a separator starts a new component
      refine ⟨[] :: c :: p, by simp, ?_, by simp [join_cons_cons, hb]⟩
      simpa [Parts] using hp
    · refine ⟨(b :: c) :: p, by simp, ?_, ?_⟩
      · simp only [Parts, forall_mem_cons] at hp ⊢
        exact ⟨by simp [hp.1, Ne.symm hb], hp.2⟩
      · cases p with
        | nil => simp
        | cons d p => simp [join_cons_cons]

lemma Parts.append (hp : Parts p) (hq : Parts q) : Parts (p ++ q) := by
  intro c hc
  rcases mem_append.1 hc with hc | hc
  · exact hp c hc
  · exact hq c hc

lemma Parts.of_append_right (h : Parts (p ++ q)) : Parts q :=
  fun c hc => h c (mem_append_right p hc)

lemma join_concat_nil (hp : p ≠ []) : join (p ++ [[]]) = join p ++ [sep] := by
  rw [join_append hp (by simp), join_singleton]

lemma join_ne_append_sep (hp : p ≠ []) (hps : Parts p) (hne : ∀ c ∈ p, c ≠ []) (s : List UInt8) :
    join p ≠ s ++ [sep] := by
  intro h
  obtain ⟨q, hq, hqs, rfl⟩ := exists_join s
  rw [← join_concat_nil hq] at h
  obtain rfl := join_injective hp (by simp) hps (hqs.append (by simp [Parts])) h
  exact hne [] (by simp) rfl

lemma not_mem_join {b : UInt8} (hb : b ≠ sep) (h : ∀ c ∈ p, b ∉ c) : b ∉ join p := by
  induction p with
  | nil => simp
  | cons c p ih =>
    cases p with
    | nil => simpa using h c
    | cons d p =>
      rw [join_cons_cons]
      simp only [mem_append, mem_cons, not_or]
      exact ⟨h c (by simp), hb, ih fun e he => h e (mem_cons_of_mem c he)⟩

end Join

/-! ## Numbers -/

/-- The last `w` octal digits of a number. -/
def octal : ℕ → ℕ → List UInt8
  | 0, _ => []
  | w + 1, n => octal w (n / 8) ++ [UInt8.ofNat (48 + n % 8)]

/-- The bytes `0` to `7`. -/
def IsOctal (c : UInt8) : Prop := 48 ≤ c ∧ c ≤ 55

instance (c : UInt8) : Decidable (IsOctal c) := inferInstanceAs (Decidable (_ ∧ _))

lemma octal_length (w n : ℕ) : (octal w n).length = w := by
  induction w generalizing n with
  | zero => rfl
  | succ w ih => simp [octal, ih]

lemma digit_toNat (n : ℕ) : (UInt8.ofNat (48 + n % 8)).toNat = 48 + n % 8 :=
  UInt8.toNat_ofNat_of_lt' (by rw [UInt8.size]; omega)

lemma isOctal_of_mem {w n : ℕ} {c : UInt8} (h : c ∈ octal w n) : IsOctal c := by
  induction w generalizing n with
  | zero => cases h
  | succ w ih =>
    rcases mem_append.1 h with h | h
    · exact ih h
    · rw [mem_singleton.1 h]
      have hlt := Nat.mod_lt n (show 0 < 8 by decide)
      constructor <;> rw [UInt8.le_iff_toNat_le, digit_toNat] <;> simp <;> omega

/-- Reading the digits from the left gives the number back. -/
lemma foldl_octal (w n : ℕ) :
    (octal w n).foldl (fun val c => val * 8 + (c.toNat - 48)) 0 = n % 8 ^ w := by
  induction w generalizing n with
  | zero => simp [octal, Nat.mod_one]
  | succ w ih =>
    rw [octal, foldl_append, ih, foldl_cons, foldl_nil, digit_toNat,
      Nat.pow_succ', Nat.mod_mul]
    omega

/-! ## Entries -/

/-- A file or a directory, and its header fields. -/
structure Entry where
  path : List (List UInt8)
  isDir : Bool
  content : List UInt8
  /-- Whether the name has a separator at its end. -/
  trailing : Bool
  /-- `mode`, `uid` and `gid`. -/
  owner : List UInt8
  /-- The byte behind the digits of the size. -/
  stop : UInt8
  /-- `mtime` and `checksum`. -/
  stamp : List UInt8
  flag : UInt8
  /-- Everything from the link name on. -/
  rest : List UInt8
  path_ne : path ≠ []
  comp_ne : ∀ c ∈ path, c ≠ []
  comp_nul : ∀ c ∈ path, 0 ∉ c
  comp_sep : Parts path
  path_length : (join path).length ≤ 98
  dir_content : isDir = true → content = []
  trailing_dir : trailing = true → isDir = true
  size_lt : content.length < 8 ^ 11
  owner_length : owner.length = 24
  stop_octal : ¬IsOctal stop
  stamp_length : stamp.length = 20
  flag_dir : flag = dirFlag ↔ isDir = true
  rest_length : rest.length = 355

namespace Entry

variable (e : Entry)

/-- The components of the name, with an empty one for a trailing separator. -/
def parts : List (List UInt8) := e.path ++ if e.trailing then [[]] else []

def name : List UInt8 := join e.parts

/-- The header block. -/
def header : List UInt8 :=
  e.name ++ replicate (100 - e.name.length) 0 ++ e.owner ++ octal 11 e.content.length ++
    [e.stop] ++ e.stamp ++ [e.flag] ++ e.rest

/-- The number of blocks of the contents. -/
def blocks : ℕ := (e.content.length + 511) / 512

/-- The header and the contents. -/
def bytes : List UInt8 :=
  e.header ++ (e.content ++ replicate (e.blocks * 512 - e.content.length) 0)

lemma parts_ne : e.parts ≠ [] := by simp [parts, e.path_ne]

lemma parts_parts : Parts e.parts := by
  refine e.comp_sep.append ?_
  split <;> simp [Parts]

lemma parts_of_trailing (h : e.trailing = true) : e.parts = e.path ++ [[]] := by simp [parts, h]

lemma parts_of_not_trailing (h : ¬e.trailing = true) : e.parts = e.path := by simp [parts, h]

lemma name_nul : 0 ∉ e.name := by
  refine not_mem_join (by decide) fun c hc => ?_
  rcases mem_append.1 hc with hc | hc
  · exact e.comp_nul c hc
  · split at hc <;> simp_all

lemma name_ne : e.name ≠ [] := by
  intro h
  have hnil : e.parts = [[]] :=
    join_injective e.parts_ne (by simp) e.parts_parts (by simp [Parts])
      (by rw [join_singleton]; exact h)
  by_cases ht : e.trailing = true
  · rw [e.parts_of_trailing ht] at hnil
    exact e.path_ne (by simpa using hnil)
  · rw [e.parts_of_not_trailing ht] at hnil
    exact e.comp_ne [] (by simp [hnil]) rfl

lemma name_length : e.name.length ≤ 99 := by
  have hlen := e.path_length
  unfold name
  by_cases ht : e.trailing = true
  · rw [e.parts_of_trailing ht, join_append e.path_ne (by simp)]
    simp
    omega
  · rw [e.parts_of_not_trailing ht]
    omega

lemma header_length : e.header.length = 512 := by
  have hname := e.name_length
  simp [header, e.owner_length, e.stamp_length, e.rest_length, octal_length]
  omega

lemma bytes_length : e.bytes.length = 512 + e.blocks * 512 := by
  simp [bytes, e.header_length, blocks]
  omega

/-- The header from the size field on. -/
lemma drop_size : e.header.drop 124 = octal 11 e.content.length ++
    (e.stop :: (e.stamp ++ (e.flag :: e.rest))) := by
  have hname := e.name_length
  have hpre : (e.name ++ replicate (100 - e.name.length) 0 ++ e.owner).length = 124 := by
    simp [e.owner_length]
    omega
  have hsplit : e.header = (e.name ++ replicate (100 - e.name.length) 0 ++ e.owner) ++
      (octal 11 e.content.length ++ (e.stop :: (e.stamp ++ (e.flag :: e.rest)))) := by
    simp [header]
  rw [hsplit, ← hpre]
  exact drop_left

lemma takeWhile_header (t : List UInt8) :
    (e.header ++ t).takeWhile (fun b => decide (b ≠ 0)) = e.name := by
  have hname := e.name_length
  obtain ⟨k, hk⟩ : ∃ k, 100 - e.name.length = k + 1 := ⟨99 - e.name.length, by omega⟩
  have hsplit : e.header ++ t = e.name ++ 0 :: (replicate k 0 ++ (e.owner ++
      (octal 11 e.content.length ++ (e.stop :: (e.stamp ++ (e.flag :: (e.rest ++ t))))))) := by
    simp [header, hk, replicate_succ]
  rw [hsplit, takeWhile_append_of_pos]
  · simp
  · intro b hb
    simpa using fun h : b = 0 => e.name_nul (h ▸ hb)

lemma getD_flag : e.header.getD 156 0 = e.flag := by
  have hdrop : e.header.getD 156 0 = (e.header.drop 124).getD 32 0 := by
    simp [getD_eq_getElem?_getD]
  rw [hdrop, e.drop_size]
  simp [getD_eq_getElem?_getD, getElem?_append, octal_length, e.stamp_length]

/-- An entry with zeros in the fields that the format leaves open. -/
def plain (path : List (List UInt8)) (isDir : Bool) (content : List UInt8)
    (hpath : path ≠ [] ∧ ∀ c ∈ path, c ≠ [] ∧ 0 ∉ c ∧ sep ∉ c)
    (hlen : (join path).length ≤ 98 ∧ content.length < 8 ^ 11)
    (hdir : isDir = true → content = []) : Entry where
  path := path
  isDir := isDir
  content := content
  trailing := isDir
  owner := replicate 24 0
  stop := 0
  stamp := replicate 20 0
  flag := if isDir then dirFlag else 48
  rest := replicate 355 0
  path_ne := hpath.1
  comp_ne c hc := (hpath.2 c hc).1
  comp_nul c hc := (hpath.2 c hc).2.1
  comp_sep c hc := (hpath.2 c hc).2.2
  path_length := hlen.1
  dir_content := hdir
  trailing_dir := id
  size_lt := hlen.2
  owner_length := length_replicate
  stop_octal := by decide
  stamp_length := length_replicate
  flag_dir := by cases isDir <;> decide
  rest_length := length_replicate

end Entry

/-! ## Archives -/

/-- Where the headers of entries laid down one after the other are. -/
def place : ℕ → List Entry → List (ℕ × Entry)
  | _, [] => []
  | offset, e :: es => (offset, e) :: place (offset + e.bytes.length) es

lemma place_map_snd (offset : ℕ) (es : List Entry) : (place offset es).map Prod.snd = es := by
  induction es generalizing offset with
  | nil => rfl
  | cons e es ih => simp [place, ih]

/-- A file tree, entry by entry. -/
structure Archive where
  entries : List Entry
  /-- The number of zero blocks at the end. -/
  zeros : ℕ
  unique : (entries.map Entry.path).Nodup
  parents : ∀ e ∈ entries, ∀ p q, e.path = p ++ q → p ≠ [] → q ≠ [] →
    ∃ d ∈ entries, d.path = p ∧ d.isDir = true

namespace Archive

variable (a : Archive)

def bytes : List UInt8 := a.entries.flatMap Entry.bytes ++ replicate (a.zeros * 512) 0

/-- The entries and the offsets of their headers. -/
def placed : List (ℕ × Entry) := place 0 a.entries

/-- The entry of that path, with its offset. -/
def find (path : List (List UInt8)) : Option (ℕ × Entry) :=
  a.placed.find? fun x => x.2.path = path

variable {a} {x : ℕ × Entry} {p q : List (List UInt8)}

lemma mem_entries (h : x ∈ a.placed) : x.2 ∈ a.entries := by
  rw [← place_map_snd 0 a.entries]
  exact mem_map_of_mem h

lemma path_of_find (h : a.find p = some x) : x.2.path = p := by
  simpa using find?_some h

lemma mem_of_find (h : a.find p = some x) : x ∈ a.placed := mem_of_find?_eq_some h

lemma placed_inj {y : ℕ × Entry} (hx : x ∈ a.placed) (hy : y ∈ a.placed)
    (h : x.2.path = y.2.path) : x = y := by
  have hnd : (a.placed.map fun x => x.2.path).Nodup := by
    have := a.unique
    rw [← place_map_snd 0 a.entries, map_map] at this
    exact this
  exact inj_on_of_nodup_map hnd hx hy h

lemma find_eq_some_iff : a.find p = some x ↔ x ∈ a.placed ∧ x.2.path = p := by
  constructor
  · exact fun h => ⟨mem_of_find h, path_of_find h⟩
  · rintro ⟨hx, hp⟩
    obtain ⟨y, hy⟩ : ∃ y, a.find p = some y := by
      refine Option.isSome_iff_exists.1 ?_
      rw [find, find?_isSome]
      exact ⟨x, hx, by simpa using hp⟩
    have hxy : x = y := placed_inj hx (mem_of_find hy) (hp.trans (path_of_find hy).symm)
    rw [hxy, hy]

/-- Above an entry there is a directory at every proper part of its path. -/
lemma exists_parent {y : ℕ × Entry} (hy : a.find (p ++ q) = some y) (hp : p ≠ []) (hq : q ≠ []) :
    ∃ z, a.find p = some z ∧ z.2.isDir = true := by
  obtain ⟨d, hd, hdp, hdir⟩ :=
    a.parents y.2 (mem_entries (mem_of_find hy)) p q (path_of_find hy) hp hq
  rw [← place_map_snd 0 a.entries] at hd
  obtain ⟨z, hz, rfl⟩ := mem_map.1 hd
  exact ⟨z, find_eq_some_iff.2 ⟨hz, hdp⟩, hdir⟩

/-- Nothing is below a file. -/
lemma find_append_of_file (h : a.find p = some x) (hfile : x.2.isDir = false) (hp : p ≠ [])
    (hq : q ≠ []) : a.find (p ++ q) = none := by
  by_contra hsome
  obtain ⟨y, hy⟩ := Option.ne_none_iff_exists'.1 hsome
  obtain ⟨z, hz, hdir⟩ := exists_parent hy hp hq
  obtain rfl : z = x := Option.some.inj (hz.symm.trans h)
  exact Bool.false_ne_true (hfile.symm.trans hdir)

/-- Nothing is below a path without an entry. -/
lemma find_append_of_none (h : a.find p = none) (hp : p ≠ []) : a.find (p ++ q) = none := by
  cases q with
  | nil => rwa [append_nil]
  | cons c q =>
    by_contra hsome
    obtain ⟨y, hy⟩ := Option.ne_none_iff_exists'.1 hsome
    obtain ⟨z, hz, -⟩ := exists_parent hy hp (cons_ne_nil c q)
    cases h.symm.trans hz

end Archive

end Ustar

end CobjOs
