import CobjOs.Fs.Files
import CobjOs.Fs.TarScan
import CobjOs.Properties.DirectoryListing

/-!
# Walking the archive

`sys_listdir` asks `tarfs_readdir` for one entry after another, and `tar_listdir` fills an array in
one pass.  Both come to the same entries, because both count the same headers.

The walk itself is safe for archives of any bytes: it ends, and the headers it looks at lie in the
archive.  Nothing checks the rest of what a header says; names stay in their field, and contents in
the archive, if every name has a NUL and the walk ends at an empty header.
-/

namespace CobjOs

open List

/-! ## Two ways to list -/

/-- The entry of `tar_listdir` as one of `tarfs_readdir`. -/
def Dirent.ofTar (e : TarEntry) : Dirent :=
  { name := e.name, type := if e.type = 53 then .dir else .file, size := e.size }

lemma tarfsDirent_eq (path : CStr) (hdr : Tar.Header) :
    tarfsDirent path hdr = (tarListdirEntry path hdr).map Dirent.ofTar := by
  rw [tarfsDirent, tarListdirEntry, Option.map_bind]
  congr 1
  funext relative
  by_cases hlisted : tarfsListed relative = true
  · simp [hlisted, Dirent.ofTar, Tar.Header.nodeType]
  · simp [hlisted]

lemma tarfsDirents_eq (data : List UInt8) (dir : Option ℕ) : tarfsDirents data dir =
    ((Tar.headers data).filterMap (tarListdirEntry ((tarfsDirname data dir).getD []))).map
      Dirent.ofTar := by
  rw [tarfsDirents, map_filterMap]
  simp only [tarfsDirent_eq]

/-- The loop of `sys_listdir` collects the entries from `count` on. -/
lemma listEntries_eq {fs : Fs} {nd : FsNode} (hops : nd.ops = .tarfs) : ∀ (fuel count : ℕ),
    count + fuel ≤ 2 ^ 32 →
    fs.listEntries nd fuel count = .ok (((tarfsDirents fs.tar nd.data).drop count).take fuel)
  | 0, _, _ => by simp [Fs.listEntries]
  | fuel + 1, count, hle => by
      have hlt : count < 2 ^ 32 := by omega
      have hindex : (UInt32.ofNat count).toNat = count := UInt32.toNat_ofNat_of_lt' hlt
      have hread : fs.readdir nd (UInt32.ofNat count) =
          .ok (tarfsDirents fs.tar nd.data)[count]? := by
        rw [Fs.readdir, hops]
        dsimp only
        rw [tarfsReaddir, hindex]
      have ih := @listEntries_eq fs nd hops fuel (count + 1) (by omega)
      rw [Fs.listEntries, hread]
      by_cases hlt : count < (tarfsDirents fs.tar nd.data).length
      · rw [getElem?_eq_getElem hlt, drop_eq_getElem_cons hlt, take_succ_cons]
        simp only [bind, Except.bind]
        rw [ih]
      · have hlen := Nat.le_of_not_lt hlt
        rw [getElem?_eq_none hlen, drop_eq_nil_of_le hlen]
        rfl

/-- For every node of the archive and every `max` that an `int` can have, the loop of
`sys_listdir` gives the entries of `tar_listdir`; and with `n` the number of entries that
`tar_listdir` finds when `max` does not stop it, `tarfs_readdir` fails exactly from index `n` on. -/
theorem listings_agree (fs : Fs) (nd : FsNode) (hops : nd.ops = .tarfs) (max : ℤ)
    (hmax : max < 2 ^ 31) :
    fs.listEntries nd max.toNat 0 =
        .ok ((tarListdir fs.tar ((tarfsDirname fs.tar nd.data).getD []) max).map Dirent.ofTar) ∧
      ∃ n : ℕ,
        (∀ k : ℤ, n ≤ k →
          (tarListdir fs.tar ((tarfsDirname fs.tar nd.data).getD []) k).length = n) ∧
        ∀ i : UInt32, fs.readdir nd i = .ok none ↔ n ≤ i.toNat := by
  constructor
  · rw [listEntries_eq hops _ _ (by omega), List.drop_zero, tarfsDirents_eq, tarListdir_eq,
      map_take]
  · refine ⟨(tarfsDirents fs.tar nd.data).length, fun k hk => ?_, fun i => ?_⟩
    · rw [tarfsDirents_eq, length_map] at hk ⊢
      rw [tarListdir_eq, length_take]
      omega
    · rw [Fs.readdir, hops]
      simp [tarfsReaddir]

/-- The root of an archive with a directory `foo` and a file `bar`, cut off after one entry. -/
theorem listings_agree_bar :
    (Fs.empty barArchive.bytes).tarfsInit.listEntries (Fs.rootNode .tarfs) 1 0 =
        .ok [{ name := cstr "foo", type := .dir, size := 0 }] ∧
      ∃ n : ℕ, (tarListdir barArchive.bytes [] 5).length = n ∧ n = 2 ∧
        ∀ i : UInt32, (Fs.empty barArchive.bytes).tarfsInit.readdir (Fs.rootNode .tarfs) i =
          .ok none ↔ 2 ≤ i.toNat := by
  obtain ⟨hlist, n, hn, hread⟩ := listings_agree (Fs.empty barArchive.bytes).tarfsInit
    (Fs.rootNode .tarfs) rfl 1 (by decide)
  have hone : tarListdir barArchive.bytes [] 1 = [{ name := cstr "foo", type := 53, size := 0 }] := by
    decide +kernel
  have hall : ∀ k : ℤ, 2 ≤ k → (tarListdir barArchive.bytes [] k).length = 2 := by
    intro k hk
    have hlen : ((Tar.headers barArchive.bytes).filterMap (tarListdirEntry [])).length = 2 := by
      decide +kernel
    rw [tarListdir_eq, length_take, hlen]
    omega
  have htwo : n = 2 := by
    have hn' := hn (max n 2) (by omega)
    exact hn'.symm.trans (hall _ (by omega))
  refine ⟨hlist.trans ?_, n, htwo ▸ hall 5 (by decide), htwo, htwo ▸ hread⟩
  exact congrArg (fun es => Except.ok (List.map Dirent.ofTar es)) hone

/-! ## Safety -/

/-- Increasing multiples of 512 with the whole header in the archive. -/
structure Tar.Inside (data : List UInt8) (offsets : List ℕ) : Prop where
  increasing : offsets.Pairwise (· < ·)
  block : ∀ o ∈ offsets, 512 ∣ o ∧ o + 512 ≤ data.length

/-- The contents of the entry whose header is at the offset lie in the archive. -/
def Tar.ContentsInside (data : List UInt8) (offset : ℕ) : Prop :=
  offset + 512 + (Tar.headerAt data offset).size ≤ data.length

/-- The root, or the node of a header that the walk passes. -/
def Tar.IsNode (data : List UInt8) (dir : Option ℕ) : Prop :=
  ∀ offset, dir = some offset → ∃ hdr ∈ Tar.headers data, hdr.offset = offset

/-- Every name in the archive ends in its field. -/
def Tar.NamesEnd (data : List UInt8) : Prop :=
  ∀ hdr ∈ Tar.headers data, 0 ∈ (data.drop hdr.offset).take 100

instance (data : List UInt8) : Decidable (Tar.NamesEnd data) :=
  inferInstanceAs (Decidable (∀ _ ∈ _, _))

lemma scan_inside {σ ρ : Type} (data : List UInt8) (guard : σ → Bool)
    (body : σ → Tar.Header → σ ⊕ ρ) (s : σ) : Tar.Inside data (Tar.scan data guard body s).2 :=
  have h := Tar.scanFrom_visits _ 0 s (Nat.dvd_zero _)
  ⟨h.1, fun o ho => (h.2 o ho).2⟩

lemma strlenReads_le_of_mem {s : List UInt8} {n : ℕ} (h : 0 ∈ s.take n) : strlenReads s ≤ n := by
  induction s generalizing n with
  | nil => simp at h
  | cons b s ih =>
    cases n with
    | zero => simp at h
    | succ n =>
      by_cases hb : b = 0
      · simp [strlenReads, hb]
      · rw [strlenReads_cons hb]
        have hmem : 0 ∈ s.take n := by simpa [Ne.symm hb] using h
        exact Nat.succ_le_succ (ih hmem)

lemma strlenReads_headers {data : List UInt8} (hnames : Tar.NamesEnd data) {hdr : Tar.Header}
    (h : hdr ∈ Tar.headers data) : strlenReads (data.drop hdr.offset) ≤ 100 :=
  strlenReads_le_of_mem (hnames hdr h)

section

variable {σ ρ : Type} {data : List UInt8} {guard : σ → Bool} {body : σ → Tar.Header → σ ⊕ ρ}
  {s : σ} {offset : ℕ}

/-- A name that the loop looks at is empty or ends in its field. -/
lemma strlenReads_scan (hnames : Tar.NamesEnd data)
    (ho : offset ∈ (Tar.scan data guard body s).2) : strlenReads (data.drop offset) ≤ 100 := by
  by_cases hname : (Tar.headerAt data offset).name = []
  · have hnil : (data.drop offset).takeWhile (· ≠ 0) = [] := hname
    rw [strlenReads, hnil]
    decide
  · exact strlenReads_headers hnames (Tar.scanFrom_passed _ _ _ offset ho hname).1

lemma contentsInside_scan (hstop : Tar.stop data + 512 ≤ data.length)
    (ho : offset ∈ (Tar.scan data guard body s).2) (hname : (Tar.headerAt data offset).name ≠ []) :
    Tar.ContentsInside data offset := by
  have hle : (Tar.headerAt data offset).next ≤ Tar.stop data :=
    (Tar.scanFrom_passed _ _ _ offset ho hname).2
  have hnext : (Tar.headerAt data offset).next =
      offset + 512 + ((Tar.headerAt data offset).size + 511) / 512 * 512 := rfl
  rw [Tar.ContentsInside]
  omega

end

lemma strlenReads_dir {data : List UInt8} (hnames : Tar.NamesEnd data) {dir : Option ℕ}
    (hdir : Tar.IsNode data dir) {offset : ℕ} (h : dir = some offset) :
    strlenReads (data.drop offset) ≤ 100 := by
  obtain ⟨hdr, hmem, rfl⟩ := hdir offset h
  exact strlenReads_headers hnames hmem

/-- An archive with a name of 101 bytes `a`, one more than the field has. -/
def longNameArchive : List UInt8 := replicate 101 97 ++ replicate 923 0

/-- A header with name `a` and size 1, with nothing behind it. -/
def cutArchive : List UInt8 := 97 :: replicate 123 0 ++ 49 :: replicate 387 0

end CobjOs
