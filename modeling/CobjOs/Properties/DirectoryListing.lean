import CobjOs.Properties.ArchiveResolution

/-!
# Listing a directory and looking its names up

`tarfs_readdir` and `tarfs_lookup` walk the same headers with different tests.  The first takes a
header whose name starts with the directory's path, whatever follows; the second compares whole
names.  The two agree on a directory whose path no name of the archive continues with another
character than a slash.  A file `foobar` beside a directory `foo` is listed in `foo` as `bar`.
-/

namespace CobjOs

open List Ustar

/-- `ents` is what the calls with index `0`, `1`, ... return before the first `-1`. -/
structure Enumerates (readdir : UInt32 → Option Dirent) (ents : List Dirent) : Prop where
  entry : ∀ i : ℕ, i < ents.length → readdir (UInt32.ofNat i) = ents[i]?
  stop : readdir (UInt32.ofNat ents.length) = none

variable {a : Archive} {dir : Option ℕ} {P : List CStr} {n : CStr}

/-- No name of the archive continues the path with another character than a slash. -/
def NoExtension (a : Archive) (P : List CStr) : Prop :=
  P ≠ [] → ∀ e ∈ a.entries, ∀ c t, e.name = join P ++ c :: t → c = slash

lemma tarfsDirents_bytes (h : DirAt a dir P) :
    tarfsDirents a.bytes dir = a.placed.filterMap fun x => tarfsDirent (join P) (tarHeader x) := by
  rw [tarfsDirents, headers_bytes, h.dirname, filterMap_map]
  rfl

lemma enumerates_dirents (h : DirAt a dir P) (hcount : a.entries.length < 2 ^ 32) :
    Enumerates (tarfsReaddir a.bytes dir) (tarfsDirents a.bytes dir) := by
  have hlen : (tarfsDirents a.bytes dir).length < 2 ^ 32 := by
    refine lt_of_le_of_lt ?_ hcount
    rw [tarfsDirents_bytes h, ← place_map_snd 0 a.entries, length_map]
    exact length_filterMap_le _ _
  have hindex : ∀ i : ℕ, i ≤ (tarfsDirents a.bytes dir).length → (UInt32.ofNat i).toNat = i :=
    fun i hi => UInt32.toNat_ofNat_of_lt' (lt_of_le_of_lt hi hlen)
  constructor
  · intro i hi
    rw [tarfsReaddir, hindex i hi.le]
  · rw [tarfsReaddir, hindex _ le_rfl]
    exact getElem?_eq_none le_rfl

/-- A header that is listed is that of an entry of the directory. -/
lemma path_of_listed (h : DirAt a dir P) (hext : NoExtension a P) {x : ℕ × Entry}
    (hx : x ∈ a.placed) {ent : Dirent} (hent : tarfsDirent (join P) (tarHeader x) = some ent) :
    x.2.path = P ++ [ent.name] ∧ ent.type = (tarHeader x).nodeType ∧
      ent.size = (tarHeader x).size := by
  obtain ⟨n, hn⟩ := path_of_tarfsDirent h.comps.1 hent
    fun hP => hext hP x.2 (Archive.mem_entries hx)
  obtain rfl := Option.some.inj ((tarfsDirent_entry hn).symm.trans hent)
  exact ⟨hn, rfl, rfl⟩

lemma mem_tarfsDirents (h : DirAt a dir P) (hext : NoExtension a P) {ent : Dirent} :
    ent ∈ tarfsDirents a.bytes dir ↔ ∃ x ∈ a.placed, x.2.path = P ++ [ent.name] ∧
      ent.type = (tarHeader x).nodeType ∧ ent.size = (tarHeader x).size := by
  rw [tarfsDirents_bytes h, mem_filterMap]
  constructor
  · rintro ⟨x, hx, hent⟩
    exact ⟨x, hx, path_of_listed h hext hx hent⟩
  · rintro ⟨x, hx, hn, htype, hsize⟩
    refine ⟨x, hx, ?_⟩
    rw [tarfsDirent_entry hn, ← htype, ← hsize]

/-- No name is listed twice: the paths of the entries differ. -/
lemma nodup_tarfsDirents (h : DirAt a dir P) (hext : NoExtension a P) :
    ((tarfsDirents a.bytes dir).map Dirent.name).Nodup := by
  have hpaths : a.placed.Pairwise fun x y => x.2.path ≠ y.2.path := by
    have hunique := a.unique
    rwa [← place_map_snd 0 a.entries, map_map, List.Nodup, pairwise_map] at hunique
  rw [tarfsDirents_bytes h, List.Nodup, pairwise_map, pairwise_filterMap]
  refine hpaths.imp_of_mem fun {x y} hx hy hne ent hent ent' hent' heq => hne ?_
  rw [(path_of_listed h hext hx hent).1, (path_of_listed h hext hy hent').1, heq]

/-- The entry of a directory `foo` in the root. -/
def fooEntry : Entry :=
  Entry.plain [cstr "foo"] true [] (by decide) (by decide) etcEntry.dir_content

/-- A directory `foo` and an empty file beside it. -/
def fooArchive (file : CStr) (hname : IsName file) (hlen : file.length ≤ 98)
    (hne : file ≠ cstr "foo") : Archive where
  entries :=
    [fooEntry, Entry.plain [file] false [] (by simpa using ⟨hname.1, hname.2, hname.3⟩)
      ⟨by rwa [join_singleton], by decide⟩ (by decide)]
  zeros := 2
  unique := by
    change [[cstr "foo"], [file]].Nodup
    simpa using Ne.symm hne
  parents e he p q hpq hp hq := by
    have hone : e.path.length = 1 := by
      rcases mem_cons.1 he with rfl | he
      · rfl
      · rw [mem_singleton.1 he]
        rfl
    have hp := length_pos_iff.2 hp
    have hq := length_pos_iff.2 hq
    rw [hpq, length_append] at hone
    omega

/-- `foo` and `bar`. -/
def barArchive : Archive :=
  fooArchive (cstr "bar") ⟨by decide, by decide, by decide⟩ (by decide) (by decide)

/-- `foo` and `foobar`. -/
def foobarArchive : Archive :=
  fooArchive (cstr "foobar") ⟨by decide, by decide, by decide⟩ (by decide) (by decide)

lemma noExtension_barArchive : NoExtension barArchive [cstr "foo"] := by
  intro _ e he c t hname
  rcases mem_cons.1 he with rfl | he
  · have hfoo : fooEntry.name = join [cstr "foo"] ++ [slash] := by decide
    rw [hfoo] at hname
    exact (List.cons.inj (append_cancel_left hname)).1.symm
  · rw [mem_singleton.1 he] at hname
    have hhead : some (98 : UInt8) = some 102 := congrArg List.head? hname
    exact absurd hhead (by decide)

end CobjOs
