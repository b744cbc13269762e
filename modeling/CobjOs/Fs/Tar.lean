import CobjOs.Kernel.State

/-!
# The archive

`src/fs/tar.c` and the read-only parts of `src/fs/tar_vfs.c`.  The archive is the list of its
bytes; a C string is the list of its bytes before the terminating NUL, and a pointer to a header is
the header's offset.  An archive is far shorter than the address space, so the offsets do not wrap.

`tarfs_lookup` and `tarfs_readdir` walk the archive with one loop, `Tar.headers`; `tar_find` and
`tar_listdir` have a copy of it each.  `Tar.scan` is the loop with its exits and with a record of
the offsets at which it looked at a header.
-/

namespace CobjOs

/-- The bytes of a C string, without the NUL. -/
abbrev CStr := List UInt8

def slash : UInt8 := 47
def colon : UInt8 := 58

/-- A string of the source. -/
def cstr (s : String) : CStr := s.toList.map fun c => UInt8.ofNat c.toNat

/-- `s[i]`, for an index up to the NUL. -/
def charAt (s : CStr) (i : ℕ) : UInt8 := s.getD i 0

/-- `strncmp(s, t, n) == 0`. -/
def strncmpEq (s t : CStr) (n : ℕ) : Bool := s.take n == t.take n

/-- Without one trailing slash. -/
def stripSlash (s : CStr) : CStr := if s.getLast? = some slash then s.dropLast else s

/-- `dirent_t`. -/
structure Dirent where
  name : CStr
  type : NodeType
  size : ℕ
  deriving DecidableEq, Repr

namespace Tar

/-- `tar_parse_octal`. -/
def parseOctal (s : List UInt8) (len : ℕ) : ℕ :=
  ((s.take len).takeWhile fun c => 48 ≤ c && c ≤ 55).foldl (fun val c => val * 8 + (c.toNat - 48)) 0

/-- The fields of `tar_header_t` that are read, and where the header is. -/
structure Header where
  offset : ℕ
  name : CStr
  size : ℕ
  type : UInt8
  deriving DecidableEq, Repr

/-- The header at an offset: `name` at 0, `size` at 124, `type` at 156. -/
def headerAt (data : List UInt8) (offset : ℕ) : Header :=
  { offset := offset
    name := (data.drop offset).takeWhile (· ≠ 0)
    size := parseOctal (data.drop (offset + 124)) 12
    type := data.getD (offset + 156) 0 }

/-- The loop over the archive.  Every turn advances by 512 at least, which bounds the turns. -/
def walk (data : List UInt8) : ℕ → ℕ → List Header
  | 0, _ => []
  | fuel + 1, offset =>
    if offset + 512 ≤ data.length then
      let hdr := headerAt data offset
      if hdr.name = [] then []
      else hdr :: walk data fuel (offset + 512 + (hdr.size + 511) / 512 * 512)
    else []

/-- The headers that the loop passes. -/
def headers (data : List UInt8) : List Header := walk data (data.length / 512 + 1) 0

def Header.nodeType (hdr : Header) : NodeType := if hdr.type = 53 then .dir else .file

/-- The header behind the one at `hdr.offset`. -/
def Header.next (hdr : Header) : ℕ := hdr.offset + 512 + (hdr.size + 511) / 512 * 512

/-- The loop over the archive with its exits.  `guard` is what the condition of the loop asks
besides the bounds, and `body` returns from the function or goes on.  Beside the result are the
offsets at which a header was looked at. -/
def scanFrom {σ ρ : Type} (data : List UInt8) (guard : σ → Bool) (body : σ → Header → σ ⊕ ρ) :
    ℕ → ℕ → σ → (σ ⊕ ρ) × List ℕ
  | 0, _, s => (.inl s, [])
  | fuel + 1, offset, s =>
    if offset + 512 ≤ data.length ∧ guard s then
      let hdr := headerAt data offset
      if hdr.name = [] then (.inl s, [offset])
      else
        match body s hdr with
        | .inr r => (.inr r, [offset])
        | .inl s =>
          let r := scanFrom data guard body fuel hdr.next s
          (r.1, offset :: r.2)
    else (.inl s, [])

def scan {σ ρ : Type} (data : List UInt8) (guard : σ → Bool) (body : σ → Header → σ ⊕ ρ) (s : σ) :
    (σ ⊕ ρ) × List ℕ :=
  scanFrom data guard body (data.length / 512 + 1) 0 s

end Tar

/-! ## `tarfs` -/

/-- `tarfs_make_node`. -/
def tarfsMakeNode (hdr : Tar.Header) : FsNode :=
  { type := hdr.nodeType, ops := .tarfs, data := some hdr.offset, size := hdr.size, refcount := 1 }

/-- The directory's path in `tarfs_lookup` and `tarfs_readdir`: the name in its header without a
trailing slash, or nothing for the root. -/
def tarfsDirname (data : List UInt8) (dir : Option ℕ) : Option CStr :=
  dir.map fun offset => stripSlash (Tar.headerAt data offset).name

/-- `fullpath` in `tarfs_lookup`; `snprintf` and `strncpy` cut it to the size of the buffer. -/
def tarfsFullpath (data : List UInt8) (dir : Option ℕ) (name : CStr) : CStr :=
  match tarfsDirname data dir with
  | some dirname => (dirname ++ [slash] ++ name).take 255
  | none => name.take 256

/-- The condition under which `tarfs_lookup` takes a header. -/
def tarfsMatches (fullpath : CStr) (hdr : Tar.Header) : Bool :=
  hdr.name == fullpath ||
    (hdr.type == 53 && strncmpEq hdr.name fullpath fullpath.length &&
      charAt hdr.name fullpath.length == slash && charAt hdr.name (fullpath.length + 1) == 0)

/-- `tarfs_lookup`, up to the node made for the header. -/
def tarfsLookup (data : List UInt8) (dir : Option ℕ) (name : CStr) : Option Tar.Header :=
  (Tar.headers data).find? (tarfsMatches (tarfsFullpath data dir name))

/-- `relative` in `tarfs_readdir`: a name that starts with the directory's path, without that and
without a slash behind it. -/
def tarfsRelative (path name : CStr) : Option CStr :=
  if path.length = 0 || strncmpEq name path path.length then
    let relative := name.drop path.length
    some (if charAt relative 0 = slash then relative.tail else relative)
  else none

/-- Whether the rest of a name is a single component, up to a slash at its end. -/
def tarfsListed (relative : CStr) : Bool :=
  relative ≠ [] && (slash ∉ relative || relative.idxOf slash = relative.length - 1)

/-- The entry that `tarfs_readdir` makes of a header, if the header counts. -/
def tarfsDirent (path : CStr) (hdr : Tar.Header) : Option Dirent :=
  (tarfsRelative path hdr.name).bind fun relative =>
    if tarfsListed relative then
      some { name := (stripSlash relative).take 99, type := hdr.nodeType, size := hdr.size }
    else none

/-- All entries that `tarfs_readdir` counts. -/
def tarfsDirents (data : List UInt8) (dir : Option ℕ) : List Dirent :=
  (Tar.headers data).filterMap (tarfsDirent ((tarfsDirname data dir).getD []))

/-- `tarfs_readdir`: the entry with the given number, or `none` for `-1`. -/
def tarfsReaddir (data : List UInt8) (dir : Option ℕ) (index : UInt32) : Option Dirent :=
  (tarfsDirents data dir)[index.toNat]?

/-! ## `tar_find` and `tar_listdir` -/

/-- A turn of `tar_find`: where the contents are, and the size. -/
def tarFindBody (name : CStr) (_ : Unit) (hdr : Tar.Header) : Unit ⊕ (ℕ × ℕ) :=
  if (hdr.type = 48 ∨ hdr.type = 0) ∧ hdr.name = name then .inr (hdr.offset + 512, hdr.size)
  else .inl ()

/-- The loop of `tar_find`. -/
def tarFindScan (data : List UInt8) (name : CStr) : (Unit ⊕ (ℕ × ℕ)) × List ℕ :=
  Tar.scan data (fun _ => true) (tarFindBody name) ()

/-- `tar_find`. -/
def tarFind (data : List UInt8) (name : CStr) : Option (ℕ × ℕ) := (tarFindScan data name).1.getRight?

/-- `tar_entry_t`. -/
structure TarEntry where
  name : CStr
  type : UInt8
  size : ℕ
  deriving DecidableEq, Repr

/-- The entry that `tar_listdir` makes of a header, if the header counts. -/
def tarListdirEntry (path : CStr) (hdr : Tar.Header) : Option TarEntry :=
  (tarfsRelative path hdr.name).bind fun relative =>
    if tarfsListed relative then
      some { name := (stripSlash relative).take 99, type := if hdr.type = 53 then 53 else 48,
             size := hdr.size }
    else none

/-- A turn of `tar_listdir`; `count` is the number of entries so far. -/
def tarListdirBody (path : CStr) (entries : List TarEntry) (hdr : Tar.Header) :
    List TarEntry ⊕ Empty :=
  .inl (entries ++ (tarListdirEntry path hdr).toList)

/-- The loop of `tar_listdir`. -/
def tarListdirScan (data : List UInt8) (path : CStr) (max : Int) :
    (List TarEntry ⊕ Empty) × List ℕ :=
  Tar.scan data (fun entries => decide ((entries.length : Int) < max)) (tarListdirBody path) []

/-- `tar_listdir`: the entries that are filled in; their number is the result. -/
def tarListdir (data : List UInt8) (path : CStr) (max : Int) : List TarEntry :=
  (tarListdirScan data path max).1.elim id nofun

end CobjOs
