import CobjOs.Framework.Bytes
import CobjOs.Framework.Stream
import CobjOs.Fs.Files
import CobjOs.Fs.TarSpec

/-!
# Reading and writing in memory

`tarfs_read` of `src/fs/tar_vfs.c` and `fb_read` and `fb_write` of `src/fs/dev/fb.c` with the
`memcpy` calls they make.  `Files` describes the same functions by the bytes that are transferred;
here is where the bytes come from and where they go.  The lemmas at the end of the sections say
that the two descriptions agree.

The memory is the one that the calling process sees, and `buf` is an address in it.  Ranges that
lie in the address space do not wrap in it.
-/

namespace CobjOs

open List Stream Ustar

/-! ## Archive files -/

/-- `to_read` in `tarfs_read`. -/
def tarfsToRead (size len off : ℕ) : ℕ := if size < u64 (off + len) then size - off else len

/-- `tarfs_read`, for a node with its header at the address `hdr`. -/
def tarfsReadMem (mem : Mem) (hdr size buf len off : ℕ) : Mem × ℤ :=
  if size ≤ off then (mem, 0)
  else
    let toRead := tarfsToRead size len off
    (mem.copy buf (hdr + 512 + off) toRead, toInt32 toRead)

/-- Without a wrap, the sizes are clamped to what is left. -/
lemma tarfsToRead_eq {size len off : ℕ} (hoff : off < size) (hwrap : off + len < 2 ^ 64) :
    tarfsToRead size len off = min len (size - off) := by
  rw [tarfsToRead, u64, Nat.mod_eq_of_lt hwrap]
  split_ifs <;> omega

lemma tarfsReadMem_eq {size len off : ℕ} (hwrap : off + len < 2 ^ 64) (mem : Mem) (hdr buf : ℕ) :
    tarfsReadMem mem hdr size buf len off =
      (mem.copy buf (hdr + 512 + off) (min len (size - off)), toInt32 (min len (size - off))) := by
  rw [tarfsReadMem]
  split_ifs with hend
  · have hzero : min len (size - off) = 0 := by omega
    rw [hzero]
    rfl
  · rw [tarfsToRead_eq (by omega) hwrap]

lemma drop_place (t : List UInt8) (es : List Entry) (pre : List UInt8) {x : ℕ × Entry}
    (hx : x ∈ place pre.length es) :
    ∃ u, (pre ++ (es.flatMap Entry.bytes ++ t)).drop (x.1 + 512) = x.2.content ++ u := by
  induction es generalizing pre with
  | nil => cases hx
  | cons e es ih =>
    rcases mem_cons.1 hx with rfl | hx
    · refine ⟨replicate (e.blocks * 512 - e.content.length) 0 ++
        (es.flatMap Entry.bytes ++ t), ?_⟩
      have hlen : pre.length + 512 = (pre ++ e.header).length := by
        rw [length_append, e.header_length]
      rw [hlen, flatMap_cons, Entry.bytes]
      simp only [append_assoc]
      rw [← append_assoc pre, drop_left]
    · rw [← length_append] at hx
      obtain ⟨u, hu⟩ := ih (pre ++ e.bytes) hx
      refine ⟨u, ?_⟩
      rw [← hu, flatMap_cons]
      simp only [append_assoc]

lemma Archive.drop_placed {a : Archive} {x : ℕ × Entry} (hx : x ∈ a.placed) :
    ∃ u, a.bytes.drop (x.1 + 512) = x.2.content ++ u :=
  drop_place _ _ [] hx

/-- The bytes that a read of an archive file transfers. -/
lemma tarfsRead_placed {a : Archive} {x : ℕ × Entry} (hx : x ∈ a.placed) {len off : ℕ}
    (hwrap : off + len < 2 ^ 64) :
    tarfsRead a.bytes (tarfsMakeNode (tarHeader x)) len off = piece x.2.content off len := by
  have hsize : (tarfsMakeNode (tarHeader x)).size = x.2.content.length := rfl
  have hdata : (tarfsMakeNode (tarHeader x)).data.getD 0 = x.1 := rfl
  have htoRead : (if x.2.content.length < u64 (off + len) then x.2.content.length - off else len) =
    tarfsToRead x.2.content.length len off := rfl
  obtain ⟨u, hu⟩ := Archive.drop_placed hx
  rw [tarfsRead, hsize, hdata]
  by_cases hend : x.2.content.length ≤ off
  · rw [if_pos hend, piece_of_le hend]
  · have hlt := Nat.lt_of_not_le hend
    have hle : min len (x.2.content.length - off) ≤ (x.2.content.drop off).length := by
      rw [length_drop]
      exact Nat.min_le_right _ _
    rw [if_neg hend]
    dsimp only
    rw [htoRead, tarfsToRead_eq hlt hwrap, ← drop_drop, hu,
      drop_append_of_le_length hlt.le, takeD_eq_take _ (by
        rw [length_append]
        omega), take_append_of_le_length hle]
    exact piece_min _ _ _

/-! ## The frame buffer -/

/-- The fields of `struct limine_framebuffer` that are used. -/
structure Framebuffer where
  address : ℕ
  width : ℕ
  height : ℕ
  pitch : ℕ
  bpp : ℕ
  redMaskSize : ℕ
  redMaskShift : ℕ
  greenMaskSize : ℕ
  greenMaskShift : ℕ
  blueMaskSize : ℕ
  blueMaskShift : ℕ

namespace Framebuffer

variable (fb : Framebuffer) (mem : Mem) (buf len off : ℕ)

/-- The bytes of the `fb_info_t` that `fb_read` fills in. -/
def info : List UInt8 :=
  leBytes 8 fb.width ++ leBytes 8 fb.height ++ leBytes 8 fb.pitch ++ leBytes 2 fb.bpp ++
    leBytes 1 fb.redMaskSize ++ leBytes 1 fb.redMaskShift ++ leBytes 1 fb.greenMaskSize ++
    leBytes 1 fb.greenMaskShift ++ leBytes 1 fb.blueMaskSize ++ leBytes 1 fb.blueMaskShift

/-- `fb_size`. -/
def size : ℕ := u64 (fb.pitch * fb.height)

/-- `fb_read`. -/
def read : Mem × ℤ :=
  if off < fbInfoSize then
    let toCopy := min (fbInfoSize - off) len
    (mem.write buf ((fb.info.drop off).take toCopy), toInt32 toCopy)
  else if fb.size ≤ off - fbInfoSize then (mem, 0)
  else
    let toCopy := min (fb.size - (off - fbInfoSize)) len
    (mem.copy buf (fb.address + (off - fbInfoSize)) toCopy, toInt32 toCopy)

/-- `fb_write`. -/
def write : Mem × ℤ :=
  if off < fbInfoSize then (mem, -1)
  else if fb.size ≤ off - fbInfoSize then (mem, 0)
  else
    let toWrite := min (fb.size - (off - fbInfoSize)) len
    (mem.copy (fb.address + (off - fbInfoSize)) buf toWrite, toInt32 toWrite)

/-- The pixels. -/
def pixels : List UInt8 := mem.read fb.address fb.size

/-- What the device looks like to its readers: the description, then the pixels. -/
def stream : List UInt8 := fb.info ++ fb.pixels mem

/-- The frame buffer as `Files` has it. -/
def toIo (io : Io) : Io := { io with fbInfo := fb.info, fbData := fb.pixels mem }

variable {fb mem buf len off}

@[simp]
lemma length_info : fb.info.length = fbInfoSize := by simp [info, fbInfoSize]

@[simp]
lemma length_pixels : (fb.pixels mem).length = fb.size := Mem.length_read

lemma length_stream : (fb.stream mem).length = fbInfoSize + fb.size := by simp [stream]

/-- Behind the description are the pixels. -/
lemma drop_stream (hoff : fbInfoSize ≤ off) :
    (fb.stream mem).drop off = (fb.pixels mem).drop (off - fbInfoSize) := by
  rw [stream, drop_append, length_info, drop_eq_nil_of_le (by rwa [length_info]),
    nil_append]

/-- How many bytes a read transfers: it stops at the end of the description. -/
def count (fb : Framebuffer) (len off : ℕ) : ℕ :=
  if off < fbInfoSize then min (fbInfoSize - off) len else min (fb.size - (off - fbInfoSize)) len

lemma count_le : fb.count len off ≤ len := by
  rw [count]
  split_ifs <;> omega

/-- The bytes that `fb_read` transfers are a piece of the stream. -/
lemma fbRead_eq (io : Io) :
    fbRead (fb.toIo mem io) len off = piece (fb.stream mem) off (fb.count len off) := by
  have hinfo : (fb.toIo mem io).fbInfo = fb.info := rfl
  have hdata : (fb.toIo mem io).fbData = fb.pixels mem := rfl
  rw [fbRead, hinfo, hdata, count, piece]
  split_ifs with h
  · have hlen : min (fbInfoSize - off) len ≤ (fb.info.drop off).length := by
      rw [length_drop, length_info]
      omega
    rw [stream, takeD_eq_take _ hlen,
      drop_append_of_le_length (by rw [length_info]; omega),
      take_append_of_le_length hlen]
  · have hmin := piece_min (fb.pixels mem) (off - fbInfoSize) len
    rw [length_pixels, Nat.min_comm] at hmin
    rw [drop_stream (Nat.le_of_not_lt h)]
    exact hmin.symm

lemma length_fbRead (io : Io) : (fbRead (fb.toIo mem io) len off).length = fb.count len off := by
  rw [fbRead_eq, length_piece, length_stream, count]
  split_ifs <;> omega

/-- The range does not meet the pixels. -/
def Apart (fb : Framebuffer) (a n : ℕ) : Prop := a + n ≤ fb.address ∨ fb.address + fb.size ≤ a

lemma read_eq (io : Io) (hbuf : fb.Apart buf (fb.count len off)) :
    fb.read mem buf len off = (mem.write buf (fbRead (fb.toIo mem io) len off),
      toInt32 (fbRead (fb.toIo mem io) len off).length) := by
  rw [length_fbRead, fbRead_eq, read, count, piece]
  rw [count] at hbuf
  split_ifs at hbuf ⊢ with hoff hend
  · have hlen : min (fbInfoSize - off) len ≤ (fb.info.drop off).length := by
      rw [length_drop, length_info]
      omega
    rw [stream, drop_append_of_le_length (by rw [length_info]; omega),
      take_append_of_le_length hlen]
  · have hzero : min (fb.size - (off - fbInfoSize)) len = 0 := by omega
    rw [hzero, take_zero]
    refine Prod.ext ?_ rfl
    funext x
    simp [Mem.write]
  · rw [drop_stream (Nat.le_of_not_lt hoff), pixels, ← Mem.read_sub (by omega)]
    refine Prod.ext (Mem.copy_eq_write ?_) rfl
    unfold Apart at hbuf
    omega

/-- How many bytes a write transfers. -/
def room (fb : Framebuffer) (len off : ℕ) : ℕ := min (fb.size - (off - fbInfoSize)) len

lemma room_le : fb.room len off ≤ fb.size - (off - fbInfoSize) := Nat.min_le_left _ _

/-- Behind the description, `fb_write` copies what has room. -/
lemma write_eq (hoff : fbInfoSize ≤ off) : fb.write mem buf len off =
    (mem.copy (fb.address + (off - fbInfoSize)) buf (fb.room len off),
      toInt32 (fb.room len off)) := by
  rw [write, if_neg (Nat.not_lt_of_le hoff), room]
  split_ifs with hend
  · have hzero : min (fb.size - (off - fbInfoSize)) len = 0 := by omega
    rw [hzero]
    rfl
  · rfl

end Framebuffer

end CobjOs
