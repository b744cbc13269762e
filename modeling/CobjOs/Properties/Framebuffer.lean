import CobjOs.Fs.Transfer

/-!
# The frame buffer as a stream

The device shows its description and then its pixels as one stream of bytes.  `fb_read` answers
with a piece of it, which ends at the border between the two at the latest, so a reader that goes
on from where it was comes to the whole stream.  `fb_write` changes the pixels at its position
and nothing else.

The buffer of the caller does not overlap the pixels, as `memcpy` asks for; only the bytes that are
transferred count for that.
-/

namespace CobjOs

open Mem Stream

namespace Framebuffer

variable {fb : Framebuffer} {mem : Mem} {buf len off : ℕ}

/-- A loop that reads on from an offset, with the given sizes: the bytes it collects. -/
def readOn (fb : Framebuffer) (buf : ℕ) : List ℕ → ℕ → Mem → List UInt8
  | [], _, _ => []
  | len :: lens, off, mem =>
    let r := fb.read mem buf len off
    r.1.read buf r.2.toNat ++ readOn fb buf lens (off + r.2.toNat) r.1

lemma size_eq (hsize : fb.pitch * fb.height < 2 ^ 31) : fb.size = fb.pitch * fb.height :=
  Nat.mod_eq_of_lt (by omega)

lemma size_lt (hsize : fb.pitch * fb.height < 2 ^ 31) : fb.size < 2 ^ 31 :=
  size_eq hsize ▸ hsize

lemma count_lt (hsize : fb.size < 2 ^ 31) : fb.count len off < 2 ^ 31 := by
  have hinfo : fbInfoSize = 32 := rfl
  rw [count]
  split_ifs <;> omega

lemma readsAt_count :
    ReadsAt (fb.stream mem) off len (piece (fb.stream mem) off (fb.count len off)) where
  initial := List.take_prefix _ _
  le := by
    rw [length_piece]
    exact (Nat.min_le_left _ _).trans count_le
  pos := by
    rw [length_piece, length_stream, count]
    split_ifs <;> omega

lemma read_piece (hsize : fb.size < 2 ^ 31) (hbuf : fb.Apart buf (fb.count len off)) :
    fb.read mem buf len off =
      (mem.write buf (piece (fb.stream mem) off (fb.count len off)),
        ((piece (fb.stream mem) off (fb.count len off)).length : ℤ)) := by
  have io : Io := ⟨fun _ => 0, [], [], []⟩
  have hread := @read_eq fb mem buf len off io hbuf
  have hlen := @length_fbRead fb mem len off io
  rw [hlen, fbRead_eq, toInt32_eq (count_lt hsize)] at hread
  rw [fbRead_eq] at hlen
  rw [hread, hlen]

/-- A write outside the pixels leaves the stream. -/
lemma stream_write {bs : List UInt8} (h : fb.Apart buf bs.length) :
    fb.stream (mem.write buf bs) = fb.stream mem := by
  have hpixels : fb.pixels (mem.write buf bs) = fb.pixels mem := by
    refine read_congr fun x h₁ h₂ => EqOff.write mem (fun x hx => hx) x fun hx => ?_
    unfold Within at hx
    unfold Apart at h
    omega
  rw [stream, stream, hpixels]

lemma readsOn_readOn (hsize : fb.size < 2 ^ 31) : ∀ (lens : List ℕ) (off : ℕ) (mem : Mem),
    (∀ len ∈ lens, ∀ off, fb.Apart buf (fb.count len off)) →
    ReadsOn (fb.stream mem) off lens (fb.readOn buf lens off mem)
  | [], _, _, _ => .nil
  | len :: lens, off, mem, hbuf => by
      have hapart := hbuf len (by simp) off
      have hread := @read_piece fb mem buf len off hsize hapart
      have hlen : (piece (fb.stream mem) off (fb.count len off)).length ≤ fb.count len off := by
        rw [length_piece]
        exact Nat.min_le_left _ _
      have hstream : fb.stream (mem.write buf (piece (fb.stream mem) off (fb.count len off))) =
          fb.stream mem := by
        refine stream_write ?_
        unfold Apart at hapart ⊢
        omega
      have ih := readsOn_readOn hsize lens
        (off + (piece (fb.stream mem) off (fb.count len off)).length)
        (mem.write buf (piece (fb.stream mem) off (fb.count len off)))
        fun len hmem => hbuf len (by simp [hmem])
      rw [hstream] at ih
      have hone : fb.readOn buf (len :: lens) off mem =
          piece (fb.stream mem) off (fb.count len off) ++
            fb.readOn buf lens (off + (piece (fb.stream mem) off (fb.count len off)).length)
              (mem.write buf (piece (fb.stream mem) off (fb.count len off))) := by
        rw [readOn, hread, Int.toNat_natCast, read_write]
      rw [hone]
      exact .cons readsAt_count ih

lemma read_back {n : ℕ} {bs : List UInt8} (hsize : fb.size < 2 ^ 31) (hoff : fbInfoSize ≤ off)
    (hn : n ≤ fb.size - (off - fbInfoSize)) (hbuf : fb.Apart buf n)
    (hbs : mem.read (fb.address + (off - fbInfoSize)) n = bs) :
    fb.read mem buf n off = (mem.write buf bs, (n : ℤ)) := by
  have hcount : fb.count n off = n := by
    rw [count, if_neg (Nat.not_lt_of_le hoff)]
    exact Nat.min_eq_right hn
  have hpiece : piece (fb.stream mem) off n = bs := by
    by_cases hzero : n = 0
    · subst hzero
      exact hbs
    · rw [piece, drop_stream hoff, pixels, ← read_sub (by omega), hbs]
  have hlen : bs.length = n := by rw [← hbs, length_read]
  have hread := @read_piece fb mem buf n off hsize (by rwa [hcount])
  rw [hcount, hpiece, hlen] at hread
  exact hread

/-- For a frame buffer of less than `2 ^ 31` bytes:

* a read answers with a piece of the stream at its offset, and changes only the buffer;
* reading on collects a part of the stream without gaps, and all of it after enough reads;
* a write into the description is refused;
* a write behind it changes exactly the bytes that have room, which lie in the frame buffer, to
  those of the buffer, and a later read returns them. -/
theorem framebuffer_is_a_byte_stream (fb : Framebuffer) (hsize : fb.pitch * fb.height < 2 ^ 31)
    (mem : Mem) :
    (fb.stream mem).length = fbInfoSize + fb.pitch * fb.height ∧
    (∀ buf len off, fb.Apart buf (fb.count len off) →
      ∃ bs, ReadsAt (fb.stream mem) off len bs ∧
        fb.read mem buf len off = (mem.write buf bs, (bs.length : ℤ))) ∧
    (∀ buf lens off, (∀ len ∈ lens, ∀ off, fb.Apart buf (fb.count len off)) →
      fb.readOn buf lens off mem <+: (fb.stream mem).drop off ∧
      ((∀ len ∈ lens, 0 < len) → (fb.stream mem).length - off ≤ lens.length →
        fb.readOn buf lens off mem = (fb.stream mem).drop off)) ∧
    (∀ buf len off, off < fbInfoSize → fb.write mem buf len off = (mem, -1)) ∧
    ∀ buf len off, fbInfoSize ≤ off →
      ∃ (n : ℕ) (mem' : Mem), n = min len ((fb.stream mem).length - off) ∧
        fb.write mem buf len off = (mem', (n : ℤ)) ∧
        mem.EqOff (Within (fb.address + (off - fbInfoSize)) n) mem' ∧
        (∀ x, Within (fb.address + (off - fbInfoSize)) n x →
          Within fb.address (fb.pitch * fb.height) x) ∧
        (fb.Apart buf n →
          mem'.read (fb.address + (off - fbInfoSize)) n = mem.read buf n ∧
          ∀ buf', fb.Apart buf' n →
            fb.read mem' buf' n off = (mem'.write buf' (mem.read buf n), (n : ℤ))) := by
  have hlt := size_lt hsize
  have hlen : (fb.stream mem).length = fbInfoSize + fb.pitch * fb.height := by
    rw [length_stream, size_eq hsize]
  refine ⟨hlen, fun buf len off hbuf => ⟨_, readsAt_count, read_piece hlt hbuf⟩,
    fun buf lens off hbuf => ?_, fun buf len off hoff => if_pos hoff, fun buf len off hoff => ?_⟩
  · have hon := readsOn_readOn hlt lens off mem hbuf
    exact ⟨hon.initial, hon.all⟩
  · have hroom : fb.room len off = min len ((fb.stream mem).length - off) := by
      rw [room, length_stream]
      omega
    have hle := @room_le fb len off
    refine ⟨_, mem.copy (fb.address + (off - fbInfoSize)) buf (fb.room len off), hroom, ?_,
      EqOff.copy mem, fun x hx => ?_, fun hbuf => ?_⟩
    · rw [write_eq hoff, toInt32_eq (by omega)]
    · unfold Within at hx ⊢
      rw [← size_eq hsize]
      omega
    · have hcopied : (mem.copy (fb.address + (off - fbInfoSize)) buf (fb.room len off)).read
          (fb.address + (off - fbInfoSize)) (fb.room len off) = mem.read buf (fb.room len off) :=
        read_copy (by unfold Apart at hbuf; omega)
      refine ⟨hcopied, fun buf' hbuf' => ?_⟩
      exact read_back hlt hoff hle hbuf' hcopied

/-- Two rows of two pixels. -/
def small : Framebuffer where
  address := 0x1000
  width := 2
  height := 2
  pitch := 8
  bpp := 32
  redMaskSize := 8
  redMaskShift := 16
  greenMaskSize := 8
  greenMaskShift := 8
  blueMaskSize := 8
  blueMaskShift := 0

/-- A pixel is written over the end of the first row and read back, and the stream is read in
pieces of 20 bytes. -/
theorem framebuffer_is_a_byte_stream_small :
    (∃ mem', small.write (fun x => UInt8.ofNat x) 0x100 4 38 = (mem', 4) ∧
      small.read mem' 0x200 4 38 = (mem'.write 0x200 [0, 1, 2, 3], 4)) ∧
    small.readOn 0x200 (List.replicate 48 20) 0 (fun x => UInt8.ofNat x) =
      small.stream fun x => UInt8.ofNat x := by
  obtain ⟨hlen, -, hon, -, hwrite⟩ := framebuffer_is_a_byte_stream small (by decide)
    (fun x => UInt8.ofNat x)
  constructor
  · obtain ⟨n, mem', hn, hmem', -, -, hback⟩ := hwrite 0x100 4 38 (by decide)
    rw [hlen] at hn
    obtain rfl : n = 4 := hn
    exact ⟨mem', hmem', (hback (.inl (by decide))).2 0x200 (.inl (by decide))⟩
  · refine (hon 0x200 (List.replicate 48 20) 0 fun len hmem off => .inl ?_).2
      (fun len hmem => ?_) ?_
    · have hle := @count_le small len off
      obtain rfl := List.eq_of_mem_replicate hmem
      have haddr : small.address = 0x1000 := rfl
      omega
    · rw [List.eq_of_mem_replicate hmem]
      decide
    · rw [hlen, List.length_replicate]
      decide

end Framebuffer

end CobjOs
