import CobjOs.Misc.MemOps

/-!
# The memory routines do what their names say

Each of the loops over words or up to an aligned address leaves the rest to a loop over bytes, which
does what the byte loop would have done from the start.  For a copy this needs that the two words of
a turn are equal or apart, and they are between aligned addresses.

The byte loops themselves are `Mem.fill` and `Mem.copy` as long as the addresses do not wrap around.
-/

namespace CobjOs

open Function

namespace Mem

variable {mem : Mem} {p q d s : UInt64} {b c : UInt8} {n : ℕ} {dir : Dir}

/-! ## Words and bytes -/

lemma isAligned_iff : isAligned p = true ↔ p.toNat % 4 = 0 := by
  rw [isAligned, beq_iff_eq, ← UInt64.toNat_inj, UInt64.toNat_and]
  exact (congrArg (· = 0) (Nat.and_two_pow_sub_one_eq_mod p.toNat 2)).to_iff

lemma isAligned_add_four (hp : isAligned p) : isAligned (p + 4) := by
  rw [isAligned_iff, UInt64.toNat_add]
  rw [isAligned_iff] at hp
  have hfour : UInt64.toNat 4 = 4 := rfl
  omega

lemma isAligned_sub_four (hp : isAligned p) : isAligned (p - 4) := by
  rw [isAligned_iff, UInt64.toNat_sub]
  rw [isAligned_iff] at hp
  have hfour : UInt64.toNat 4 = 4 := rfl
  omega

lemma isAligned_next (hp : isAligned p) (dir : Dir) : isAligned (dir.next 4 p) := by
  cases dir
  · exact isAligned_add_four hp
  · exact isAligned_sub_four hp

/-- A word does not wrap around. -/
lemma toNat_add_of_aligned (hp : isAligned p) :
    (p + 1).toNat = p.toNat + 1 ∧ (p + 2).toNat = p.toNat + 2 ∧ (p + 3).toNat = p.toNat + 3 := by
  have hlt := p.toNat_lt
  rw [isAligned_iff] at hp
  simp only [UInt64.toNat_add]
  have h1 : UInt64.toNat 1 = 1 := rfl
  have h2 : UInt64.toNat 2 = 2 := rfl
  have h3 : UInt64.toNat 3 = 3 := rfl
  omega

lemma load_store_of_ne (h : p.toNat ≠ q.toNat) : (mem.store p b).load q = mem.load q :=
  update_of_ne h.symm ..

lemma toNat_load32 (mem : Mem) (p : UInt64) : (mem.load32 p).toNat = mem.readNat 4 p.toNat :=
  UInt32.toNat_ofNat_of_lt' (mem.readNat_lt 4 p.toNat)

lemma read_four (hp : isAligned p) : mem.read p.toNat 4 =
    [mem.load p, mem.load (p + 1), mem.load (p + 2), mem.load (p + 3)] := by
  obtain ⟨h1, h2, h3⟩ := toNat_add_of_aligned hp
  simp only [load, h1, h2, h3]
  rfl

lemma leBytes_load32 (hp : isAligned p) : leBytes 4 (mem.load32 p).toNat =
    [mem.load p, mem.load (p + 1), mem.load (p + 2), mem.load (p + 3)] := by
  rw [toNat_load32, readNat, ← read_four hp]
  exact leBytes_leNat (by simp)

lemma load32_eq_iff (hp : isAligned p) (hq : isAligned q) : mem.load32 p = mem.load32 q ↔
    mem.load p = mem.load q ∧ mem.load (p + 1) = mem.load (q + 1) ∧
      mem.load (p + 2) = mem.load (q + 2) ∧ mem.load (p + 3) = mem.load (q + 3) := by
  constructor
  · intro h
    have hbytes := congrArg (fun w : UInt32 => leBytes 4 w.toNat) h
    simp only [leBytes_load32 hp, leBytes_load32 hq] at hbytes
    simpa using hbytes
  · rintro ⟨h0, h1, h2, h3⟩
    rw [load32, load32, readNat, readNat, read_four hp, read_four hq, h0, h1, h2, h3]

lemma store32_eq {val : UInt32} {b₀ b₁ b₂ b₃ : UInt8} (hp : isAligned p)
    (hval : leBytes 4 val.toNat = [b₀, b₁, b₂, b₃]) : mem.store32 p val =
      (((mem.store p b₀).store (p + 1) b₁).store (p + 2) b₂).store (p + 3) b₃ := by
  obtain ⟨h1, h2, h3⟩ := toNat_add_of_aligned hp
  funext x
  simp only [store32, writeNat, hval, write, store, update_apply, h1, h2, h3,
    List.length_cons, List.length_nil]
  obtain hx | ⟨i, rfl⟩ := Nat.lt_or_ge x p.toNat |>.imp_right Nat.exists_eq_add_of_le
  · have hne : ∀ i, x ≠ p.toNat + i := fun i => by omega
    simp [hne, Nat.ne_of_lt hx, Nat.not_le_of_lt hx]
  · rcases i with _ | _ | _ | _ | i <;> simp

/-! ## Filling -/

lemma leBytes_fillWord (c : UInt8) : leBytes 4 (fillWord c).toNat = [c, c, c, c] := by
  have hall : ∀ n < 256, leBytes 4 (fillWord (UInt8.ofNat n)).toNat =
      List.replicate 4 (UInt8.ofNat n) := by decide +kernel
  have hc := hall c.toNat c.toNat_lt
  rwa [UInt8.ofNat_toNat] at hc

/-- The bytes before an aligned address. -/
lemma setBytes_untilAligned (c : UInt8) (n : ℕ) (p : UInt64) (mem : Mem) {mem' : Mem} {p' : UInt64}
    {n' : ℕ} (h : setUntilAligned c n p mem = (mem', p', n')) :
    setBytes c n' p' mem' = setBytes c n p mem ∧ (n' = 0 ∨ isAligned p') := by
  induction n generalizing p mem with
  | zero =>
    obtain ⟨rfl, rfl, rfl⟩ : mem = mem' ∧ p = p' ∧ 0 = n' := by simpa [setUntilAligned] using h
    exact ⟨rfl, .inl rfl⟩
  | succ n ih =>
    rw [setUntilAligned] at h
    split_ifs at h with hp
    · obtain ⟨rfl, rfl, rfl⟩ : mem = mem' ∧ p = p' ∧ n + 1 = n' := by simpa using h
      exact ⟨rfl, .inr hp⟩
    · exact ih (p + 1) (mem.store p c) h

lemma setBytes_word (hp : isAligned p) :
    setBytes c n (p + 4) (mem.store32 p (fillWord c)) = setBytes c (n + 4) p mem := by
  rw [store32_eq hp (leBytes_fillWord c)]
  simp only [setBytes, UInt64.add_assoc]
  rfl

lemma setBytes_words (c : UInt8) (hp : isAligned p) : ∀ n mem, ∀ {mem' : Mem} {p' : UInt64} {n' : ℕ},
    setWords (fillWord c) n p mem = (mem', p', n') → setBytes c n' p' mem' = setBytes c n p mem := by
  intro n mem
  fun_induction setWords (fillWord c) n p mem with
  | case1 p mem n ih =>
    intro mem' p' n' h
    rw [ih (isAligned_add_four hp) h, setBytes_word hp]
  | case2 n p mem hn =>
    intro mem' p' n' h
    obtain ⟨rfl, rfl, rfl⟩ : mem = mem' ∧ p = p' ∧ n = n' := by simpa using h
    rfl

lemma memset32_eq (mem : Mem) (dst : UInt64) (c : ℤ) (n : ℕ) :
    mem.memset32 dst c n = mem.memset dst c n := by
  rcases hpeel : setUntilAligned (UInt8.ofInt c) n dst mem with ⟨mem₁, p₁, n₁⟩
  obtain ⟨hrest, halign⟩ := setBytes_untilAligned _ n dst mem hpeel
  rw [memset, ← hrest, memset32, hpeel]
  dsimp only
  split_ifs with hn
  · rcases hwords : setWords (fillWord (UInt8.ofInt c)) n₁ p₁ mem₁ with ⟨mem₂, p₂, n₂⟩
    exact setBytes_words _ (halign.resolve_left (by omega)) n₁ mem₁ hwords
  · rfl

/-! ## Copying -/

/-- The bytes until the destination is aligned. -/
lemma copyBytes_untilAligned (dir : Dir) (n : ℕ) (d s : UInt64) (mem : Mem) {mem' : Mem}
    {d' s' : UInt64} {n' : ℕ} (h : copyUntilAligned dir n d s mem = (mem', d', s', n')) :
    copyBytes dir n' d' s' mem' = copyBytes dir n d s mem ∧ (n' = 0 ∨ isAligned d') := by
  induction n generalizing d s mem with
  | zero =>
    obtain ⟨rfl, rfl, rfl, rfl⟩ : mem = mem' ∧ d = d' ∧ s = s' ∧ 0 = n' := by
      simpa [copyUntilAligned] using h
    exact ⟨rfl, .inl rfl⟩
  | succ n ih =>
    rw [copyUntilAligned] at h
    split_ifs at h with hd
    · obtain ⟨rfl, rfl, rfl, rfl⟩ : mem = mem' ∧ d = d' ∧ s = s' ∧ n + 1 = n' := by simpa using h
      exact ⟨rfl, .inr hd⟩
    · exact ih _ _ _ h

/-- Two aligned words are equal or apart, so no byte is written that is still to be read. -/
lemma copyBytes_word_up (hd : isAligned d) (hs : isAligned s) :
    copyBytes .up n (d + 4) (s + 4) (mem.store32 d (mem.load32 s)) =
      copyBytes .up (n + 4) d s mem := by
  obtain ⟨hd1, hd2, hd3⟩ := toNat_add_of_aligned hd
  obtain ⟨hs1, hs2, hs3⟩ := toNat_add_of_aligned hs
  rw [store32_eq hd (leBytes_load32 hs)]
  rw [isAligned_iff] at hd hs
  simp only [copyBytes, Dir.cell, Dir.next, UInt64.add_assoc, UInt64.reduceAdd]
  simp (disch := omega) only [load_store_of_ne]

lemma store_four_comm (hp : isAligned p) (b₀ b₁ b₂ b₃ : UInt8) :
    (((mem.store p b₀).store (p + 1) b₁).store (p + 2) b₂).store (p + 3) b₃ =
      (((mem.store (p + 3) b₃).store (p + 2) b₂).store (p + 1) b₁).store p b₀ := by
  obtain ⟨h1, h2, h3⟩ := toNat_add_of_aligned hp
  funext x
  simp only [store, update_apply, h1, h2, h3]
  split_ifs <;> first | rfl | omega

lemma copyBytes_word_down (hd : isAligned d) (hs : isAligned s) :
    copyBytes .down n d s (mem.store32 d (mem.load32 s)) =
      copyBytes .down (n + 4) (d + 4) (s + 4) mem := by
  obtain ⟨hd1, hd2, hd3⟩ := toNat_add_of_aligned hd
  obtain ⟨hs1, hs2, hs3⟩ := toNat_add_of_aligned hs
  have hcells : ∀ p : UInt64, p + 4 - 1 = p + 3 ∧ p + 3 - 1 = p + 2 ∧ p + 2 - 1 = p + 1 ∧
      p + 1 - 1 = p := by grind
  rw [store32_eq hd (leBytes_load32 hs), store_four_comm hd]
  rw [isAligned_iff] at hd hs
  simp only [copyBytes, Dir.cell, Dir.next, hcells]
  simp (disch := omega) only [load_store_of_ne]

lemma copyBytes_word (hd : isAligned d) (hs : isAligned s) :
    copyBytes dir n (dir.next 4 d) (dir.next 4 s)
      (mem.store32 (dir.cell 4 d) (mem.load32 (dir.cell 4 s))) = copyBytes dir (n + 4) d s mem := by
  cases dir with
  | up => exact copyBytes_word_up hd hs
  | down =>
    have hword := @copyBytes_word_down mem (d - 4) (s - 4) n (isAligned_sub_four hd)
      (isAligned_sub_four hs)
    rwa [UInt64.sub_add_cancel, UInt64.sub_add_cancel] at hword

lemma copyBytes_words (dir : Dir) (hd : isAligned d) (hs : isAligned s) (n : ℕ) (mem : Mem)
    {mem' : Mem} {d' s' : UInt64} {n' : ℕ} (h : copyWords dir n d s mem = (mem', d', s', n')) :
    copyBytes dir n' d' s' mem' = copyBytes dir n d s mem := by
  fun_induction copyWords dir n d s mem with
  | case1 d s mem n ih =>
    rw [ih (isAligned_next hd dir) (isAligned_next hs dir) h, copyBytes_word hd hs]
  | case2 n d s mem hn =>
    obtain ⟨rfl, rfl, rfl, rfl⟩ : mem = mem' ∧ d = d' ∧ s = s' ∧ n = n' := by simpa using h
    rfl

lemma copy32_eq (dir : Dir) (n : ℕ) (d s : UInt64) (mem : Mem) :
    copy32 dir n d s mem = copyBytes dir n d s mem := by
  rcases hpeel : copyUntilAligned dir n d s mem with ⟨mem₁, d₁, s₁, n₁⟩
  obtain ⟨hrest, halign⟩ := copyBytes_untilAligned dir n d s mem hpeel
  rw [← hrest, copy32, hpeel]
  dsimp only
  split_ifs with hn
  · rcases hwords : copyWords dir n₁ d₁ s₁ mem₁ with ⟨mem₂, d₂, s₂, n₂⟩
    exact copyBytes_words dir (halign.resolve_left (by omega)) hn.2 n₁ mem₁ hwords
  · rfl

lemma memcpy32_eq (mem : Mem) (dst src : UInt64) (n : ℕ) :
    mem.memcpy32 dst src n = mem.memcpy dst src n :=
  copy32_eq .up n dst src mem

lemma copyBytes_self (dir : Dir) (n : ℕ) (p : UInt64) (mem : Mem) :
    copyBytes dir n p p mem = mem := by
  induction n generalizing p mem with
  | zero => rfl
  | succ n ih =>
    have hstore : mem.store (dir.cell 1 p) (mem.load (dir.cell 1 p)) = mem :=
      update_eq_self ..
    rw [copyBytes, ih, hstore]

lemma memmove32_eq (mem : Mem) (dst src : UInt64) (n : ℕ) :
    mem.memmove32 dst src n = mem.memmove dst src n := by
  rw [memmove32, memmove, copy32_eq, copy32_eq]
  split_ifs with hnone hlt
  · rcases hnone with rfl | rfl
    · exact (copyBytes_self ..).symm
    · rfl
  · rcases hnone with rfl | rfl
    · exact (copyBytes_self ..).symm
    · rfl
  · rfl
  · rfl

/-! ## Comparing -/

lemma cmpRest_untilAligned (mem : Mem) (n : ℕ) (p q : UInt64) :
    cmpRest mem (cmpUntilAligned mem n p q) = cmpBytes mem n p q := by
  induction n generalizing p q with
  | zero => rfl
  | succ n ih =>
    rw [cmpUntilAligned, cmpBytes]
    split_ifs with halign hne
    · rw [cmpRest, cmpBytes, if_pos hne]
    · rw [cmpRest, cmpBytes, if_neg hne]
    · rfl
    · exact ih (p + 1) (q + 1)

lemma aligned_of_cmpUntilAligned {p' q' : UInt64} {n' : ℕ}
    (h : cmpUntilAligned mem n p q = .ok (p', q', n')) :
    n' = 0 ∨ isAligned p' ∧ isAligned q' := by
  induction n generalizing p q with
  | zero =>
    obtain ⟨rfl, rfl, rfl⟩ : p = p' ∧ q = q' ∧ 0 = n' := by simpa [cmpUntilAligned] using h
    exact .inl rfl
  | succ n ih =>
    rw [cmpUntilAligned] at h
    split_ifs at h with halign hne
    · obtain ⟨rfl, rfl, rfl⟩ : p = p' ∧ q = q' ∧ n + 1 = n' := by simpa using h
      exact .inr (Bool.and_eq_true_iff.1 halign)
    · exact ih h

/-- The first byte that differs is the one that differs first in the first word that does. -/
lemma cmpBytes_word (hp : isAligned p) (hq : isAligned q) : cmpBytes mem (n + 4) p q =
    if mem.load32 p ≠ mem.load32 q then wordDiff mem p q else cmpBytes mem n (p + 4) (q + 4) := by
  have hword := @load32_eq_iff mem p q hp hq
  simp only [cmpBytes, wordDiff, UInt64.add_assoc, UInt64.reduceAdd]
  split_ifs <;> simp_all

lemma cmpRest_words (mem : Mem) (hp : isAligned p) (hq : isAligned q) (n : ℕ) :
    cmpRest mem (cmpWords mem n p q) = cmpBytes mem n p q := by
  fun_induction cmpWords mem n p q with
  | case1 p q n hne => rw [cmpRest, cmpBytes_word hp hq, if_pos hne]
  | case2 p q n heq ih =>
    rw [ih (isAligned_add_four hp) (isAligned_add_four hq), cmpBytes_word hp hq, if_neg heq]
  | case3 n p q hn => rfl

lemma memcmp32_eq (mem : Mem) (a b : UInt64) (n : ℕ) : mem.memcmp32 a b n = mem.memcmp a b n := by
  have hpeel := cmpRest_untilAligned mem n a b
  rw [memcmp, ← hpeel, memcmp32]
  cases hres : cmpUntilAligned mem n a b with
  | error diff => rfl
  | ok r =>
    obtain ⟨p, q, n'⟩ := r
    simp only [bind, Except.bind]
    split_ifs with hn
    · obtain ⟨hp, hq⟩ := (aligned_of_cmpUntilAligned hres).resolve_left (by omega)
      exact cmpRest_words mem hp hq n'
    · rfl

/-! ## Without wrapping around -/

lemma toNat_pointer {p : ℕ} (h : p < 2 ^ 64) : (UInt64.ofNat p).toNat = p :=
  UInt64.toNat_ofNat_of_lt' h

/-- One turn more is one byte more at the end. -/
lemma copyBytes_up_succ (n : ℕ) (d s : UInt64) (mem : Mem) : copyBytes .up (n + 1) d s mem =
    (copyBytes .up n d s mem).store (d + UInt64.ofNat n)
      ((copyBytes .up n d s mem).load (s + UInt64.ofNat n)) := by
  induction n generalizing d s mem with
  | zero =>
    have hzero : ∀ p : UInt64, p + UInt64.ofNat 0 = p := UInt64.add_zero
    rw [hzero, hzero]
    rfl
  | succ n ih =>
    have hnext : ∀ p : UInt64, p + 1 + UInt64.ofNat n = p + UInt64.ofNat (n + 1) := fun p => by
      rw [UInt64.ofNat_add, UInt64.add_comm (UInt64.ofNat n), UInt64.add_assoc]
      rfl
    have hstep := ih (d + 1) (s + 1) (mem.store d (mem.load s))
    rw [hnext, hnext] at hstep
    exact hstep

lemma copyBytes_up_eq {d s : ℕ} (hd : d + n ≤ 2 ^ 64) (hs : s + n ≤ 2 ^ 64) :
    copyBytes .up n (UInt64.ofNat d) (UInt64.ofNat s) mem = mem.copy d s n := by
  induction n with
  | zero => rfl
  | succ n ih =>
    rw [copyBytes_up_succ, ih (by omega) (by omega), ← UInt64.ofNat_add, ← UInt64.ofNat_add]
    funext x
    rw [store, load, toNat_pointer (by omega), toNat_pointer (by omega), update_apply]
    show _ = mem.copy d s n (if x = d + n then s + n else x)
    split_ifs with hx <;> rfl

/-- And `memcpy`. -/
lemma memcpy_eq_copy {dst src : UInt64} (hd : dst.toNat + n ≤ 2 ^ 64)
    (hs : src.toNat + n ≤ 2 ^ 64) : mem.memcpy dst src n = mem.copy dst.toNat src.toNat n := by
  have hcopy : copyBytes .up n (UInt64.ofNat dst.toNat) (UInt64.ofNat src.toNat) mem = _ :=
    copyBytes_up_eq hd hs
  rwa [UInt64.ofNat_toNat, UInt64.ofNat_toNat] at hcopy

/-- From the highest byte down, each is read before it is overwritten if the destination is not
below the source. -/
lemma copyBytes_down_apply {d s : ℕ} (hd : d + n ≤ 2 ^ 64) (hle : s ≤ d) (x : ℕ) :
    copyBytes .down n (UInt64.ofNat (d + n)) (UInt64.ofNat (s + n)) mem x =
      if d ≤ x ∧ x < d + n then mem (s + (x - d)) else mem x := by
  induction n generalizing mem with
  | zero =>
    rw [if_neg (by omega)]
    rfl
  | succ n ih =>
    have hcell : ∀ p, UInt64.ofNat (p + (n + 1)) - 1 = UInt64.ofNat (p + n) := fun p => by
      rw [← Nat.add_assoc, UInt64.ofNat_add]
      exact UInt64.add_sub_cancel ..
    rw [copyBytes, Dir.next, Dir.next, Dir.cell, Dir.cell, hcell, hcell, ih (by omega), store, load,
      toNat_pointer (by omega), toNat_pointer (by omega), update_apply,
      update_apply]
    by_cases hlast : x = d + n
    · rw [if_neg (by omega), if_pos hlast, if_pos (by omega), hlast, Nat.add_sub_cancel_left]
    · rw [if_neg hlast]
      split_ifs with hlow hmid hin hin <;> first | rfl | omega

/-- `memmove` reads every byte before it is overwritten. -/
lemma memmove_apply {dst src : UInt64} (hd : dst.toNat + n ≤ 2 ^ 64) (hs : src.toNat + n ≤ 2 ^ 64)
    (x : ℕ) : mem.memmove dst src n x =
      if dst.toNat ≤ x ∧ x < dst.toNat + n then mem (src.toNat + (x - dst.toNat)) else mem x := by
  by_cases hlt : dst < src
  · have hcopy : copyBytes .up n dst src mem = mem.copy dst.toNat src.toNat n :=
      memcpy_eq_copy hd hs
    have hle : dst.toNat ≤ src.toNat := Nat.le_of_lt (UInt64.lt_iff_toNat_lt.1 hlt)
    rw [memmove, if_pos hlt, hcopy]
    split_ifs with hin
    · obtain ⟨j, rfl⟩ := Nat.exists_eq_add_of_le hin.1
      rw [copy_apply_of_le (by omega) hle, Nat.add_sub_cancel_left]
    · exact EqOff.copy mem x hin
  · have hle : src.toNat ≤ dst.toNat := Nat.le_of_not_lt fun h => hlt (UInt64.lt_iff_toNat_lt.2 h)
    have hcopy : copyBytes .down n _ _ mem x = _ := copyBytes_down_apply hd hle x
    rw [UInt64.ofNat_add, UInt64.ofNat_add, UInt64.ofNat_toNat, UInt64.ofNat_toNat] at hcopy
    rw [memmove, if_neg hlt, hcopy]

end Mem

end CobjOs
