import CobjOs.Process.Create

/-!
# The argument block

As long as the strings and the array of pointers fit the stack, the offsets do not wrap, and they
are those of `placeDown` (`placeStrings_eq`).  The writes are then to ranges of the stack that do
not meet (`argBlock_apart`), below each other in the order: array, strings.
-/

namespace CobjOs

open List

/-- What the strings and the array of pointers need, with the padding of the strings. -/
def argTotal (argv : List (List UInt8)) : ℕ :=
  (argv.map fun str => padded 8 (str.length + 1)).sum + (argv.length + 1) * 8

lemma sum_le_of_fit {argv : List (List UInt8)} (hfit : argTotal argv ≤ stackSize) :
    (argv.map fun str => padded 8 (str.length + 1)).sum ≤ stackSize := by
  unfold argTotal at hfit
  omega

/-- The offset of the array. -/
def argOffset (argv : List (List UInt8)) : ℕ := (stackSize - argTotal argv) / 16 * 16

/-- The offsets of the strings. -/
def strOffsets (argv : List (List UInt8)) : List ℕ :=
  (placeDown 8 stackSize (argv.map fun str => str.length + 1)).1

variable {argv : List (List UInt8)}

lemma sub64_of_le {a b : ℕ} (h : b ≤ a) (ha : a < 2 ^ 64) : sub64 a b = a - b := by
  have hb : b % 2 ^ 64 = b := Nat.mod_eq_of_lt (h.trans_lt ha)
  unfold sub64 u64
  omega

lemma sum_padded (argv : List (List UInt8)) :
    ((argv.map fun str => str.length + 1).map (padded 8)).sum =
      (argv.map fun str => padded 8 (str.length + 1)).sum := by
  rw [map_map]
  rfl

/-- The offset below the strings. -/
lemma strings_low (hfit : (argv.map fun str => padded 8 (str.length + 1)).sum ≤ stackSize) :
    (placeDown 8 stackSize (argv.map fun str => str.length + 1)).2 =
      stackSize - (argv.map fun str => padded 8 (str.length + 1)).sum := by
  rw [← sum_padded] at hfit ⊢
  exact placeDown_low (by decide) (by decide) hfit

lemma placeStrings_eq (hfit : (argv.map fun str => padded 8 (str.length + 1)).sum ≤ stackSize) :
    placeStrings argv = placeDown 8 stackSize (argv.map fun str => str.length + 1) := by
  induction argv with
  | nil => rfl
  | cons str argv ih =>
    rw [map_cons, sum_cons] at hfit
    have hsum : (argv.map fun str => padded 8 (str.length + 1)).sum ≤ stackSize := by omega
    have hlow := strings_low hsum
    have hlen : str.length + 1 ≤ padded 8 (str.length + 1) := le_padded (by decide) _
    have hstack : stackSize = 16384 := rfl
    rw [placeStrings, ih hsum, map_cons, placeDown, hlow,
      sub64_of_le (by omega) (by omega)]

/-- The strings lie between the offset below them and the end of the stack, the first lowest. -/
lemma strings_spec (hfit : (argv.map fun str => padded 8 (str.length + 1)).sum ≤ stackSize) :
    (∀ p ∈ (strOffsets argv).zip argv,
      stackSize - (argv.map fun str => padded 8 (str.length + 1)).sum ≤ p.1 ∧
        p.1 + (p.2.length + 1) ≤ stackSize) ∧
    ((strOffsets argv).zip argv).Pairwise fun p q => p.1 + (p.2.length + 1) ≤ q.1 := by
  rw [← sum_padded] at hfit
  obtain ⟨hin, hpair⟩ := placeDown_spec (by decide) (by decide) hfit
  rw [zip_map_right, sum_padded] at hin
  rw [zip_map_right, pairwise_map] at hpair
  exact ⟨fun p hp => hin _ (mem_map_of_mem hp), hpair⟩

lemma length_strOffsets (argv : List (List UInt8)) : (strOffsets argv).length = argv.length := by
  rw [strOffsets, length_placeDown, length_map]

/-- The pointers to the strings. -/
def argPtrs (argv : List (List UInt8)) : List ℕ := (strOffsets argv).map (stackBase + ·)

/-- The array: the pointers and a 0. -/
def argArray (argv : List (List UInt8)) : List UInt8 := (argPtrs argv ++ [0]).flatMap (leBytes 8)

lemma length_argArray (argv : List (List UInt8)) :
    (argArray argv).length = (argv.length + 1) * 8 := by
  rw [argArray, Mem.length_flatMap_leBytes, length_append, argPtrs, length_map,
    length_strOffsets]
  rfl

lemma argOffset_le (hfit : argTotal argv ≤ stackSize) :
    argOffset argv + (argv.length + 1) * 8 ≤
      stackSize - (argv.map fun str => padded 8 (str.length + 1)).sum := by
  unfold argOffset argTotal at *
  omega

lemma strOffset_lt (hfit : argTotal argv ≤ stackSize) {off : ℕ} (h : off ∈ strOffsets argv) :
    off < stackSize := by
  obtain ⟨i, hi, rfl⟩ := getElem_of_mem h
  have hi' : i < argv.length := by rwa [length_strOffsets] at hi
  have hmem : ((strOffsets argv)[i], argv[i]) ∈ (strOffsets argv).zip argv :=
    mem_iff_getElem.2 ⟨i, by simp [hi, hi'], by simp⟩
  have hsum := sum_le_of_fit hfit
  have hspec := (strings_spec hsum).1 _ hmem
  dsimp only at hspec
  omega

/-- Without wrapping. -/
lemma argBlock_eq (hfit : argTotal argv ≤ stackSize) : argBlock argv =
    { writes := ((strOffsets argv).zip (argv.map (· ++ [0]))).reverse ++
        [(argOffset argv, argArray argv)]
      argvUser := stackBase + argOffset argv
      userRsp := stackBase + argOffset argv - 16 } := by
  have hsum := sum_le_of_fit hfit
  have hstack : stackSize = 16384 := rfl
  have hbase : stackBase = 0x7fffff000000 - 16384 := rfl
  have hint : ofInt32 ((argv.length + 1) * 8) = (argv.length + 1) * 8 := by
    unfold argTotal at hfit
    exact ofInt32_of_lt (by omega)
  have hoff : sub64 (placeStrings argv).2 (ofInt32 ((argv.length + 1) * 8)) / 16 * 16 =
      argOffset argv := by
    rw [placeStrings_eq hsum, strings_low hsum, hint, sub64_of_le, argOffset, argTotal,
      Nat.sub_sub]
    · unfold argTotal at hfit
      omega
    · omega
  have hle : argOffset argv ≤ stackSize := by
    have hle := argOffset_le hfit
    omega
  have hptrs : (placeStrings argv).1.map (fun strOff => u64 (stackBase + strOff)) =
      argPtrs argv := by
    rw [placeStrings_eq hsum]
    refine map_congr_left fun off hmem => Nat.mod_eq_of_lt ?_
    have hlt := strOffset_lt hfit hmem
    omega
  unfold argBlock
  dsimp only
  rw [hoff, hptrs, placeStrings_eq hsum, sub64_of_le (by omega) (by omega)]
  have hmod : u64 (stackBase + argOffset argv) = stackBase + argOffset argv :=
    Nat.mod_eq_of_lt (by omega)
  rw [hmod]
  rfl

lemma argBlock_inside (hfit : argTotal argv ≤ stackSize) :
    ∀ w ∈ (argBlock argv).writes, 0 < w.2.length ∧ w.1 + w.2.length ≤ stackSize := by
  have hsum := sum_le_of_fit hfit
  intro w hw
  rw [argBlock_eq hfit] at hw
  rcases mem_append.1 hw with hw | hw
  · rw [mem_reverse, zip_map_right, mem_map] at hw
    obtain ⟨p, hp, rfl⟩ := hw
    have hspec := (strings_spec hsum).1 p hp
    exact ⟨by simp, by simpa using hspec.2⟩
  · obtain rfl := mem_singleton.1 hw
    dsimp only
    rw [length_argArray]
    have hle := argOffset_le hfit
    exact ⟨by omega, by omega⟩

lemma argBlock_apart (hfit : argTotal argv ≤ stackSize) :
    (argBlock argv).writes.Pairwise Mem.Apart := by
  have hsum := sum_le_of_fit hfit
  obtain ⟨hin, hpair⟩ := strings_spec hsum
  rw [argBlock_eq hfit, pairwise_append, zip_map_right]
  refine ⟨?_, pairwise_singleton _ _, fun w hw v hv => ?_⟩
  · rw [pairwise_reverse, pairwise_map]
    refine hpair.imp fun {p q} hpq => .inr ?_
    simpa using hpq
  · obtain rfl := mem_singleton.1 hv
    rw [mem_reverse, mem_map] at hw
    obtain ⟨p, hp, rfl⟩ := hw
    right
    have hspec := hin p hp
    have hle := argOffset_le hfit
    dsimp only [Prod.map]
    rw [length_argArray]
    exact hle.trans hspec.1

end CobjOs
