import CobjOs.User.Shell
import Mathlib.Data.List.Infix

/-!
# Splitting a line into words

A word of a line is a maximal piece of it without a space; it begins at a byte that is no space
and has a space, or nothing, in front of it.  `parse_args` leaves in `args` the places where the
words of the line begin, in order, and puts a NUL behind each word.

Nothing in it looks at the 32 entries of `args`, and a line of 255 bytes has room for 128 words.
-/

namespace CobjOs

open List

namespace User

/-! ## The words of a line -/

/-- The places where words begin, in a text that stands at `n` behind the byte `prev`. -/
def wordStartsFrom : ℕ → UInt8 → List UInt8 → List ℕ
  | _, _, [] => []
  | n, prev, c :: l =>
    if isSpace prev ∧ ¬isSpace c then n :: wordStartsFrom (n + 1) c l
    else wordStartsFrom (n + 1) c l

/-- The places where the words of a line begin. -/
def wordStarts (line : List UInt8) : List ℕ := wordStartsFrom 0 (ascii ' ') line

/-- The word that begins at `i`. -/
def wordAt (line : List UInt8) (i : ℕ) : List UInt8 := (line.drop i).takeWhile fun c => !isSpace c

/-- The line a buffer holds. -/
def lineOf (buf : List UInt8) : List UInt8 := buf.takeWhile (· ≠ 0)

/-- The text behind the byte `prev` with a NUL for each space that ends a word. -/
def cutFrom : UInt8 → List UInt8 → List UInt8
  | _, [] => []
  | prev, c :: l => (if isSpace c ∧ ¬isSpace prev then 0 else c) :: cutFrom c l

section Words

variable {n : ℕ} {prev : UInt8} {l : List UInt8}

lemma word_of_cut (hprev : isSpace prev = false) :
    (l.takeWhile fun c => !isSpace c) ++ [0] <+: cutFrom prev l ++ [0] := by
  induction l generalizing prev with
  | nil => simp [cutFrom]
  | cons c l ih => cases hc : isSpace c <;> simp [cutFrom, hc, hprev, ih]

/-- Where a word begins, the cut line has it with a NUL behind it. -/
lemma wordAt_of_cut {i : ℕ} (hi : i ∈ wordStartsFrom n prev l) :
    n ≤ i ∧ wordAt l (i - n) ++ [0] <+: (cutFrom prev l ++ [0]).drop (i - n) := by
  induction l generalizing n prev with
  | nil => simp [wordStartsFrom] at hi
  | cons c l ih =>
    have hrest : i ∈ wordStartsFrom (n + 1) c l → n ≤ i ∧
        wordAt (c :: l) (i - n) ++ [0] <+: (cutFrom prev (c :: l) ++ [0]).drop (i - n) := by
      intro hi
      obtain ⟨hle, hword⟩ := ih hi
      have hsub : i - n = i - (n + 1) + 1 := by omega
      rw [hsub]
      exact ⟨by omega, hword⟩
    rw [wordStartsFrom] at hi
    split_ifs at hi with hc
    · rcases mem_cons.1 hi with rfl | hi
      · have hnot : isSpace c = false := by simpa using hc.2
        simpa [wordAt, cutFrom, hnot] using word_of_cut hnot
      · exact hrest hi
    · exact hrest hi

lemma skip_spaces (n : ℕ) (l : List UInt8) :
    wordStartsFrom n (ascii ' ') l =
        wordStartsFrom (n + (l.takeWhile isSpace).length) (ascii ' ') (l.dropWhile isSpace) ∧
      cutFrom (ascii ' ') l = l.takeWhile isSpace ++ cutFrom (ascii ' ') (l.dropWhile isSpace) := by
  induction l generalizing n with
  | nil => exact ⟨rfl, rfl⟩
  | cons c l ih =>
    cases hc : isSpace c with
    | true =>
      obtain rfl : c = ascii ' ' := of_decide_eq_true hc
      obtain ⟨hstarts, hcut⟩ := ih (n + 1)
      simp [wordStartsFrom, cutFrom, hc, hstarts, hcut, Nat.add_right_comm, Nat.add_assoc]
    | false => simp [hc]

lemma skip_word (n : ℕ) (hprev : isSpace prev = false) (h0 : (0 : UInt8) ∉ l) :
    l.dropWhile inWord = [] ∧ wordStartsFrom n prev l = [] ∧ cutFrom prev l = l.takeWhile inWord ∨
      ∃ rest, l.dropWhile inWord = ascii ' ' :: rest ∧
        wordStartsFrom n prev l =
          wordStartsFrom (n + (l.takeWhile inWord).length + 1) (ascii ' ') rest ∧
        cutFrom prev l = l.takeWhile inWord ++ 0 :: cutFrom (ascii ' ') rest := by
  induction l generalizing n prev with
  | nil => exact .inl ⟨rfl, rfl, rfl⟩
  | cons c l ih =>
    rw [mem_cons, not_or] at h0
    cases hc : isSpace c with
    | true =>
      obtain rfl : c = ascii ' ' := of_decide_eq_true hc
      exact .inr ⟨l, by simp [inWord, wordStartsFrom, cutFrom, hc, hprev]⟩
    | false =>
      have hword : inWord c = true := by simpa [inWord, Ne.symm h0.1, isSpace] using hc
      rcases ih (n + 1) hc h0.2 with ⟨hrest, hstarts, hcut⟩ | ⟨rest, hrest, hstarts, hcut⟩
      · exact .inl (by simp [wordStartsFrom, cutFrom, hword, hc, hprev, hrest, hstarts, hcut])
      · exact .inr ⟨rest, by simp [wordStartsFrom, cutFrom, hword, hc, hprev, hrest, hstarts, hcut,
          Nat.add_right_comm, Nat.add_assoc]⟩

end Words

/-! ## The loop -/

lemma span_append {p : UInt8 → Bool} {c : UInt8} (hc : p c = false) (l tail : List UInt8) :
    (l ++ c :: tail).takeWhile p = l.takeWhile p ∧
      (l ++ c :: tail).dropWhile p = l.dropWhile p ++ c :: tail := by
  induction l with
  | nil => simp [hc]
  | cons a l ih => cases ha : p a <;> simp [ha, ih]

/-- `parse_args` cuts the line and finds its words, up to the first for which `args` has no
entry. -/
lemma parseArgsLoop_eq {fuel : ℕ} {pre line tail : List UInt8} {args : List ℕ}
    (h0 : (0 : UInt8) ∉ line) (hfuel : line.length < fuel) (hargs : args.length ≤ maxArgs) :
    parseArgsLoop fuel pre (line ++ 0 :: tail) args =
      if args.length + (wordStartsFrom pre.length (ascii ' ') line).length ≤ maxArgs then
        .ok ⟨pre ++ cutFrom (ascii ' ') line ++ 0 :: tail,
          args ++ wordStartsFrom pre.length (ascii ' ') line⟩
      else .error .pastArgs := by
  induction fuel generalizing pre line args with
  | zero => omega
  | succ fuel ih =>
    cases line with
    | nil => simp [parseArgsLoop, wordStartsFrom, cutFrom, hargs]
    | cons c line =>
      have hc : c ≠ 0 := fun h => h0 (h ▸ mem_cons_self)
      obtain ⟨htake, hdrop⟩ := span_append (p := isSpace) (c := 0) rfl (c :: line) tail
      obtain ⟨hstarts, hcut⟩ := skip_spaces pre.length (c :: line)
      have hsub := dropWhile_sublist (l := c :: line) isSpace
      rw [cons_append] at htake hdrop ⊢
      have hn : pre.length + ((c :: line).takeWhile isSpace).length =
          (pre ++ (c :: line).takeWhile isSpace).length := length_append.symm
      rw [hstarts, hcut, parseArgsLoop, if_neg hc, htake, hdrop, ← append_assoc pre, hn]
      simp only
      generalize pre ++ (c :: line).takeWhile isSpace = pre'
      cases hr : (c :: line).dropWhile isSpace with
      | nil => simp [wordStartsFrom, cutFrom, hargs]
      | cons d r =>
        rw [hr] at hsub
        have h0' : (0 : UInt8) ∉ d :: r := fun h => h0 (hsub.subset h)
        rw [mem_cons, not_or] at h0'
        have hlen := hsub.length_le
        have hd : isSpace d = false := by
          have hhead := head?_dropWhile_not isSpace (c :: line)
          rwa [hr] at hhead
        have hword : inWord d = true := by simpa [inWord, Ne.symm h0'.1, isSpace] using hd
        obtain ⟨htake', hdrop'⟩ := span_append (p := inWord) (c := 0) rfl r tail
        have hfirst : ∀ n, wordStartsFrom n (ascii ' ') (d :: r) =
            n :: wordStartsFrom (n + 1) d r := fun n => if_pos ⟨rfl, by simp [hd]⟩
        simp only [length_cons] at hfuel hlen
        by_cases hfull : maxArgs ≤ args.length
        · rw [hfirst, if_neg (by rw [length_cons]; omega)]
          simp [Ne.symm h0'.1, hfull]
        have hpush : (args ++ [pre'.length]).length ≤ maxArgs := by
          rw [length_append, length_singleton]
          omega
        simp only [cons_append, if_neg (Ne.symm h0'.1), if_neg hfull, takeWhile_cons,
          dropWhile_cons, hword, if_true, htake', hdrop', hfirst]
        rcases skip_word (pre'.length + 1) hd h0'.2 with
          ⟨hrest, hs, hcut'⟩ | ⟨rest, hrest, hs, hcut'⟩
        · have hend := @ih (pre' ++ d :: r.takeWhile inWord) [] _ not_mem_nil
            (by rw [length_nil]; omega) hpush
          rw [hrest, hs, cutFrom, hcut']
          simpa [hd, ascii, cutFrom, wordStartsFrom] using hend
        · have hmem : (0 : UInt8) ∉ rest := fun h => h0'.2
            ((dropWhile_sublist (l := r) inWord).subset (hrest ▸ mem_cons_of_mem _ h))
          have hlt : rest.length < fuel := by
            have hle := (dropWhile_sublist (l := r) inWord).length_le
            rw [hrest, length_cons] at hle
            omega
          have hnext := @ih (pre' ++ (d :: r.takeWhile inWord) ++ [0]) rest _ hmem hlt hpush
          rw [hrest, hs, cutFrom, hcut']
          simpa [hd, Nat.add_assoc, Nat.add_comm, Nat.add_left_comm] using hnext

/-- A line that is read has a NUL in it. -/
lemma readline_nul {typed old buf : List UInt8} {max i : ℕ} (hmax : max ≤ old.length) (hi : i < max)
    (h : readlineLoop max i old typed = some buf) : (0 : UInt8) ∈ buf := by
  have hset : ∀ {i : ℕ} {out : List UInt8}, i < out.length → (0 : UInt8) ∈ out.set i 0 :=
    fun hlt => mem_set hlt _
  induction typed generalizing i old with
  | nil =>
    rw [readlineLoop] at h
    split_ifs at h
    exact Option.some.inj h ▸ hset (by omega)
  | cons c typed ih =>
    rw [readlineLoop] at h
    split_ifs at h
    · exact Option.some.inj h ▸ hset (by omega)
    · exact ih hmax (by omega) h
    · exact ih (by rwa [length_set]) (by omega) h
    · exact Option.some.inj h ▸ hset (by omega)

/-- Whatever is typed, `parse_args` leaves in `args` the places of exactly the words of the line
that was read, in order and each with a NUL behind it, if and only if there are 32 at most;
otherwise it does not return. -/
theorem args_are_the_words_iff {old typed buf : List UInt8} (hold : old.length = lineSize)
    (hread : readline old lineSize typed = some buf) :
    (∃ parsed, parseArgs buf = .ok parsed ∧ parsed.args = wordStarts (lineOf buf) ∧
        parsed.args.length ≤ maxArgs ∧
        ∀ i ∈ parsed.args, wordAt (lineOf buf) i ++ [0] <+: parsed.input.drop i) ↔
      (wordStarts (lineOf buf)).length ≤ maxArgs := by
  obtain ⟨line, tail, rfl, h0⟩ := eq_append_cons_of_mem
    (readline_nul hold.ge (by decide : 0 < lineSize) hread)
  have hline : lineOf (line ++ 0 :: tail) = line := by
    rw [lineOf, takeWhile_append_of_pos fun c hc => by simpa using ne_of_mem_of_not_mem hc h0]
    simp
  have hparse : parseArgs (line ++ 0 :: tail) =
      if (wordStarts line).length ≤ maxArgs then
        .ok ⟨cutFrom (ascii ' ') line ++ 0 :: tail, wordStarts line⟩
      else .error .pastArgs := by
    rw [parseArgs, parseArgsLoop_eq h0 (by simp) (Nat.zero_le _), length_nil, Nat.zero_add]
    rfl
  rw [hline]
  constructor
  · rintro ⟨parsed, -, hargs, hle, -⟩
    exact hargs ▸ hle
  · intro hle
    rw [if_pos hle] at hparse
    refine ⟨_, hparse, rfl, hle, fun i hi => ?_⟩
    obtain ⟨-, hword⟩ := wordAt_of_cut hi
    rw [Nat.sub_zero] at hword
    have hcut : cutFrom (ascii ' ') line ++ [0] <+: cutFrom (ascii ' ') line ++ 0 :: tail := by
      simp
    exact hword.trans (hcut.drop i)

/-- The words of `ls  -l /`, with spaces around them and a letter taken back. -/
theorem args_are_the_words_of_ls : ∃ buf parsed,
    readline (replicate lineSize 1) lineSize (cstr "  ls  -x" ++ 8 :: cstr "l / \n") =
      some buf ∧ parseArgs buf = .ok parsed ∧ parsed.args = [2, 6, 9] ∧
    wordAt (lineOf buf) 6 = cstr "-l" ∧ cstr "-l" ++ [0] <+: parsed.input.drop 6 := by
  have hread : ∃ buf, readline (replicate lineSize 1) lineSize
      (cstr "  ls  -x" ++ 8 :: cstr "l / \n") = some buf ∧ wordStarts (lineOf buf) = [2, 6, 9] ∧
      wordAt (lineOf buf) 6 = cstr "-l" := ⟨_, rfl, by decide +kernel, by decide +kernel⟩
  obtain ⟨buf, hread, hstarts, hword⟩ := hread
  obtain ⟨parsed, hparse, hargs, -, hall⟩ :=
    (args_are_the_words_iff length_replicate hread).2 (by rw [hstarts]; decide)
  rw [hstarts] at hargs
  exact ⟨buf, parsed, hread, hparse, hargs, hword, hword ▸ hall 6 (by simp [hargs])⟩

/-- A line of 33 words of one letter: the last pointer is stored behind `args`. -/
theorem args_end_before_the_words : ∃ buf,
    readline (replicate lineSize 0) lineSize
      ((replicate 33 (cstr "a ")).flatten ++ cstr "\n") = some buf ∧
    (lineOf buf).length = 66 ∧ parseArgs buf = .error .pastArgs := by
  have hread : ((readline (replicate lineSize 0) lineSize
      ((replicate 33 (cstr "a ")).flatten ++ cstr "\n")).any fun buf =>
      (lineOf buf).length = 66 ∧ parseArgs buf = .error .pastArgs) = true := by decide +kernel
  obtain ⟨buf, hread, hbuf⟩ := (Option.any_eq_true _ _).1 hread
  exact ⟨buf, hread, of_decide_eq_true hbuf⟩

end User

end CobjOs
