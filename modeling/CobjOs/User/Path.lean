import CobjOs.Framework.LexicalPath
import CobjOs.User.Printf

/-!
# Joining paths

`join` of `src/user/lib/fs.c`, which `open`, `chdir` and the shell resolve their arguments with.
The components `comps[0]` to `comps[ncomps - 1]` are a list, and so is the token `tok[0]` to
`tok[ti - 1]`.  The two loops over the bytes of a path are one definition, `tokenise`.  `none`
stands for the return value `-1`, and what `out` has in it then is left out.

A token has room for 63 bytes, and the bytes behind them are dropped.  `tokenise_eq` says what
remains of the two loops: the parts of the path are cut to 63 bytes each, and then resolved on a
stack of 32.  `printPath_eq` says the same of the second half: `snprintf` returns the number of
bytes it stored, so the test for a path that does not fit never fails, and the path is cut.
-/

namespace CobjOs

open List

namespace User

open LexicalPath

/-- `sizeof(tok) - 1`. -/
def tokMax : ℕ := 63

/-- The number of rows of `comps`. -/
def compsMax : ℕ := 32

/-- `comps` and `tok`. -/
structure Tokens where
  comps : List CStr
  tok : CStr
  deriving DecidableEq, Repr

/-- `PUSH_TOK`. -/
def pushTok (s : Tokens) : Option Tokens :=
  if s.tok = [] then some s
  else if s.tok = cstr "." then some { s with tok := [] }
  else if s.tok = cstr ".." then some { comps := s.comps.dropLast, tok := [] }
  else if compsMax ≤ s.comps.length then none
  else some { comps := s.comps ++ [s.tok.take tokMax], tok := [] }

/-- One byte of a path. -/
def tokenByte (s : Tokens) (c : UInt8) : Option Tokens :=
  if c = slash then pushTok s
  else if s.tok.length < tokMax then some { s with tok := s.tok ++ [c] }
  else some s

/-- The loop over the bytes of a path, and the `PUSH_TOK` behind it. -/
def tokenise (s : Tokens) (p : CStr) : Option Tokens := p.foldlM tokenByte s >>= pushTok

/-- The loop over the components at the end, with `out` up to its NUL. -/
def printComps (size : UInt64) :
    List CStr → CStr → UInt64 → Except FormatFault (Option CStr)
  | [], out, _ => .ok (some out)
  | c :: comps, out, off => do
    let sep := if comps = [] then cstr "" else cstr "/"
    let printed ← snprintf (size - off) (cstr "%s%s") [.str (some c), .str (some sep)]
    if printed.ret < 0 ∨ (size - off).toNat ≤ printed.ret.toNat then return none
    else
      printComps size comps (out.take off.toNat ++ printed.out)
        (off + UInt64.ofNat printed.ret.toNat)

/-- The drive, a slash and the components. -/
def printPath (size : UInt64) (drive : CStr) (comps : List CStr) :
    Except FormatFault (Option CStr) := do
  let printed ← snprintf size (cstr "%s/") [.str (some drive)]
  if printed.ret < 0 ∨ size.toNat ≤ printed.ret.toNat then return none
  else printComps size comps printed.out (UInt64.ofNat printed.ret.toNat)

/-- The components of `join`: those of the working directory unless the input starts with a slash,
and those of the input. -/
def joinComps (rest input : CStr) : Option (List CStr) := do
  let s : Tokens := ⟨[], []⟩
  let s ← if charAt input 0 ≠ slash then tokenise s rest else some s
  let s ← tokenise { s with tok := [] } input
  return s.comps

/-- `join`. -/
def join (size : UInt64) (cwd input : CStr) : Except FormatFault (Option CStr) :=
  if colon ∈ input then .ok (some (input.take (size - 1).toNat))
  else if colon ∉ cwd then .ok none
  else
    let drive := cwd.takeWhile (· ≠ colon) ++ [colon]
    if 8 ≤ drive.length then .ok none
    else
      match joinComps (cwd.drop drive.length) input with
      | none => .ok none
      | some comps => printPath size drive comps

/-! ## The components -/

section Tokens

variable {comps cs : List CStr} {t p : CStr}

/-- A component as far as `tok` has room for it. -/
def cut (c : CStr) : CStr := c.take tokMax

/-- The parts of a path as `join` sees them, on its stack. -/
def pushComps (comps cs : List CStr) : Option (List CStr) :=
  (cs.map cut).foldlM (enterMax (cstr ".") (cstr "..") compsMax) comps

lemma cut_cut (c : CStr) : cut (cut c) = cut c := by
  rw [cut, cut, take_take, Nat.min_self]

lemma length_cut (c : CStr) : (cut c).length = min tokMax c.length := length_take

lemma cut_ne_nil (h : t ≠ []) : cut t ≠ [] := by simpa [cut, tokMax] using h

/-- A byte that is no slash, behind the bytes of a token so far. -/
lemma tokenByte_cut {c : UInt8} (hc : c ≠ slash) :
    tokenByte ⟨comps, cut t⟩ c = some ⟨comps, cut (t ++ [c])⟩ := by
  rw [tokenByte, if_neg hc]
  simp only [length_cut]
  split_ifs with hroom
  · have hlen : (t ++ [c]).length ≤ tokMax := by
      rw [length_append, length_singleton]
      omega
    rw [cut, cut, take_of_length_le hlen, take_of_length_le (by omega)]
  · rw [cut, cut, take_append_of_le_length (by omega)]

lemma pushTok_cut (ht : t ≠ []) : pushTok ⟨comps, cut t⟩ =
    (enterMax (cstr ".") (cstr "..") compsMax comps (cut t)).map (⟨·, []⟩) := by
  have hcut : (cut t).take tokMax = cut t := cut_cut t
  simp only [pushTok, enterMax, if_neg (cut_ne_nil ht), hcut]
  split_ifs <;> rfl

lemma pushTok_fields (ht : slash ∉ t) :
    pushTok ⟨comps, cut t⟩ = (pushComps comps (fields slash t)).map (⟨·, []⟩) := by
  rcases eq_or_ne t [] with rfl | hne
  · simp [pushComps, pushTok, cut]
  · rw [fields_of_notMem ht hne, pushTok_cut hne]
    simp [pushComps]

lemma pushComps_append (comps cs cs' : List CStr) :
    pushComps comps (cs ++ cs') = (pushComps comps cs).bind (pushComps · cs') := by
  simp [pushComps, foldlM_append, Option.bind_eq_bind]

/-- The loop in the middle of a token.  The bytes `t` of it came before, and `tok` has as much of
them as fits. -/
lemma foldlM_tokenByte (comps : List CStr) (p : CStr) (ht : slash ∉ t) :
    (p.foldlM tokenByte ⟨comps, cut t⟩ >>= pushTok) =
      (pushComps comps (fields slash (t ++ p))).map (⟨·, []⟩) := by
  induction p generalizing comps t with
  | nil => simpa using pushTok_fields ht
  | cons c p ih =>
    rw [foldlM_cons]
    by_cases hc : c = slash
    · -- the token ends, and an empty one starts
      obtain rfl := hc
      have hbyte : tokenByte ⟨comps, cut t⟩ slash = pushTok ⟨comps, cut t⟩ := if_pos rfl
      rw [hbyte, pushTok_fields ht, fields_append_cons, pushComps_append]
      cases pushComps comps (fields slash t) with
      | none => rfl
      | some comps' => simpa [cut] using ih comps' (t := []) (by simp)
    · rw [tokenByte_cut hc]
      simpa using ih comps (t := t ++ [c]) (by simp [ht, Ne.symm hc])

lemma tokenise_eq (comps : List CStr) (p : CStr) :
    tokenise ⟨comps, []⟩ p = (pushComps comps (fields slash p)).map (⟨·, []⟩) := by
  simpa [tokenise, cut] using foldlM_tokenByte comps p (t := []) (by simp)

lemma tokenise_comps (comps : List CStr) (p : CStr) :
    ((tokenise ⟨comps, []⟩ p).bind fun s => some s.comps) = pushComps comps (fields slash p) := by
  rw [tokenise_eq]
  cases pushComps comps (fields slash p) <;> rfl

/-- The parts that `join` goes over. -/
def joinParts (rest input : CStr) : List CStr :=
  (if charAt input 0 ≠ slash then fields slash rest else []) ++ fields slash input

lemma joinComps_eq (rest input : CStr) :
    joinComps rest input = pushComps [] (joinParts rest input) := by
  rw [joinParts, pushComps_append]
  by_cases habs : charAt input 0 ≠ slash
  · rw [joinComps, if_pos habs, if_pos habs, tokenise_eq]
    cases pushComps [] (fields slash rest) with
    | none => rfl
    | some comps => exact tokenise_comps comps input
  · rw [joinComps, if_neg habs, if_neg habs]
    exact tokenise_comps [] input

end Tokens

/-! ## The text -/

section Text

variable {size off : UInt64} {s t out : CStr} {comps : List CStr}

/-- A text that is stored as far as there is room, and the return value, for a short text. -/
def stored (size : UInt64) (text : CStr) : Printed :=
  ⟨text.take (size.toNat - 1), (text.take (size.toNat - 1)).length, []⟩

lemma snprintf_eq_stored {fmt text : CStr} {args : List Arg} (hsize : 0 < size.toNat)
    (hlen : text.length < 2 ^ 31)
    (h : vsnprintfLoop size fmt.length fmt args [] = .ok (putAll size [] text, [])) :
    snprintf size fmt args = .ok (stored size text) := by
  have hout : putAll size [] text = text.take (size.toNat - 1) := by
    rw [putAll_eq, toNat_sub_one hsize]
    rfl
  have hshort : (text.take (size.toNat - 1)).length < 2 ^ 31 :=
    (length_take_le' _ _).trans_lt hlen
  rw [snprintf, vsnprintf, h, hout]
  simp only [bind, Except.bind, toInt32_eq hshort]
  rfl

lemma snprintf_string_slash (hsize : 0 < size.toNat) (hs : s.length < 2 ^ 30) :
    snprintf size (cstr "%s/") [.str (some s)] = .ok (stored size (s ++ [slash])) := by
  refine snprintf_eq_stored hsize (by simp; omega) ?_
  have hfmt : cstr "%s/" = [ascii '%', ascii 's', slash] := rfl
  rw [hfmt, length_cons, vsnprintfLoop_string (by omega), length_cons,
    vsnprintfLoop_cons (by decide), ← putAll_append]
  rfl

lemma snprintf_strings (hsize : 0 < size.toNat) (hs : s.length < 2 ^ 30) (ht : t.length < 2 ^ 30) :
    snprintf size (cstr "%s%s") [.str (some s), .str (some t)] = .ok (stored size (s ++ t)) := by
  refine snprintf_eq_stored hsize (by simp; omega) ?_
  have hfmt : cstr "%s%s" = [ascii '%', ascii 's', ascii '%', ascii 's'] := rfl
  rw [hfmt, length_cons, vsnprintfLoop_string (by omega), length_cons,
    vsnprintfLoop_string (by omega), putAll_append]
  rfl

/-- The test behind `snprintf` does not fail. -/
lemma stored_fits (hsize : 0 < size.toNat) :
    ¬((stored size t).ret < 0 ∨ size.toNat ≤ (stored size t).ret.toNat) := by
  simp only [stored, Int.toNat_natCast, length_take]
  omega

lemma take_append_take {k : ℕ} (hout : out.length ≤ k) (s t : CStr) :
    (out ++ s.take (k - out.length) ++ t).take k = (out ++ (s ++ t)).take k := by
  obtain ⟨j, rfl⟩ := Nat.exists_eq_add_of_le hout
  rw [Nat.add_sub_cancel_left, append_assoc, take_length_add_append,
    take_length_add_append]
  rcases Nat.le_total s.length j with hle | hle
  · rw [take_of_length_le hle]
  · rw [take_append_of_le_length hle,
      take_append_of_le_length (by rw [length_take]; omega), take_take,
      Nat.min_self]

lemma intercalate_cons (c : CStr) (comps : List CStr) : [slash].intercalate (c :: comps) =
    c ++ (if comps = [] then cstr "" else cstr "/") ++ [slash].intercalate comps := by
  cases comps with
  | nil => simp [List.intercalate, cstr]
  | cons d comps =>
    rw [intercalate_cons_cons, if_neg (by simp)]
    rfl

/-- The loop at the end.  `off` stays at the end of what was stored, and there is room for the NUL
behind it. -/
lemma printComps_eq (hoff : off.toNat = out.length) (hroom : out.length < size.toNat)
    (hcomps : ∀ c ∈ comps, c.length ≤ tokMax) :
    printComps size comps out off =
      .ok (some ((out ++ [slash].intercalate comps).take (size.toNat - 1))) := by
  induction comps generalizing out off with
  | nil =>
    rw [printComps, take_of_length_le (by simp [List.intercalate]; omega)]
    simp [List.intercalate]
  | cons c comps ih =>
    have hle : off ≤ size := UInt64.le_iff_toNat_le.2 (by omega)
    have hleft : (size - off).toNat = size.toNat - out.length := by
      rw [UInt64.toNat_sub_of_le _ _ hle, hoff]
    have hpos : 0 < (size - off).toNat := by omega
    have hc : c.length ≤ 63 := hcomps c mem_cons_self
    have hsep : (if comps = [] then cstr "" else cstr "/").length ≤ 1 := by
      split_ifs <;> decide
    rw [printComps, snprintf_strings hpos (by omega) (by omega)]
    simp only [bind, Except.bind, if_neg (stored_fits hpos)]
    generalize htext : c ++ (if comps = [] then cstr "" else cstr "/") = text
    have hlen : text.length < 2 ^ 30 := by
      rw [← htext, length_append]
      omega
    have hstored : (stored (size - off) text).out = text.take (size.toNat - 1 - out.length) := by
      rw [stored, hleft, Nat.sub_right_comm]
    have hret : (stored (size - off) text).ret.toNat = (stored (size - off) text).out.length :=
      Int.toNat_natCast _
    have hfits : (stored (size - off) text).out.length ≤ size.toNat - 1 - out.length := by
      rw [hstored]
      exact length_take_le _ _
    have hsize : size.toNat < 2 ^ 64 := size.toNat_lt
    have hoff' : (off + UInt64.ofNat (stored (size - off) text).out.length).toNat =
        (out ++ (stored (size - off) text).out).length := by
      rw [UInt64.toNat_add, UInt64.toNat_ofNat', hoff, length_append]
      omega
    have htake : out.take off.toNat = out := take_of_length_le hoff.ge
    rw [hret, htake, ih hoff' (by rw [length_append]; omega)
      fun d hd => hcomps d (mem_cons_of_mem c hd), hstored,
      take_append_take (by omega), intercalate_cons, htext]

lemma printPath_eq {drive : CStr} (hsize : 0 < size.toNat) (hdrive : drive.length < 8)
    (hcomps : ∀ c ∈ comps, c.length ≤ tokMax) :
    printPath size drive comps =
      .ok (some ((drive ++ slash :: [slash].intercalate comps).take (size.toNat - 1))) := by
  rw [printPath, snprintf_string_slash hsize (by omega)]
  simp only [bind, Except.bind, if_neg (stored_fits hsize)]
  have hret : (stored size (drive ++ [slash])).ret.toNat =
      (stored size (drive ++ [slash])).out.length := Int.toNat_natCast _
  have hfits : (stored size (drive ++ [slash])).out.length ≤ size.toNat - 1 :=
    length_take_le _ _
  have hbound : size.toNat < 2 ^ 64 := size.toNat_lt
  rw [hret, printComps_eq (by rw [UInt64.toNat_ofNat']; omega) (by omega) hcomps]
  have hnil : ([] : CStr).length ≤ size.toNat - 1 := Nat.zero_le _
  have hcut := take_append_take hnil (drive ++ [slash]) ([slash].intercalate comps)
  simpa [stored] using hcut

end Text

/-! ## The whole -/

section Join

variable {size : UInt64} {drive rest input : CStr} {comps : List CStr}

/-- A path in full: the drive, and the components from its root. -/
def fullPath (drive : CStr) (comps : List CStr) : CStr :=
  drive ++ colon :: slash :: [slash].intercalate comps

lemma length_of_pushComps {cs : List CStr} (h : pushComps [] cs = some comps) :
    ∀ c ∈ comps, c.length ≤ tokMax := by
  intro c hc
  obtain ⟨rfl, -⟩ := resolveMax_eq_some h
  obtain ⟨d, -, rfl⟩ := mem_map.1 (mem_resolve hc).1
  exact length_take_le _ _

/-- `join` of an input without a colon: the components that the stack takes, and as much of the
path as fits. -/
lemma join_eq (hsize : 0 < size.toNat) (hdrive : drive.length ≤ 6) (hcolon : colon ∉ drive)
    (hinput : colon ∉ input) :
    join size (drive ++ colon :: rest) input =
      .ok ((pushComps [] (joinParts rest input)).map fun comps =>
        (fullPath drive comps).take (size.toNat - 1)) := by
  have hwhile : (drive ++ colon :: rest).takeWhile (fun b => decide (b ≠ colon)) = drive := by
    rw [takeWhile_append_of_pos fun b hb => by
      simpa using ne_of_mem_of_not_mem hb hcolon]
    simp
  have hlen : (drive ++ [colon]).length < 8 := by
    rw [length_append, length_singleton]
    omega
  have hrest : (drive ++ colon :: rest).drop (drive ++ [colon]).length = rest := by
    rw [show drive ++ colon :: rest = (drive ++ [colon]) ++ rest by simp, drop_left]
  rw [join, if_neg hinput, if_neg (by simp), hwhile]
  dsimp only
  rw [if_neg (by omega), hrest, joinComps_eq]
  cases hcomps : pushComps [] (joinParts rest input) with
  | none => rfl
  | some comps =>
    dsimp only
    rw [printPath_eq hsize hlen (length_of_pushComps hcomps)]
    simp [fullPath]

end Join

end User

end CobjOs
