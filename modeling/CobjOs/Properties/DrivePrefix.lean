import CobjOs.Fs.PathSpec

/-!
# The drive prefix of a path

A path should name a drive by its number in decimal digits, followed by a colon.  `parse_path`
accumulates the digits in an `int` and does not ask for a digit at all.  So the result is as it
should be for a prefix that has a byte and whose value fits the `int`; without digits, and for
values that wrap, other strings lead to a drive as well.
-/

namespace CobjOs

namespace Fs

/-- `vfs_resolve` from the root of a drive on. -/
def resolveFrom (fs : Fs) (root : Ptr) (rel : CStr) : Except Fault (Fs × Option Ptr) := do
  let (fs, res) ← walk root (components rel) root fs
  if res = some root then
    let nd ← fs.node root
    .ok (fs.setNode root { nd with refcount := (nd.refcount + 1) % 2 ^ 32 }, res)
  else .ok (fs, res)

/-- The string is the number of a drive that is present, a colon and `rel`. -/
def NamesDrive (fs : Fs) (s : CStr) (root : Ptr) (rel : CStr) : Prop :=
  ∃ digits, s = digits ++ colon :: rel ∧ digits ≠ [] ∧ Digits digits ∧ decimal digits < maxDrives ∧
    ∃ d, fs.drives[decimal digits]? = some d ∧ d.present = true ∧ d.root = some root

lemma driveRoot_eq_some {fs : Fs} {n : ℕ} {root : Ptr} :
    fs.driveRoot n = some root ↔ n < maxDrives ∧
      ∃ d, fs.drives[n]? = some d ∧ d.present = true ∧ d.root = some root := by
  unfold driveRoot
  by_cases hn : n < maxDrives
  · have hcond : ¬((n : ℤ) < 0 ∨ (maxDrives : ℤ) ≤ n) := by omega
    rw [if_neg hcond]
    simp [Option.bind_eq_some_iff, hn]
  · have hcond : (n : ℤ) < 0 ∨ (maxDrives : ℤ) ≤ n := by omega
    simp [hcond, hn]

end Fs

end CobjOs
