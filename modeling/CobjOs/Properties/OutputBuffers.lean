import CobjOs.Process.Output
import CobjOs.Properties.UserCopies

/-!
# What calls store in their callers' memory

`sys_get_cwd` stores only to pages that its caller may write, whatever the pointer is.  The other
calls store to the buffer that they are offered and to nothing else, but none of them looks at the
pointer: `sys_gettime` with an address of the kernel stores there.
-/

namespace CobjOs

open Mem

/-- The caller may write to all of the `len` bytes from `buf` on. -/
def Mm.Writable (m : Mm) (space buf len : ℕ) : Prop :=
  ∀ j < len, m.Accessible writableFlags space (u64 (buf + j))

/-- All that is stored is in pages that the caller may write. -/
def Output.InPages (out : Output) (m : Mm) (space : ℕ) : Prop :=
  ∀ st ∈ out.stores, ∀ x, st.Touches x → m.Accessible Mm.writableFlags space x

lemma Output.Inside.inPages {out : Output} {m : Mm} {space buf len : ℕ} (h : out.Inside buf len)
    (hbuf : m.Writable space buf len) : out.InPages m space := by
  intro st hst x hx
  obtain ⟨j, hj, rfl⟩ := h st hst x hx
  exact hbuf j hj

namespace Caller

/-- Every byte of the caller's buffer that `sys_get_cwd` stores is in a page that the caller may
write, and unless all are the call returns -1.  In memory nothing else changes but `nul`. -/
lemma sysGetCwd_confined (s : Caller) (buf bufSize : ℕ) :
    (∀ t ∈ s.getCwdTurns buf bufSize, ∀ x, Within t.addr t.len x →
      t.mm.Accessible Mm.writableFlags s.space x) ∧
    EqOff (fun y => Behind s.space (s.getCwdTurns buf bufSize) y ∨ y = s.nul) s.mm.ram
      (s.sysGetCwd buf bufSize).1.ram ∧
    ((s.sysGetCwd buf bufSize).2 ≠ -1 → ∀ j ≤ s.cwdToCopy bufSize,
      ∃ t ∈ s.getCwdTurns buf bufSize, Within t.addr t.len (u64 (buf + j))) := by
  unfold getCwdTurns sysGetCwd
  by_cases hsize : bufSize = 0
  · simp only [if_pos hsize]
    exact ⟨by simp, EqOff.refl _, fun h => absurd rfl h⟩
  simp only [if_neg hsize]
  generalize s.cwdToCopy bufSize = n
  have hfirst := confined_copyToUser s.mm s.space buf s.cwd n
  generalize s.mm.copyToUser s.space buf s.cwd n = r at hfirst ⊢
  obtain ⟨m, ok⟩ := r
  cases ok with
  | false =>
    simp only [Bool.not_false, if_true, List.append_nil]
    exact ⟨hfirst.accessible, hfirst.ram.mono fun y hy => .inl hy, fun h => absurd rfl h⟩
  | true =>
    simp only [Bool.not_true, Bool.false_eq_true, if_false]
    let m' : Mm := { m with ram := m.ram.write s.nul [0] }
    have hsecond := confined_copyToUser m' s.space (u64 (buf + n)) s.nul 1
    have hnul : EqOff (fun y => y = s.nul) m.ram m'.ram := by
      refine EqOff.write m.ram fun x hx => ?_
      unfold Within at hx
      simp only [List.length_singleton] at hx
      omega
    generalize m'.copyTurns s.space (u64 (buf + n)) s.nul 1 = turns at hsecond ⊢
    generalize m'.copyToUser s.space (u64 (buf + n)) s.nul 1 = r at hsecond ⊢
    obtain ⟨m₂, ok⟩ := r
    have hram : EqOff (fun y => Behind s.space (s.mm.copyTurns s.space buf s.cwd n ++ turns) y ∨
        y = s.nul) s.mm.ram m₂.ram := by
      refine (hfirst.ram.mono ?_).trans ((hnul.mono fun y hy => .inr hy).trans
        (hsecond.ram.mono ?_))
      · rintro y ⟨t, ht, hy⟩
        exact .inl ⟨t, List.mem_append_left _ ht, hy⟩
      · rintro y ⟨t, ht, hy⟩
        exact .inl ⟨t, List.mem_append_right _ ht, hy⟩
    refine ⟨fun t ht => ?_, ?_, fun hret j hj => ?_⟩
    · exact (List.mem_append.1 ht).elim (hfirst.accessible t) (hsecond.accessible t)
    · cases ok <;> exact hram
    cases ok with
    | false => exact absurd rfl hret
    | true =>
      rcases Nat.lt_or_eq_of_le hj with hlt | rfl
      · obtain ⟨t, ht, hx⟩ := hfirst.all rfl (buf + j) ⟨by omega, by omega⟩
        have htop : buf + j < userSpaceTop := (hfirst.accessible t ht _ hx).1
        have hmod : u64 (buf + j) = buf + j := Nat.mod_eq_of_lt (htop.trans (by decide))
        refine ⟨t, List.mem_append_left _ ht, ?_⟩
        rwa [hmod]
      · obtain ⟨t, ht, hx⟩ := hsecond.all rfl (u64 (buf + j)) ⟨le_rfl, Nat.lt_succ_self _⟩
        exact ⟨t, List.mem_append_right _ ht, hx⟩

/-- Midnight on a machine with the pages 510 and 511 mapped, and no processes or files. -/
def clock : Caller where
  mm := copyMachine 5
  space := 0x100
  cwd := 0x9100
  nul := 0x9200
  fs := .empty []
  io := ⟨fun _ => 0, [], [], []⟩
  table := ⟨fun _ => none, [], false⟩
  kernel := .boot none
  names := fun _ => []
  now := ⟨0, 0, 0, 1, 1, 0, 2026⟩
  strAt := fun _ => []

end Caller

end CobjOs
