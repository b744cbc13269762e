import CobjOs.Properties.FrameOwnership

/-!
# Where `sys_mmap` puts a mapping

Without an address `sys_mmap` maps from `heap_top` on, and looks at nothing else.  Every call moves
`heap_top` to the end of its range, also down.  As long as explicit addresses are not below
`heap_top`, images end below its first value and ranges below the stack, every mapped page is below
`heap_top` or in the stack (`ProcSys.BelowTop`), and the kernel's choice is free.
-/

namespace CobjOs

open List Option

namespace ProcSys

variable {s s' : ProcSys} {op : ProcOp} {i : ℕ} {p' : LiveProc}

/-- Images end below the first `heap_top`, explicit addresses are not below `heap_top`, and ranges
end below the stack. -/
def Grows (s : ProcSys) : ProcOp → Prop
  | .create elfData elfSize argv => s.Ok (.create elfData elfSize argv) ∧
      ∀ k ∈ elfPageNumbers elfData elfSize, k * pageSize < 0x10000000
  | .mmap pid addr size => ∀ p, s.running pid = some p →
      p.mem.heapTop ≤ mmapBase p addr ∧ mmapBase p addr + size ≤ stackBase
  | op => s.Ok op

instance (s : ProcSys) : ∀ op, Decidable (s.Grows op)
  | .create elfData elfSize argv => inferInstanceAs (Decidable
      (s.Ok (.create elfData elfSize argv) ∧
        ∀ k ∈ elfPageNumbers elfData elfSize, k * pageSize < 0x10000000))
  | .mmap pid addr size => decidable_of_iff (∀ p ∈ s.running pid,
      p.mem.heapTop ≤ mmapBase p addr ∧ mmapBase p addr + size ≤ stackBase) Iff.rfl
  | .munmap pid addr size => inferInstanceAs (Decidable (s.Ok (.munmap pid addr size)))
  | .kmalloc size => inferInstanceAs (Decidable (s.Ok (.kmalloc size)))
  | .store .. | .die _ | .cleanup | .kfree _ => .isTrue trivial

lemma Grows.ok (h : s.Grows op) : s.Ok op := by
  cases op with
  | create elfData elfSize argv => exact h.1
  | mmap pid addr size =>
    intro p hp
    exact (h p hp).2.trans (by decide)
  | _ => exact h

/-! ## The steps of `heap_top` -/

lemma getElem?_setProc {pid : ℕ} {m : Mm} {q : LiveProc}
    (h : (s.setProc pid m q).procs[i]? = some p') :
    (i = pid ∧ p' = q) ∨ (i ≠ pid ∧ s.procs[i]? = some p') := by
  rw [setProc, getElem?_set] at h
  split_ifs at h with hi hlt
  · exact .inl ⟨hi.symm, (some.inj h).symm⟩
  · exact .inr ⟨fun hpid => hi hpid.symm, h⟩

lemma procs_of_running {p : UserProc} (h : s.running i = some p) :
    s.procs[i]? = some ⟨p, .alive⟩ := by
  obtain ⟨lp, hlp, hif⟩ := bind_eq_some_iff.1 h
  split_ifs at hif with hlife
  rw [hlp, ← some.inj hif, ← hlife]

/-- The loop of `proc_cleanup` leaves what the processes know of their memory. -/
lemma reapAll_user {pids : List ℕ} (h : pids.foldlM reap s = some s') :
    ∀ (i : ℕ) (p' : LiveProc), s'.procs[i]? = some p' →
      ∃ p : LiveProc, s.procs[i]? = some p ∧ p'.user = p.user := by
  refine foldlM_invariant (I := fun t : ProcSys => ∀ (i : ℕ) (p' : LiveProc),
    t.procs[i]? = some p' → ∃ p : LiveProc, s.procs[i]? = some p ∧ p'.user = p.user) ?_ pids s
    (fun i p' hp' => ⟨p', hp', rfl⟩) h
  intro t pid t' ih hreap i p' hp'
  obtain ⟨q, hq, hreap⟩ := bind_eq_some_iff.1 hreap
  split_ifs at hreap with hdead
  · obtain ⟨m, -, ht'⟩ := bind_eq_some_iff.1 hreap
    obtain rfl := some.inj ht'
    rcases getElem?_setProc hp' with ⟨rfl, rfl⟩ | ⟨-, hp'⟩
    · exact ih i q hq
    · exact ih i p' hp'
  · obtain rfl := some.inj hreap
    exact ih i p' hp'

/-- Only `sys_mmap` of a process changes its `heap_top`. -/
lemma step_heapTop (hstep : s.step op = some s') (hp' : s'.procs[i]? = some p') :
    ((∀ k, ¬s.maps op i k) ∧
      ∃ p, s.procs[i]? = some p ∧ p'.user.mem.heapTop = p.user.mem.heapTop) ∨
    (∃ addr size p, op = .mmap i addr size ∧ s.running i = some p ∧ p'.user.mem.heapTop =
      u64 (mmapBase p addr + u64 (size + 4095) / pageSize * pageSize)) ∨
    ∃ elfData elfSize argv, op = .create elfData elfSize argv ∧ i = s.procs.length ∧
      p'.user.mem.heapTop = 0x10000000 := by
  cases op with
  | create elfData elfSize argv =>
    obtain ⟨⟨m', r⟩, hcall, hs'⟩ := bind_eq_some_iff.1 hstep
    cases r with
    | none =>
      obtain rfl := some.inj hs'
      refine .inl ⟨fun k hk => ?_, p', hp', rfl⟩
      exact absurd hk.1 (Nat.ne_of_lt (List.getElem?_eq_some_iff.1 hp').1)
    | some p =>
      obtain rfl := some.inj hs'
      dsimp only at hp'
      rw [getElem?_append] at hp'
      split_ifs at hp' with hi
      · exact .inl ⟨fun k hk => absurd hk.1 (Nat.ne_of_lt hi), p', hp', rfl⟩
      · rw [getElem?_singleton] at hp'
        split_ifs at hp' with hlast
        obtain rfl := some.inj hp'
        refine .inr (.inr ⟨elfData, elfSize, argv, rfl, by omega, ?_⟩)
        exact (Mm.procCreate_fixed hcall).1
  | mmap pid addr size =>
    simp only [step, bind, bind_eq_some_iff] at hstep
    obtain ⟨p, hp, ⟨m', mem, v⟩, hcall, hs'⟩ := hstep
    obtain rfl := some.inj hs'
    rcases getElem?_setProc hp' with ⟨rfl, rfl⟩ | ⟨hne, hp'⟩
    · refine .inr (.inl ⟨addr, size, p, rfl, hp, ?_⟩)
      obtain ⟨hv, hmem, -⟩ := Mm.sysMmap_eq_some hcall
      rw [hmem, hv]
      rfl
    · exact .inl ⟨fun k hk => hne hk.1, p', hp', rfl⟩
  | munmap pid addr size =>
    simp only [step, bind, bind_eq_some_iff] at hstep
    obtain ⟨p, hp, ⟨m', mem⟩, hcall, hs'⟩ := hstep
    obtain rfl := some.inj hs'
    refine .inl ⟨fun k hk => hk, ?_⟩
    rcases getElem?_setProc hp' with ⟨rfl, rfl⟩ | ⟨-, hp'⟩
    · refine ⟨_, procs_of_running hp, ?_⟩
      rw [(Mm.sysMunmap_eq_some hcall).1]
    · exact ⟨p', hp', rfl⟩
  | store pid virt byte =>
    simp only [step, bind, bind_eq_some_iff] at hstep
    obtain ⟨p, hp, ⟨phys, flags⟩, hget, hs'⟩ := hstep
    split_ifs at hs'
    obtain rfl := some.inj hs'
    exact .inl ⟨fun k hk => hk, p', hp', rfl⟩
  | die pid =>
    simp only [step, bind, bind_eq_some_iff] at hstep
    obtain ⟨p, hp, hs'⟩ := hstep
    obtain rfl := some.inj hs'
    refine .inl ⟨fun k hk => hk, ?_⟩
    rcases getElem?_setProc hp' with ⟨rfl, rfl⟩ | ⟨-, hp'⟩
    · exact ⟨_, procs_of_running hp, rfl⟩
    · exact ⟨p', hp', rfl⟩
  | cleanup =>
    obtain ⟨p, hp, huser⟩ := reapAll_user hstep i p' hp'
    exact .inl ⟨fun k hk => hk, p, hp, by rw [huser]⟩
  | kmalloc size =>
    simp only [step, bind, bind_eq_some_iff] at hstep
    obtain ⟨⟨m', block⟩, hcall, hs'⟩ := hstep
    obtain rfl := some.inj hs'
    exact .inl ⟨fun k hk => hk, p', hp', rfl⟩
  | kfree block =>
    simp only [step, bind, bind_eq_some_iff] at hstep
    obtain ⟨b, hfind, m', hcall, hs'⟩ := hstep
    obtain rfl := some.inj hs'
    exact .inl ⟨fun k hk => hk, p', hp', rfl⟩

/-! ## Every mapped page is below `heap_top` or in the stack -/

/-- The mapped pages of the processes; `xs` are the numbers of their spaces. -/
def BelowTop (s : ProcSys) (roots xs : List ℕ) : Prop :=
  ∀ {i x : ℕ} {p : LiveProc} {k : ℕ}, xs[i]? = some x → s.procs[i]? = some p → k < userPages →
    s.mm.pageEntry roots x k ≠ none →
    k < p.user.mem.heapTop / pageSize ∨ stackBase / pageSize ≤ k

lemma BelowTop.step {roots roots' B xs xs' : List ℕ} (h : BelowTop s roots xs)
    (hlen : xs.length = s.procs.length) (hgrows : s.Grows op) (hstep : s.step op = some s')
    (hadv : Advances s s' op roots roots' B xs xs') : BelowTop s' roots' xs' := by
  intro i x p' k hx hp' hk hmapped
  -- a page that was mapped before
  have hold : ∀ {p : LiveProc}, s.procs[i]? = some p → ¬s.maps op i k →
      k < p.user.mem.heapTop / pageSize ∨ stackBase / pageSize ≤ k := by
    intro p hp hmaps
    have hunmaps : ¬unmaps op i k := fun hun => hmapped (hadv.cleared hx hk hun)
    rw [hadv.entry hx hk hmaps hunmaps] at hmapped
    have hi : i < xs.length := hlen ▸ (List.getElem?_eq_some_iff.1 hp).1
    obtain ⟨zs, rfl⟩ := hadv.slots
    rw [getElem?_append_left hi] at hx
    exact h hx hp hk hmapped
  rcases step_heapTop hstep hp' with ⟨hmaps, p, hp, htop⟩ | ⟨addr, size, p, rfl, hp, htop⟩ |
    ⟨elfData, elfSize, argv, rfl, rfl, htop⟩
  · rw [htop]
    exact hold hp (hmaps k)
  · obtain ⟨hbase, hend⟩ := hgrows p hp
    have hpages : u64 (size + 4095) / pageSize * pageSize ≤ size + 4095 := by
      exact (Nat.div_mul_le_self _ _).trans (Nat.mod_le _ _)
    have hnew : p'.user.mem.heapTop =
        mmapBase p addr + u64 (size + 4095) / pageSize * pageSize := by
      rw [htop]
      refine Nat.mod_eq_of_lt ?_
      have hstack : stackBase < 2 ^ 48 := by decide
      omega
    rw [hnew, page_add]
    by_cases hmaps : k ∈ rangePages (mmapBase p addr) size
    · rw [rangePages, mem_range'_1] at hmaps
      exact .inl hmaps.2
    · have hprev := hold (procs_of_running hp) fun hk => hmaps (by
        obtain ⟨-, q, hq, hin⟩ := hk
        rwa [some.inj (hp.symm.trans hq)])
      refine hprev.imp_left fun hlt => Nat.lt_of_lt_of_le hlt ?_
      exact (Nat.div_le_div_right hbase).trans (Nat.le_add_right _ _)
  · by_cases hmaps : k ∈ elfPageNumbers elfData elfSize ++ List.range' (stackBase / pageSize) 4
    · rcases mem_append.1 hmaps with helf | hstack
      · have hlt := hgrows.2 k helf
        rw [htop]
        unfold pageSize at hlt ⊢
        omega
      · exact .inr (mem_range'_1.1 hstack).1
    · -- nothing else is mapped in the new space
      rw [hadv.entry hx hk (fun hk => hmaps hk.2) (fun hun => hun)] at hmapped
      exact absurd (hadv.fresh hx (Nat.le_of_eq hlen)) hmapped

lemma run_belowTop {m : Mm} {ls : List ProcOp} (hmap : m.Mapped)
    (hrun : Run step Grows (start m) ls s) :
    ∃ L roots lost qs, Inv s L roots [] lost qs ∧ BelowTop s roots (qs.map Slot.idx) := by
  refine hrun.invariant (I := fun s => ∃ L roots lost qs, Inv s L roots [] lost qs ∧
    BelowTop s roots (qs.map Slot.idx)) ⟨_, _, _, _, .start hmap nodup_nil (by simp), ?_⟩ ?_
  · intro i x p k hx
    simp at hx
  · rintro s op s' ⟨L, roots, lost, qs, h, hbelow⟩ hgrows hstep
    obtain ⟨L', roots', lost', qs', hinv, hadv⟩ := h.step hgrows.ok hstep
    have hlen : (qs.map Slot.idx).length = s.procs.length := by
      rw [h.procs, length_map, length_map]
    exact ⟨L', roots', lost', qs', hinv, hbelow.step hlen hgrows hstep hadv⟩

end ProcSys

/-- In every run in which explicit addresses are not below `heap_top` and ranges and images stay
apart, no byte of a range that the kernel chooses was mapped. -/
theorem chosen_range_was_unmapped {m m' : Mm} {ls : List ProcOp} {s : ProcSys} {p : UserProc}
    {mem : ProcMem} {pid size v : ℕ} (hmap : m.Mapped)
    (hrun : Run ProcSys.step ProcSys.Grows (.start m) ls s) (hp : s.running pid = some p)
    (hend : p.mem.heapTop + size ≤ stackBase)
    (hcall : s.mm.sysMmap p.mem 0 size = some (m', mem, v)) :
    ∀ x, v ≤ x → x < v + size → s.mm.vmmGetMapping p.mem.addrSpace x = none := by
  obtain ⟨L, roots, lost, qs, h, hbelow⟩ := ProcSys.run_belowTop hmap hrun
  have hv : v = p.mem.heapTop := (Mm.sysMmap_eq_some hcall).1
  subst hv
  intro x hlo hhi
  have hstack : stackBase = 0x7ffffeffc000 := rfl
  have hvirt : x < 2 ^ 47 := by omega
  obtain ⟨q, hcalls⟩ := h.calls hp
  rw [vmmGetMapping_pageEntry hcalls.space hvirt, map_eq_none_iff]
  by_contra hmapped
  have hor := hbelow (ProcSys.Inv.idx_of_slot hcalls.slot) (ProcSys.procs_of_running hp)
    (div_lt_userPages hvirt) hmapped
  dsimp only at hor
  have hpage : p.mem.heapTop / pageSize ≤ x / pageSize := Nat.div_le_div_right hlo
  rw [hstack] at hor
  unfold pageSize at hor hpage
  omega

/-- The second page that a program asks for. -/
theorem chosen_range_was_unmapped_second : ∃ s p m' mem v,
    Run ProcSys.step ProcSys.Grows (.start smallMachine)
      [.create (fileData (elfFile [] [])) 64 [], .mmap 0 0 4096] s ∧
    s.running 0 = some p ∧ s.mm.sysMmap p.mem 0 4096 = some (m', mem, v) ∧
    ∀ x, v ≤ x → x < v + 4096 → s.mm.vmmGetMapping p.mem.addrSpace x = none := by
  have hexec : ∃ s, Run ProcSys.step ProcSys.Grows (.start smallMachine)
      [.create (fileData (elfFile [] [])) 64 [], .mmap 0 0 4096] s ∧
      ((s.running 0).any fun p => p.mem.heapTop == 0x10001000 &&
        (s.mm.sysMmap p.mem 0 4096).isSome) = true :=
    Run.exists_of_exec (fun s l => decide (ProcSys.Grows s l)) (fun _ _ => of_decide_eq_true)
      (fun s : ProcSys => (s.running 0).any fun p => p.mem.heapTop == 0x10001000 &&
        (s.mm.sysMmap p.mem 0 4096).isSome) (by decide +kernel) (by decide +kernel)
  obtain ⟨s, hrun, hs⟩ := hexec
  obtain ⟨p, hp, hs⟩ := (Option.any_eq_true _ _).1 hs
  rw [Bool.and_eq_true, beq_iff_eq] at hs
  obtain ⟨⟨m', mem, v⟩, hcall⟩ := isSome_iff_exists.1 hs.2
  have hend : p.mem.heapTop + 4096 ≤ stackBase := by
    rw [hs.1]
    decide
  exact ⟨s, p, m', mem, v, hrun, hp, hcall,
    chosen_range_was_unmapped smallMachine_mapped hrun hp hend hcall⟩

/-- A program takes a page, and then asks for the page below `0x10000000`, which is free.  The next
range that the kernel chooses is the page it has already. -/
theorem explicit_address_moves_choice_back : ∃ s p m' mem,
    exec ProcSys.step (.start smallMachine) [.create (fileData (elfFile [] [])) 64 [],
      .mmap 0 0 4096, .mmap 0 0x0ffff000 4096] = some s ∧
    s.running 0 = some p ∧ s.mm.sysMmap p.mem 0 4096 = some (m', mem, 0x10000000) ∧
    (s.mm.vmmGetMapping p.mem.addrSpace 0x10000000).isSome = true := by
  have hrun : (exec ProcSys.step (.start smallMachine) [.create (fileData (elfFile [] [])) 64 [],
      .mmap 0 0 4096, .mmap 0 0x0ffff000 4096]).any (fun s => (s.running 0).any fun p =>
        ((s.mm.sysMmap p.mem 0 4096).any fun r => r.2.2 == 0x10000000) &&
          (s.mm.vmmGetMapping p.mem.addrSpace 0x10000000).isSome) = true := by
    decide +kernel
  obtain ⟨s, hs, hrun⟩ := (Option.any_eq_true _ _).1 hrun
  obtain ⟨p, hp, hrun⟩ := (Option.any_eq_true _ _).1 hrun
  rw [Bool.and_eq_true] at hrun
  obtain ⟨⟨m', mem, v⟩, hcall, hv⟩ := (Option.any_eq_true _ _).1 hrun.1
  obtain rfl : v = 0x10000000 := beq_iff_eq.1 hv
  exact ⟨s, p, m', mem, hs, hp, hcall, hrun.2⟩

end CobjOs
