import CobjOs.Properties.MemoryIsolation

/-!
# What a process leaves behind

A process is made, maps memory, opens files and ports, dies, and `proc_cleanup` frees it.  The
blocks for files and ports are taken and freed by the rest of the kernel here (`ProcOp.kmalloc` and
`ProcOp.kfree`).

`proc_cleanup` frees the regions, the kernel stack, and the records of the thread and the process.
Nothing ever frees the record of the address space, the nodes and files behind descriptors 0 and 1,
the page tables, and the frames of the process.
-/

namespace CobjOs

open List Option

namespace Slot.Continues

variable {q q' q'' : Slot}

lemma refl (q : Slot) : q.Continues q := ⟨rfl, rfl, rfl, rfl⟩

lemma trans (h : q.Continues q') (h' : q'.Continues q'') : q.Continues q'' :=
  ⟨h'.idx.trans h.idx, h'.kstack.trans h.kstack, h'.left.trans h.left, h'.space.trans h.space⟩

end Slot.Continues

namespace ProcSys

/-- What happens while process `pid` runs alone: its own calls and stores, and what the rest of the
kernel takes and frees for it, which are small blocks. -/
def RunsAlone (pid : ℕ) (s : ProcSys) : ProcOp → Prop
  | .mmap i addr size => i = pid ∧ s.Ok (.mmap i addr size)
  | .store i _ _ => i = pid
  | .kmalloc size => s.Ok (.kmalloc size)
  | .kfree block => ∀ b ∈ s.blocks, b.1 = block → b.2 ≤ 2048
  | _ => False

/-- The process in slot `q₀` still runs, behind the processes `qs`, and nothing that was in use in
`s₀` is free. -/
def Lives (s₀ : ProcSys) (roots B : List ℕ) (lost : List (ℕ × ℕ)) (qs : List Slot) (q₀ : Slot)
    (s : ProcSys) : Prop :=
  ∃ L q, Inv s L roots B lost (qs ++ [q]) ∧ q₀.Continues q ∧ q.proc.life = .alive ∧
    ∀ b, s₀.mm.pmm.used b = true → s.mm.pmm.used b = true

variable {s₀ s s' : ProcSys} {roots B : List ℕ} {lost : List (ℕ × ℕ)} {qs : List Slot}
  {q₀ q q' : Slot} {op : ProcOp}

lemma set_last (qs : List Slot) (q q' : Slot) : (qs ++ [q]).set qs.length q' = qs ++ [q'] := by
  rw [set_append_right _ _ (Nat.le_refl _), Nat.sub_self, set_cons_zero]

lemma last_eq (h : (qs ++ [q])[qs.length]? = some q') : q = q' := by
  simpa using h

lemma Lives.step (h : Lives s₀ roots B lost qs q₀ s) (hop : s.RunsAlone qs.length op)
    (hstep : s.step op = some s') : Lives s₀ roots B lost qs q₀ s' := by
  obtain ⟨L, q, hinv, hcont, hlife, hused⟩ := h
  cases op with
  | mmap i addr size =>
    obtain ⟨rfl, hok⟩ := hop
    obtain ⟨L', r, q', hr, hcont', hlife', hinv', -, hused'⟩ := hinv.mmap hok hstep
    obtain rfl := last_eq hr
    rw [set_last] at hinv'
    exact ⟨L', q', hinv', hcont.trans hcont', hlife', fun b hb => hused' b (hused b hb)⟩
  | store i virt byte =>
    obtain ⟨hinv', -⟩ := hinv.store hstep
    simp only [ProcSys.step, bind, bind_eq_some_iff] at hstep
    obtain ⟨p, hp, ⟨phys, flags⟩, hget, hs'⟩ := hstep
    split_ifs at hs'
    obtain rfl := some.inj hs'
    exact ⟨L, q, hinv', hcont, hlife, hused⟩
  | kmalloc size =>
    obtain ⟨L', hinv', -, hused'⟩ := hinv.kmalloc hop hstep
    exact ⟨L', q, hinv', hcont, hlife, fun b hb => hused' b (hused b hb)⟩
  | kfree block =>
    obtain ⟨L', hinv', -, hused'⟩ := hinv.kfree hstep
    refine ⟨L', q, hinv', hcont, hlife, fun b hb => ?_⟩
    rw [hused' hop b]
    exact hused b hb
  | create | munmap | die | cleanup => exact absurd hop id

end ProcSys

/-- What is there after the life of the process `p`, with `s` the state before it and `s'` the one
after it. -/
structure LeavesSpace (s s' : ProcSys) (p : UserProc) : Prop where
  /-- The heap has what it had, as the rest of the kernel changed it, and what is left of `p`. -/
  heap : ∃ L L' others, L.Inv s.mm ∧ L'.Inv s'.mm ∧ Blocks s.mm L (s.blocks ++ others) ∧
    Blocks s'.mm L' (p.leftBlocks ++ (s'.blocks ++ others))
  used : ∀ b, s.mm.pmm.used b = true → s'.mm.pmm.used b = true
  stack : ∀ b, p.kernelStack ≤ s.mm.kaddr b → s.mm.kaddr b < p.kernelStack + stackSize →
    s'.mm.pmm.used b = false
  root : s.mm.pmm.used (s'.mm.spaceRoot p.mem.addrSpace) = false ∧
    s'.mm.pmm.used (s'.mm.spaceRoot p.mem.addrSpace) = true
  frames : ∀ virt f flags, virt < userSpaceTop →
    s'.mm.vmmGetMapping p.mem.addrSpace virt = some (f * pageSize, flags) →
    s'.mm.pmm.used f = true

section Life

variable {m m' : Mm} {s s' : ProcSys} {qs : List Slot} {p : UserProc} {elfData : FileData}
  {elfSize : ℕ} {argv : List (List UInt8)}

/-- `proc_create` opens two files. -/
lemma length_leftBlocks (h : m.procCreate elfData elfSize argv = some (m', some p)) :
    p.leftBlocks.length = 5 := by
  simp [UserProc.leftBlocks, length_flatMap, (Mm.procCreate_fixed h).2]

/-- A new process is the last one. -/
lemma ProcSys.step_create (hstep : s.step (.create elfData elfSize argv) = some s')
    (hp : s'.running s.procs.length = some p) :
    ∃ m', s.mm.procCreate elfData elfSize argv = some (m', some p) ∧
      s' = { s with mm := m', procs := s.procs ++ [⟨p, .alive⟩] } := by
  have hproc := procs_of_running hp
  obtain ⟨⟨m', r⟩, hcall, hs'⟩ := bind_eq_some_iff.1 hstep
  cases r with
  | none =>
    obtain rfl := some.inj hs'
    simp at hproc
  | some p' =>
    obtain rfl := some.inj hs'
    obtain rfl : p' = p := by simpa using hproc
    exact ⟨m', hcall, rfl⟩

/-- Only the last process is dead. -/
lemma reaped_last {q₃ : Slot} (hidle : ∀ q ∈ qs, q.proc.life ≠ .dead) :
    (qs ++ [q₃]).map Slot.reaped = qs ++ [q₃.reaped] := by
  rw [map_append, map_singleton]
  rw [map_congr_left fun q hq => Slot.reaped_of_not_dead (hidle q hq), List.map_id']

end Life

end CobjOs
