import CobjOs.Properties.NodeLifetime
import CobjOs.Properties.UserCopies

/-!
# Working directories

`sys_set_cwd` copies at most 255 bytes of the path that the caller names by a buffer and a length,
and it does not tell a path that ends there from one that goes on.  A path of up to 255 bytes
becomes the working directory as it is; of a longer one the first 255 bytes do, if they lead to a
directory by themselves.

In every state that is reached, the working directories are strings of at most 255 bytes that lead
to directories, and a process that is started has the one of the process that started it.
-/

namespace CobjOs

open List

/-! ## The caller's buffer -/

/-- Byte `i` of a buffer of a program, if the program may read it. -/
def Mm.readableByte (m : Mm) (space buf i : ℕ) : Option UInt8 :=
  if buf + i < userSpaceTop then
    (m.vmmGetMapping space (buf + i)).bind fun e =>
      if readableFlags e.2 then some (m.ram (e.1 + m.hhdm + (buf + i) % pageSize)) else none
  else none

section

variable {m : Mm} {space buf len i : ℕ}

lemma Mm.readableByte_of_accessible (h : m.Accessible readableFlags space (buf + i)) :
    ∃ y, m.userAddr space (buf + i) = some y ∧ m.readableByte space buf i = some (m.ram y) := by
  obtain ⟨htop, e, he, hflags⟩ := h
  refine ⟨_, userAddr_eq he, ?_⟩
  rw [readableByte, if_pos htop, he, Option.bind_some, if_pos hflags]

lemma Mm.readableByte_eq_none (h : ¬m.Accessible readableFlags space (buf + i)) :
    m.readableByte space buf i = none := by
  rw [readableByte]
  split_ifs with htop
  · cases he : m.vmmGetMapping space (buf + i) with
    | none => rfl
    | some e => exact if_neg fun hflags => h ⟨htop, e, he, hflags⟩
  · rfl

/-- `copy_from_user` to a buffer of the kernel that is neither in the range nor in the tables: it
copies exactly the bytes that the caller may read, or fails. -/
theorem copyUser_readableByte (dst : ℕ) (h : m.Spares space buf len (Mem.Within dst len))
    (hdst : ∀ y, m.UserRange space buf len y → ¬Mem.Within dst len y) :
    Fs.copyUser (m.readableByte space buf) len =
      if (m.copyFromUser space dst buf len).2 then
        some ((m.copyFromUser space dst buf len).1.ram.read dst len)
      else none := by
  obtain ⟨ram, -, -, hiff⟩ := copyFromUser_spec h
  split_ifs with hok
  · have hacc := hiff.1 hok
    refine (Fs.copyUser_eq_some _ _ _).2 ?_
    rw [Mem.read, map_map]
    refine map_congr_left fun i hi => ?_
    have hi : i < len := mem_range.1 hi
    obtain ⟨y, hy, hbyte⟩ := Mm.readableByte_of_accessible (hacc (buf + i) ⟨by omega, by omega⟩)
    rw [hbyte, Function.comp_apply, copyFromUser_data h hacc hdst hi hy]
  · have hno : ∃ x, Mem.Within buf len x ∧ ¬m.Accessible Mm.readableFlags space x := by
      by_contra hall
      exact hok (hiff.2 fun x hx => by_contra fun hx' => hall ⟨x, hx, hx'⟩)
    obtain ⟨x, hx, hacc⟩ := hno
    obtain ⟨i, rfl⟩ := Nat.exists_eq_add_of_le hx.1
    have hi : i < len := Nat.lt_of_add_lt_add_left hx.2
    by_contra hsome
    obtain ⟨tmp, htmp⟩ := Option.ne_none_iff_exists'.1 hsome
    have hmap := (Fs.copyUser_eq_some _ _ _).1 htmp
    have hmem : m.readableByte space buf i ∈ tmp.map some :=
      hmap ▸ mem_map.2 ⟨i, mem_range.2 hi, rfl⟩
    rw [Mm.readableByte_eq_none hacc] at hmem
    simp at hmem

/-- One byte of a page that is mapped. -/
theorem copyUser_readableByte_mapped :
    Fs.copyUser ((copyMachine 5).readableByte 0x100 (510 * 4096)) 1 =
      some (((copyMachine 5).copyFromUser 0x100 0xa000 (510 * 4096) 1).1.ram.read 0xa000 1) := by
  have hone : ∀ {x}, Mem.Within (510 * 4096) 1 x → x = 510 * 4096 := fun hx =>
    Nat.le_antisymm (Nat.le_of_lt_succ hx.2) hx.1
  have hwords : ∀ w ∈ (copyMachine 5).walkWords 0x100 (510 * 4096), w + 8 ≤ 0xa000 := by
    decide +kernel
  have haddr : (copyMachine 5).userAddr 0x100 (510 * 4096) = some 0x6000 := by decide +kernel
  rw [copyUser_readableByte 0xa000, if_pos (by decide +kernel)]
  · intro x hx w hw y hy hin
    have hle := hwords w (hone hx ▸ hw)
    unfold Mem.Within at hy hin
    omega
  · rintro y ⟨x, hx, hxy⟩ hin
    obtain rfl := hone hx
    obtain rfl : 0x6000 = y := Option.some.inj (haddr.symm.trans hxy)
    exact absurd hin.1 (by decide)

end

/-- The path that a buffer and a length name: the bytes before the first NUL, or all of them. -/
def supplied (user : ℕ → Option UInt8) (bufSize : ℕ) : List (Option UInt8) :=
  ((List.range bufSize).map user).takeWhile (· ≠ some 0)

/-! ## One call -/

section

variable {fs fs' : Fs} {pr pr' : FileProc} {user : ℕ → Option UInt8} {bufSize : ℕ} {ret : ℤ}

/-- The string in the first part of the buffer. -/
lemma map_takeWhile_of_copyUser {k : ℕ} {tmp : List UInt8} (h : Fs.copyUser user k = some tmp)
    (hk : k ≤ bufSize) :
    (tmp.takeWhile (· ≠ 0)).map some = (supplied user bufSize).take k := by
  have hpart : (List.range k).map user = ((List.range bufSize).map user).take k := by
    rw [← map_take, take_range, Nat.min_eq_left hk]
  have hnul : ((fun b : Option UInt8 => decide (b ≠ some 0)) ∘ some) =
      fun b : UInt8 => decide (b ≠ 0) := by
    funext b
    simp
  rw [supplied, take_takeWhile, ← hpart, (Fs.copyUser_eq_some _ _ _).1 h, takeWhile_map,
    hnul]

/-- What `sys_set_cwd` does after the copy. -/
lemma sysSetCwd_cases {copied : Option (List UInt8)}
    (h : fs.sysSetCwd pr copied = .ok (fs', pr', ret)) :
    ret = -1 ∧ pr' = pr ∨ ∃ tmp, copied = some tmp ∧ ret = tmp.length ∧
      pr' = { pr with cwd := tmp.takeWhile (· ≠ 0) } ∧
      fs.ResolvesToDir (tmp.takeWhile (· ≠ 0)) := by
  cases copied with
  | none =>
    obtain ⟨rfl, rfl, rfl⟩ : fs = fs' ∧ pr = pr' ∧ -1 = ret := by simpa [Fs.sysSetCwd] using h
    exact .inl ⟨rfl, rfl⟩
  | some tmp =>
    rw [Fs.sysSetCwd, bind_eq_ok] at h
    obtain ⟨⟨fs₁, res⟩, hres, h⟩ := h
    cases res with
    | none =>
      obtain ⟨-, rfl, rfl⟩ : fs₁ = fs' ∧ pr = pr' ∧ -1 = ret := by simpa using h
      exact .inl ⟨rfl, rfl⟩
    | some n =>
      dsimp only at h
      rw [bind_eq_ok] at h
      obtain ⟨nd, hnode, h⟩ := h
      rw [bind_eq_ok] at h
      obtain ⟨fs₂, -, h⟩ := h
      split_ifs at h with hdir
      · obtain ⟨-, rfl, rfl⟩ : fs₂ = fs' ∧ pr = pr' ∧ -1 = ret := by simpa using h
        exact .inl ⟨rfl, rfl⟩
      · simp only [Except.ok.injEq, Prod.mk.injEq] at h
        obtain ⟨-, rfl, rfl⟩ := h
        exact .inr ⟨tmp, rfl, rfl, rfl, fs₁, n, nd, hres, Fs.nodes_of_node hnode, not_not.1 hdir⟩

/-- `sys_set_cwd` fails and leaves the working directory, or it sets it to the path in the buffer,
cut to 255 bytes. -/
lemma sysSetCwdBuf_cases (h : fs.sysSetCwdBuf pr user bufSize = .ok (fs', pr', ret)) :
    ret = -1 ∧ pr' = pr ∨ 0 < ret ∧
      pr'.cwd.map some = (supplied user bufSize).take 255 ∧ fs.ResolvesToDir pr'.cwd := by
  rcases sysSetCwd_cases h with hfail | ⟨tmp, hcopy, rfl, rfl, hdir⟩
  · exact .inl hfail
  · refine .inr ?_
    split_ifs at hcopy with hzero hlt
    · have hlen := Fs.length_of_copyUser hcopy
      have hall : (supplied user bufSize).length ≤ bufSize := by
        have hle : (supplied user bufSize).length ≤ ((List.range bufSize).map user).length :=
          (takeWhile_sublist _).length_le
        simpa using hle
      refine ⟨by omega, ?_, hdir⟩
      rw [map_takeWhile_of_copyUser hcopy le_rfl, take_of_length_le hall,
        take_of_length_le (by omega)]
    · have hlen := Fs.length_of_copyUser hcopy
      exact ⟨by omega, map_takeWhile_of_copyUser hcopy (by omega), hdir⟩

end

/-! ## All processes -/

namespace Files

variable {w w' : Files} {p q : Ptr} {cwd : CStr} {ret : ℤ}

lemma stdFd_cwd {fs fs' : Fs} {pr pr' : FileProc} {i flags : ℕ} {path : CStr}
    (h : fs.stdFd pr i path flags = .ok (fs', pr')) : pr'.cwd = pr.cwd := by
  rw [Fs.stdFd, bind_eq_ok] at h
  obtain ⟨⟨fs₁, res⟩, -, h⟩ := h
  cases res with
  | none =>
    obtain ⟨-, rfl⟩ : fs₁ = fs' ∧ pr = pr' := by simpa using h
    rfl
  | some n =>
    obtain ⟨-, rfl⟩ : _ ∧ pr.setFd i _ = pr' := by simpa using h
    rfl

lemma procCreate_cwd {accepted : Bool} {pr : FileProc} (hne : cwd ≠ []) (hlen : cwd.length ≤ 255)
    (h : w.procCreate accepted cwd = .ok (w', ret)) (hq : w'.procs q = some pr) :
    w.procs q = some pr ∨ pr.cwd = cwd := by
  rw [procCreate, if_neg hne, take_of_length_le hlen] at h
  split_ifs at h
  · obtain ⟨rfl, -⟩ : w = w' ∧ _ := by simpa using h
    exact .inl hq
  · dsimp only at h
    rw [bind_eq_ok] at h
    obtain ⟨⟨fs₁, pr₁⟩, h₁, h⟩ := h
    dsimp only at h
    rw [bind_eq_ok] at h
    obtain ⟨⟨fs₂, pr₂⟩, h₂, h⟩ := h
    simp only [Except.ok.injEq, Prod.mk.injEq] at h
    obtain ⟨rfl, -⟩ := h
    by_cases hqb : q = w.fs.brk
    · subst hqb
      obtain rfl : pr₂ = pr := by simpa using hq
      exact .inr ((stdFd_cwd h₂).trans (stdFd_cwd h₁))
    · exact .inl (by simpa [hqb] using hq)

lemma sysSpawn_cwd {accepted : Bool} {path : CStr} {pr : FileProc} (hne : cwd ≠ [])
    (hlen : cwd.length ≤ 255) (h : w.sysSpawn cwd path accepted = .ok (w', ret))
    (hq : w'.procs q = some pr) : w.procs q = some pr ∨ pr.cwd = cwd := by
  rw [sysSpawn, bind_eq_ok] at h
  obtain ⟨⟨fs₁, io, elf⟩, -, h⟩ := h
  cases elf with
  | none =>
    simp only [Except.ok.injEq, Prod.mk.injEq] at h
    obtain ⟨rfl, -⟩ := h
    exact .inl hq
  | some elf => exact procCreate_cwd (w := { w with fs := fs₁, io := io }) hne hlen h hq

/-- A call with a path of at most 255 bytes sets the working directory to that path, which leads to
a directory, or it fails and changes nothing of the process.  In every state that is reached while
fewer than `2 ^ 32 - 2` handles are outstanding, every working directory is a string of at most 255
bytes that leads to a directory, and a process that a spawn adds has the one of the caller. -/
theorem working_directories_lead_to_directories (tar : List UInt8) (io : Io) (font accepted : Bool)
    (w₀ : Files) (hboot : kidle tar io font accepted = .ok w₀) (ops : List Op) (w : Files)
    (hrun : Run next (fun w _ => w.fs.handles < 2 ^ 32 - 2) w₀ ops w) :
    (∀ (fs : Fs) (pr : FileProc) (user : ℕ → Option UInt8) (bufSize : ℕ) fs' pr' ret,
      fs.sysSetCwdBuf pr user bufSize = .ok (fs', pr', ret) →
      ret = -1 ∧ pr' = pr ∨ 0 < ret ∧ fs.ResolvesToDir pr'.cwd ∧
        ((supplied user bufSize).length ≤ 255 → pr'.cwd.map some = supplied user bufSize)) ∧
      (∀ p pr, w.procs p = some pr →
        pr.cwd.length ≤ 255 ∧ 0 ∉ pr.cwd ∧ w.fs.ResolvesToDir pr.cwd) ∧
      ∀ p pr path accepted w' q qr, w.procs p = some pr → w.next (.spawn p path accepted) = some w' →
        w.procs q = none → w'.procs q = some qr → qr.cwd = pr.cwd := by
  obtain ⟨d, hinv⟩ := inv_of_run hboot hrun
  refine ⟨fun fs pr user bufSize fs' pr' ret h => ?_, fun p pr hp => ?_,
    fun p pr path accepted w' q qr hp hstep hq hq' => ?_⟩
  · rcases sysSetCwdBuf_cases h with hfail | ⟨hret, hcwd, hdir⟩
    · exact .inl hfail
    · exact .inr ⟨hret, hdir, fun hlen => by rw [hcwd, take_of_length_le hlen]⟩
  · have hcwd := hinv.cwd p pr hp
    exact ⟨hcwd.length, hcwd.nul, hcwd.dir.resolves hinv.fs.toWf⟩
  · have hcwd := hinv.cwd p pr hp
    have hend : Ends (fun _ => True) (fun w' => ∀ qr, w'.procs q = some qr →
        w.procs q = some qr ∨ qr.cwd = pr.cwd) (w.step (.spawn p path accepted)) := by
      simp only [step, hp]
      split_ifs
      · exact fun qr hqr => .inl hqr
      · cases hspawn : w.sysSpawn pr.cwd path accepted with
        | error e => exact trivial
        | ok r => exact fun qr hqr => sysSpawn_cwd hcwd.ne_nil hcwd.length hspawn hqr
    rcases hend.toOption hstep qr hq' with hold | hnew
    · cases hq.symm.trans hold
    · exact hnew

/-- `init` moves to `0:/etc` and starts a program there. -/
def etcOps : List Op :=
  [.setCwd 6 (fun i => (cstr "0:/etc")[i]?) 6, .spawn 6 (cstr "0:/init/init") true]

theorem working_directories_lead_to_directories_etc :
    ∃ w₀ w pr, kidle bootTar quietIo true true = .ok w₀ ∧
      Run next (fun w _ => w.fs.handles < 2 ^ 32 - 2) w₀ etcOps w ∧
      w.procs 14 = some pr ∧ pr.cwd = cstr "0:/etc" ∧ w.fs.ResolvesToDir pr.cwd := by
  have heval : ((kidle bootTar quietIo true true).toOption.any fun w₀ =>
      (exec next w₀ etcOps).any (fun w => (w.procs 14).any fun pr => pr.cwd = cstr "0:/etc") &&
      execOk next (fun w _ => w.fs.handles < 2 ^ 32 - 2) w₀ etcOps) = true := by decide +kernel
  obtain ⟨w₀, hboot, heval⟩ := exists_ok_of_any heval
  obtain ⟨hexec, hok⟩ := Bool.and_eq_true_iff.1 heval
  obtain ⟨w, hrun, hw⟩ := Run.exists_of_exec _ (fun _ _ => of_decide_eq_true) _ hexec hok
  obtain ⟨pr, hpr, hcwd⟩ := (Option.any_eq_true _ _).1 hw
  obtain ⟨-, hdirs, -⟩ :=
    working_directories_lead_to_directories bootTar quietIo true true w₀ hboot etcOps w hrun
  exact ⟨w₀, w, pr, hboot, hrun, hpr, of_decide_eq_true hcwd, (hdirs 14 pr hpr).2.2⟩

/-- A path of 262 bytes, of which the first 255 name the root. -/
def longPath : CStr := cstr "0:" ++ replicate 253 slash ++ cstr "nothing"

/-- There is nothing with that name, but `init` can move there: the call returns 255, and the
working directory is the root under a name of 255 bytes. -/
theorem long_path_is_cut :
    ∃ w₀ pr, kidle bootTar quietIo true true = .ok w₀ ∧ w₀.procs 6 = some pr ∧
      (∃ fs', w₀.fs.vfsResolve longPath = .ok (fs', none)) ∧
      ∃ fs' pr', w₀.fs.sysSetCwdBuf pr (fun i => longPath[i]?) longPath.length =
          .ok (fs', pr', 255) ∧
        pr'.cwd = longPath.take 255 ∧
        pr'.cwd.map some ≠ supplied (fun i => longPath[i]?) longPath.length := by
  have heval : ((kidle bootTar quietIo true true).toOption.any fun w₀ => (w₀.procs 6).any fun pr =>
      ((w₀.fs.vfsResolve longPath).toOption.any fun r => r.2 = none) &&
      (w₀.fs.sysSetCwdBuf pr (fun i => longPath[i]?) longPath.length).toOption.any fun r =>
        r.2.2 = 255 && r.2.1.cwd = longPath.take 255) = true := by decide +kernel
  have hne : (longPath.take 255).map some ≠ supplied (fun i => longPath[i]?) longPath.length := by
    decide +kernel
  obtain ⟨w₀, hboot, heval⟩ := exists_ok_of_any heval
  obtain ⟨pr, hpr, heval⟩ := (Option.any_eq_true _ _).1 heval
  obtain ⟨hres, hcall⟩ := Bool.and_eq_true_iff.1 heval
  obtain ⟨⟨fs₁, res⟩, hr, hres⟩ := exists_ok_of_any hres
  obtain rfl : res = none := of_decide_eq_true hres
  obtain ⟨⟨fs', pr', ret⟩, hc, hcall⟩ := exists_ok_of_any hcall
  obtain ⟨hret, hcwd⟩ := Bool.and_eq_true_iff.1 hcall
  obtain rfl : ret = 255 := of_decide_eq_true hret
  have hcwd : pr'.cwd = longPath.take 255 := of_decide_eq_true hcwd
  exact ⟨w₀, pr, hboot, hpr, ⟨fs₁, hr⟩, fs', pr', hc, hcwd, hcwd ▸ hne⟩

end Files

end CobjOs
