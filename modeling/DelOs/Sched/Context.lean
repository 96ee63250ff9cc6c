import DelOs.Lib.Ia32
import DelOs.Sched.Scheduler

/-!
# Saved contexts and the switch to them

`isr_registers_t` and `kernel/scheduler/context.s`.

* `IsrField`, `isrField` — the words of an interrupt frame and of a saved context.
* `kcontextSwitchFromIsr` — the routine of `context.s`, block by block.
* `Resumes` — the registers that a saved context describes.
* `StackClear` — the stack pointer leaves room for the frame of `iret`, away from a region.
* `kcontextSwitchFromIsr_spec` — **the routine resumes the context**, and writes nothing but the
  frame below its stack pointer.
-/

namespace DelOs

open ByteMem Ia32

/-! ## Interrupt frames -/

/-- The fields of `isr_registers_t`. -/
inductive IsrField where
  | gs
  | fs
  | es
  | ds
  | edi
  | esi
  | ebp
  | esp
  | ebx
  | edx
  | ecx
  | eax
  | intNo
  | errCode
  | eip
  | cs
  | eflags
  deriving DecidableEq, Repr

/-- Where the field is. -/
def IsrField.off : IsrField → Nat
  | gs => 0
  | fs => 4
  | es => 8
  | ds => 12
  | edi => 16
  | esi => 20
  | ebp => 24
  | esp => 28
  | ebx => 32
  | edx => 36
  | ecx => 40
  | eax => 44
  | intNo => 48
  | errCode => 52
  | eip => 56
  | cs => 60
  | eflags => 64

/-- `sizeof(isr_registers_t)` -/
def sizeofIsrRegisters : Nat := 68

theorem IsrField.off_le (f : IsrField) : f.off + 4 ≤ sizeofIsrRegisters := by
  cases f <;> decide

/-- `regs->field` -/
def isrField (m : Mem) (regs : Nat) (f : IsrField) : Nat := read32 m (regs + f.off)

theorem isrField_lt (m : Mem) (regs : Nat) (f : IsrField) : isrField m regs f < 2 ^ 32 :=
  read32_lt m _

/-! ## The routine -/

/-- Load data segments from ctx. -/
def loadSegments : List Instr :=
  [.loadLow .ebx .esi 12, .movSeg .ds .ebx, .loadSeg .es .esi 8, .loadSeg .fs .esi 4,
    .loadSeg .gs .esi 0]

/-- Switch to task stack, and keep user ESP for privilege drop. -/
def switchStack : List Instr :=
  [.load .esp .esi 28, .mov .ebx .esp, .loadLow .eax .esi 60, .testLow .eax 3]

/-- If target CS is user, push SS/ESP for privilege change. -/
def pushUserStack : List Instr :=
  [.pushImm 0x23, .pushReg .ebx]

/-- Build iret frame on the new stack. -/
def pushIretFrame : List Instr :=
  [.pushMem .esi 64, .pushMem .esi 60, .pushMem .esi 56]

/-- Restore general-purpose registers; `esi`, which holds `ctx`, comes last. -/
def restoreRegisters : List Instr :=
  [.load .edi .esi 16, .load .ebp .esi 24, .load .ebx .esi 32, .load .edx .esi 36,
    .load .ecx .esi 40, .load .eax .esi 44, .load .esi .esi 20]

/-- `kcontext_switch_from_isr` between the load of its argument into `esi` and its `sti`, whose
flag the `iret` after it replaces. -/
def kcontextSwitchFromIsr : List Instr :=
  loadSegments ++ (switchStack ++
    .jz pushUserStack.length :: (pushUserStack ++ (pushIretFrame ++ restoreRegisters)))

/-- Call `kcontext_switch_from_isr(ctx)`: the processor and the memory after its `iret`. -/
def switchContext (cpu : Cpu) (m : Mem) (ctx : Nat) : State :=
  iret (exec 0 kcontextSwitchFromIsr ⟨cpu.setReg .esi ctx, m⟩)

/-- The processor goes on with the registers of a context. -/
structure Resumes (cpu : Cpu) (w : IsrField → Nat) : Prop where
  eip : cpu.eip = w .eip
  cs : cpu.seg .cs = w .cs % 2 ^ 16
  eflags : cpu.eflags = w .eflags
  eax : cpu.gpr .eax = w .eax
  ebx : cpu.gpr .ebx = w .ebx
  ecx : cpu.gpr .ecx = w .ecx
  edx : cpu.gpr .edx = w .edx
  esi : cpu.gpr .esi = w .esi
  edi : cpu.gpr .edi = w .edi
  ebp : cpu.gpr .ebp = w .ebp
  esp : cpu.gpr .esp = w .esp

/-- Five words below the stack pointer are memory, and none of it is among the `n` bytes at
`a`. -/
def StackClear (esp a n : Nat) : Prop := 20 ≤ esp ∧ (esp ≤ a ∨ a + n ≤ esp - 20)

instance (esp a n : Nat) : Decidable (StackClear esp a n) :=
  inferInstanceAs (Decidable (_ ∧ _))

/-! ## What the routine does -/

section Blocks

variable {s : State} {ctx p : Nat}

/-- The address of a field. -/
theorem addr_field (hctx : ctx + sizeofIsrRegisters ≤ 2 ^ 32) (hesi : s.cpu.gpr .esi = ctx)
    (f : IsrField) : s.addr .esi f.off = ctx + f.off := by
  have := f.off_le
  simp only [State.addr, hesi, sizeofIsrRegisters] at this hctx ⊢
  omega

/-- The low half of a register after a 16-bit load, tested for the ring. -/
theorem low_and_three (v w : Nat) : (v / 2 ^ 16 * 2 ^ 16 + w % 2 ^ 16) % 2 ^ 16 &&& 3 = w % 4 := by
  rw [show (3 : Nat) = 2 ^ 2 - 1 from rfl, Nat.and_two_pow_sub_one_eq_mod]
  omega

/-- What the routine has done when it comes to its jump: it has changed registers only; `esp` and
`ebx` have the stack pointer of the context, and the zero flag says whether its ring is 0. -/
structure AtJump (s t : State) (ctx : Nat) : Prop where
  mem : t.mem = s.mem
  cs : t.cpu.seg .cs = s.cpu.seg .cs
  esi : t.cpu.gpr .esi = ctx
  esp : t.cpu.gpr .esp = isrField s.mem ctx .esp
  ebx : t.cpu.gpr .ebx = isrField s.mem ctx .esp
  zf : t.cpu.zf = (isrField s.mem ctx .cs % 4 == 0)

theorem switchStack_spec (hctx : ctx + sizeofIsrRegisters ≤ 2 ^ 32)
    (hesi : s.cpu.gpr .esi = ctx) :
    AtJump s (exec 0 switchStack (exec 0 loadSegments s)) ctx := by
  have hesp : ctx + 28 < 4294967296 := by
    simp only [sizeofIsrRegisters] at hctx
    omega
  have hcs : ctx + 60 < 4294967296 := by
    simp only [sizeofIsrRegisters] at hctx
    omega
  constructor
  · rfl
  · rfl
  · simp [switchStack, loadSegments, exec, step, Cpu.gpr_setReg, hesi]
  · simp [switchStack, loadSegments, exec, step, State.addr, Cpu.gpr_setReg, hesi,
      Nat.mod_eq_of_lt hesp, isrField, IsrField.off]
  · simp [switchStack, loadSegments, exec, step, State.addr, Cpu.gpr_setReg, hesi,
      Nat.mod_eq_of_lt hesp, isrField, IsrField.off]
  · simp only [switchStack, loadSegments, exec, step, State.addr, Cpu.gpr_setReg,
      Cpu.gpr_setSeg, reduceCtorEq, if_false, if_true, low_and_three, hesi]
    rw [show (2 : Nat) ^ 32 = 4294967296 from rfl, Nat.mod_eq_of_lt hcs]
    rfl

/-- A word is on the stack. -/
structure Pushed (s t : State) (ctx p v : Nat) : Prop where
  cs : t.cpu.seg .cs = s.cpu.seg .cs
  esi : t.cpu.gpr .esi = ctx
  esp : t.cpu.gpr .esp = p - 4
  top : read32 t.mem (p - 4) = v
  outside : ∀ x, x < p - 4 ∨ p ≤ x → t.mem x = s.mem x

/-- The words outside the pushed one are as before. -/
theorem Pushed.read {t : State} {v a : Nat} (h : Pushed s t ctx p v)
    (ha : a + 4 ≤ p - 4 ∨ p ≤ a) : read32 t.mem a = read32 s.mem a :=
  read32_congr fun x hx hx' => h.outside x (by omega)

theorem push_pushed {v : Nat} (hesi : s.cpu.gpr .esi = ctx) (hesp : s.cpu.gpr .esp = p)
    (hp : 4 ≤ p) (hlt : p < 2 ^ 32) (hv : v < 2 ^ 32) : Pushed s (s.push v) ctx p v := by
  subst hesp
  refine ⟨?_, ?_, ?_, ?_, ?_⟩
  · rw [push_cpu hp hlt, Cpu.seg_setReg]
  · rw [push_cpu hp hlt]
    exact hesi
  · rw [push_cpu hp hlt, Cpu.gpr_setReg_same]
  · rw [push_mem hp hlt, read32_write32_same _ hv]
  · intro x hx
    rw [push_mem hp hlt]
    exact write32_of_outside _ (by omega)

/-- A field of the context is on the stack. -/
theorem pushMem_pushed (hctx : ctx + sizeofIsrRegisters ≤ 2 ^ 32) (hesi : s.cpu.gpr .esi = ctx)
    (hesp : s.cpu.gpr .esp = p) (hp : 4 ≤ p) (hlt : p < 2 ^ 32) (f : IsrField) :
    Pushed s (step s (.pushMem .esi f.off)) ctx p (isrField s.mem ctx f) := by
  have haddr := addr_field hctx hesi f
  simp only [step, haddr]
  exact push_pushed hesi hesp hp hlt (isrField_lt s.mem ctx f)

/-- The fields of a context that a push does not reach. -/
theorem Pushed.field {t : State} {v : Nat} (h : Pushed s t ctx p v)
    (hclear : p ≤ ctx ∨ ctx + sizeofIsrRegisters ≤ p - 4) (f : IsrField) :
    isrField t.mem ctx f = isrField s.mem ctx f := by
  have := f.off_le
  apply h.read
  omega

/-- The stack of ring 3 is on the stack. -/
structure UserStack (s t : State) (ctx p : Nat) : Prop where
  cs : t.cpu.seg .cs = s.cpu.seg .cs
  esi : t.cpu.gpr .esi = ctx
  esp : t.cpu.gpr .esp = p - 8
  top : read32 t.mem (p - 8) = p
  outside : ∀ x, x < p - 8 ∨ p ≤ x → t.mem x = s.mem x

theorem pushUserStack_spec (hesi : s.cpu.gpr .esi = ctx) (hesp : s.cpu.gpr .esp = p)
    (hebx : s.cpu.gpr .ebx = p) (hp : 8 ≤ p) (hlt : p < 2 ^ 32) :
    UserStack s (exec 0 pushUserStack s) ctx p := by
  have h₁ : Pushed s (s.push 0x23) ctx p 0x23 :=
    push_pushed hesi hesp (by omega) hlt (by decide)
  have hebx₁ : (s.push 0x23).cpu.gpr .ebx = p := by
    rw [push_cpu (by omega) (by omega), Cpu.gpr_setReg, if_neg (by decide), hebx]
  have hexec : exec 0 pushUserStack s = (s.push 0x23).push ((s.push 0x23).cpu.gpr .ebx) := rfl
  have h₂ := push_pushed h₁.esi h₁.esp (by omega) (by omega) hlt
  have h8 : p - 4 - 4 = p - 8 := by omega
  have htop := h₂.top
  rw [h8] at htop
  rw [hexec, hebx₁]
  refine ⟨h₂.cs.trans h₁.cs, h₂.esi, h₂.esp.trans h8, htop, ?_⟩
  intro x hx
  exact (h₂.outside x (by omega)).trans (h₁.outside x (by omega))

/-- The frame of `iret` is on the stack. -/
structure IretFrame (s t : State) (ctx p : Nat) : Prop where
  cs : t.cpu.seg .cs = s.cpu.seg .cs
  esi : t.cpu.gpr .esi = ctx
  esp : t.cpu.gpr .esp = p - 12
  eip : read32 t.mem (p - 12) = isrField s.mem ctx .eip
  selector : read32 t.mem (p - 8) = isrField s.mem ctx .cs
  eflags : read32 t.mem (p - 4) = isrField s.mem ctx .eflags
  outside : ∀ x, x < p - 12 ∨ p ≤ x → t.mem x = s.mem x

theorem pushIretFrame_spec (hctx : ctx + sizeofIsrRegisters ≤ 2 ^ 32)
    (hesi : s.cpu.gpr .esi = ctx) (hesp : s.cpu.gpr .esp = p) (hp : 12 ≤ p) (hlt : p < 2 ^ 32)
    (hclear : p ≤ ctx ∨ ctx + sizeofIsrRegisters ≤ p - 12) :
    IretFrame s (exec 0 pushIretFrame s) ctx p := by
  have h₁ := pushMem_pushed hctx hesi hesp (by omega) hlt .eflags
  have h₂ := pushMem_pushed hctx h₁.esi h₁.esp (by omega) (by omega) .cs
  have h₃ := pushMem_pushed hctx h₂.esi h₂.esp (by omega) (by omega) .eip
  have h8 : p - 4 - 4 = p - 8 := by omega
  have h12 : p - 8 - 4 = p - 12 := by omega
  rw [h8] at h₃
  have hcs := h₂.top
  have heip := h₃.top
  rw [h8] at hcs
  rw [h12] at heip
  refine ⟨h₃.cs.trans (h₂.cs.trans h₁.cs), h₃.esi, h₃.esp.trans h12, ?_, ?_, ?_, ?_⟩
  · exact heip.trans ((h₂.field (by omega) .eip).trans (h₁.field (by omega) .eip))
  · exact (h₃.read (by omega)).trans (hcs.trans (h₁.field (by omega) .cs))
  · exact (h₃.read (by omega)).trans ((h₂.read (by omega)).trans h₁.top)
  · intro x hx
    exact (h₃.outside x (by omega)).trans
      ((h₂.outside x (by omega)).trans (h₁.outside x (by omega)))

/-- The general registers are those of the context. -/
structure Restored (s t : State) (ctx : Nat) : Prop where
  seg : t.cpu.seg = s.cpu.seg
  mem : t.mem = s.mem
  esp : t.cpu.gpr .esp = s.cpu.gpr .esp
  eax : t.cpu.gpr .eax = isrField s.mem ctx .eax
  ebx : t.cpu.gpr .ebx = isrField s.mem ctx .ebx
  ecx : t.cpu.gpr .ecx = isrField s.mem ctx .ecx
  edx : t.cpu.gpr .edx = isrField s.mem ctx .edx
  esi : t.cpu.gpr .esi = isrField s.mem ctx .esi
  edi : t.cpu.gpr .edi = isrField s.mem ctx .edi
  ebp : t.cpu.gpr .ebp = isrField s.mem ctx .ebp

theorem restoreRegisters_spec (hctx : ctx + sizeofIsrRegisters ≤ 2 ^ 32)
    (hesi : s.cpu.gpr .esi = ctx) : Restored s (exec 0 restoreRegisters s) ctx := by
  have haddr : ∀ off, off < sizeofIsrRegisters → (ctx + off) % 2 ^ 32 = ctx + off := by
    intro off hoff
    simp only [sizeofIsrRegisters] at hctx hoff
    omega
  constructor
  · rfl
  · rfl
  · simp [restoreRegisters, exec, step, Cpu.gpr_setReg]
  all_goals
    simp only [restoreRegisters, exec, step, State.addr, Cpu.gpr_setReg, reduceCtorEq, if_false,
      if_true, hesi]
    rw [haddr _ (by decide)]
    rfl

/-- The return goes to the frame: the registers that it takes from the stack, and what it leaves
alone. -/
structure Returned (s t : State) (eip cs eflags esp : Nat) : Prop where
  eip : t.cpu.eip = eip
  cs : t.cpu.seg .cs = cs % 2 ^ 16
  eflags : t.cpu.eflags = eflags
  esp : t.cpu.gpr .esp = esp
  gpr : ∀ r, r ≠ .esp → t.cpu.gpr r = s.cpu.gpr r
  mem : t.mem = s.mem

/-- `iret` from ring 0 with its frame at `q`: in ring 0 the stack goes on above the frame, in an
outer ring where the word above the frame says. -/
theorem iret_spec {q esp : Nat} (hring : s.cpu.seg .cs % 4 = 0) (hesp : s.cpu.gpr .esp = q)
    (hq : q + 12 < 2 ^ 32)
    (hback : esp = if read32 s.mem (q + 4) % 4 = 0 then q + 12 else read32 s.mem (q + 12)) :
    Returned s (iret s) (read32 s.mem q) (read32 s.mem (q + 4)) (read32 s.mem (q + 8)) esp := by
  have haddr : ∀ off, off ≤ 12 → s.addr .esp off = q + off := by
    intro off hoff
    simp only [State.addr, hesp]
    omega
  have h4 := haddr 4 (by decide)
  have h0 := haddr 0 (by decide)
  rw [Nat.add_zero] at h0
  simp only [iret, h0, h4, haddr 8 (by decide), haddr 12 (by decide)]
  by_cases hcs : read32 s.mem (q + 4) % 4 = 0
  · have hsame : ¬s.cpu.ring < read32 s.mem (q + 4) % 4 := by omega
    rw [if_pos hcs] at hback
    rw [if_neg hsame]
    refine ⟨rfl, rfl, rfl, ?_, ?_, rfl⟩
    · rw [Cpu.gpr_setReg_same, hback]
    · intro r hr
      rw [Cpu.gpr_setReg, if_neg hr]
      rfl
  · have houter : s.cpu.ring < read32 s.mem (q + 4) % 4 := by
      rw [Cpu.ring, hring]
      omega
    rw [if_neg hcs] at hback
    rw [if_pos houter]
    refine ⟨rfl, rfl, rfl, ?_, ?_, rfl⟩
    · rw [Cpu.gpr_setSeg, Cpu.gpr_setReg_same, hback]
    · intro r hr
      rw [Cpu.gpr_setSeg, Cpu.gpr_setReg, if_neg hr]
      rfl

/-- From the pushes on: the frame is built below `p`, and the processor leaves with the registers
of the context. -/
theorem pushIretFrame_resumes {esp : Nat} (hring : s.cpu.seg .cs % 4 = 0)
    (hctx : ctx + sizeofIsrRegisters ≤ 2 ^ 32) (hesi : s.cpu.gpr .esi = ctx)
    (hesp : s.cpu.gpr .esp = p) (hp : 12 ≤ p) (hlt : p < 2 ^ 32)
    (hclear : p ≤ ctx ∨ ctx + sizeofIsrRegisters ≤ p - 12)
    (hback : esp = if isrField s.mem ctx .cs % 4 = 0 then p else read32 s.mem p)
    (hsaved : isrField s.mem ctx .esp = esp) :
    let t := iret (exec 0 (pushIretFrame ++ restoreRegisters) s)
    Resumes t.cpu (isrField s.mem ctx) ∧ ∀ x, x < p - 12 ∨ p ≤ x → t.mem x = s.mem x := by
  have happ : exec 0 (pushIretFrame ++ restoreRegisters) s =
      exec 0 restoreRegisters (exec 0 pushIretFrame s) := exec_append (by simp [pushIretFrame])
  rw [happ]
  have hframe := pushIretFrame_spec hctx hesi hesp hp hlt hclear
  generalize exec 0 pushIretFrame s = u at hframe
  have hregs := restoreRegisters_spec hctx hframe.esi
  generalize exec 0 restoreRegisters u = r at hregs
  have hfield : ∀ f, isrField u.mem ctx f = isrField s.mem ctx f := by
    intro f
    have := f.off_le
    exact read32_congr fun x hx hx' => hframe.outside x (by omega)
  have hp12 : p - 12 + 12 = p := by omega
  have hp4 : p - 12 + 4 = p - 8 := by omega
  have hp8 : p - 12 + 8 = p - 4 := by omega
  have habove : read32 u.mem p = read32 s.mem p :=
    read32_congr fun x hx hx' => hframe.outside x (by omega)
  have hback' : esp = if read32 r.mem (p - 12 + 4) % 4 = 0 then p - 12 + 12
      else read32 r.mem (p - 12 + 12) := by
    rw [hregs.mem, hp4, hp12, hframe.selector, habove, hback]
  have hret := iret_spec (by rw [hregs.seg, hframe.cs, hring]) (hregs.esp.trans hframe.esp)
    (by omega) hback'
  rw [hregs.mem, hp4, hp8, hframe.eip, hframe.selector, hframe.eflags] at hret
  refine ⟨⟨hret.eip, hret.cs, hret.eflags, ?_, ?_, ?_, ?_, ?_, ?_, ?_, ?_⟩, ?_⟩
  · rw [hret.gpr _ (by decide), hregs.eax, hfield]
  · rw [hret.gpr _ (by decide), hregs.ebx, hfield]
  · rw [hret.gpr _ (by decide), hregs.ecx, hfield]
  · rw [hret.gpr _ (by decide), hregs.edx, hfield]
  · rw [hret.gpr _ (by decide), hregs.esi, hfield]
  · rw [hret.gpr _ (by decide), hregs.edi, hfield]
  · rw [hret.gpr _ (by decide), hregs.ebp, hfield]
  · rw [hret.esp, hsaved]
  · intro x hx
    rw [hret.mem, hregs.mem]
    exact hframe.outside x hx

end Blocks

/-- **The routine resumes the context.**  If the frame that it builds below the stack pointer of
the context does not reach the context itself, the processor leaves with the registers of the
context, and nothing but the frame is written. -/
theorem kcontextSwitchFromIsr_spec {cpu : Cpu} {m : Mem} {ctx : Nat}
    (hring : cpu.seg .cs % 4 = 0) (hctx : ctx + sizeofIsrRegisters ≤ 2 ^ 32)
    (hstack : StackClear (isrField m ctx .esp) ctx sizeofIsrRegisters) :
    Resumes (switchContext cpu m ctx).cpu (isrField m ctx) ∧
      ∀ x, x < isrField m ctx .esp - 20 ∨ isrField m ctx .esp ≤ x →
        (switchContext cpu m ctx).mem x = m x := by
  obtain ⟨hroom, hclear⟩ := hstack
  have hlt := isrField_lt m ctx .esp
  have hsplit : exec 0 kcontextSwitchFromIsr ⟨cpu.setReg .esi ctx, m⟩ =
      exec 0 (.jz pushUserStack.length :: (pushUserStack ++ (pushIretFrame ++ restoreRegisters)))
        (exec 0 switchStack (exec 0 loadSegments ⟨cpu.setReg .esi ctx, m⟩)) := by
    rw [kcontextSwitchFromIsr, exec_append (by simp [loadSegments]),
      exec_append (by simp [switchStack])]
  have hjump := switchStack_spec (s := ⟨cpu.setReg .esi ctx, m⟩) hctx (Cpu.gpr_setReg_same ..)
  rw [switchContext, hsplit, exec_jz]
  generalize exec 0 switchStack (exec 0 loadSegments ⟨cpu.setReg .esi ctx, m⟩) = t at hjump
  have hcs : t.cpu.seg .cs % 4 = 0 := by rw [hjump.cs]; exact hring
  have hmem := hjump.mem
  have hesp := hjump.esp
  have hebx := hjump.ebx
  have hzf := hjump.zf
  simp only at hmem hesp hebx hzf
  rw [← hmem] at hesp hebx hzf hlt hclear hroom ⊢
  by_cases hzero : isrField t.mem ctx .cs % 4 = 0
  · -- the task was interrupted in ring 0
    rw [hzf, if_pos (by simpa using hzero)]
    have hback : isrField t.mem ctx .esp =
        if isrField t.mem ctx .cs % 4 = 0 then isrField t.mem ctx .esp
        else read32 t.mem (isrField t.mem ctx .esp) := by rw [if_pos hzero]
    obtain ⟨hres, hout⟩ := pushIretFrame_resumes hcs hctx hjump.esi hesp (by omega) hlt (by omega)
      hback rfl
    exact ⟨hres, fun x hx => hout x (by omega)⟩
  · -- the task was interrupted in ring 3, so that its stack pointer goes on the stack, too
    rw [hzf, if_neg (by simpa using hzero)]
    generalize he : isrField t.mem ctx .esp = e at *
    have hpush : exec 0 (pushUserStack ++ (pushIretFrame ++ restoreRegisters)) t =
        exec 0 (pushIretFrame ++ restoreRegisters) (exec 0 pushUserStack t) := rfl
    have huser := pushUserStack_spec hjump.esi hesp hebx (by omega) hlt
    rw [hpush]
    generalize exec 0 pushUserStack t = u at huser
    have hfield : ∀ f, isrField u.mem ctx f = isrField t.mem ctx f := by
      intro f
      have := f.off_le
      exact read32_congr fun x hx hx' => huser.outside x (by omega)
    have hback : e = if isrField u.mem ctx .cs % 4 = 0 then e - 8 else read32 u.mem (e - 8) := by
      rw [hfield, if_neg hzero, huser.top]
    obtain ⟨hres, hout⟩ := pushIretFrame_resumes (by rw [huser.cs]; exact hcs) hctx huser.esi
      huser.esp (by omega) (by omega) (by omega) hback (by rw [hfield, he])
    rw [funext hfield] at hres
    refine ⟨hres, fun x hx => ?_⟩
    rw [hout x (by omega), huser.outside x (by omega)]

end DelOs
