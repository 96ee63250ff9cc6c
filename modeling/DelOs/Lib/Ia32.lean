import DelOs.Lib.ByteMem

/-!
# A fragment of the IA-32 instruction set

What a context switch needs: moves between registers and from memory, pushes, a test with a
conditional jump, and the return from an interrupt.

* `Reg`, `Seg`, `Cpu`, `State` — the registers, and the processor with its memory.
* `Instr`, `step`, `exec` — the instructions, and programs without backward jumps.
* `iret` — the return from an interrupt, which takes the stack of the outer ring off the stack of
  the inner one when it changes the ring.
* `exec_append`, `exec_jz`, `exec_skip` — programs block by block.
* `stored`, `stores` — the words that instructions and programs store; `exec_mem`: **a program
  changes no other memory**.
* `push_cpu`, `push_mem` — what a push changes.
-/

namespace Ia32

open ByteMem

/-! ## Registers -/

/-- The general registers. -/
inductive Reg where
  | eax
  | ebx
  | ecx
  | edx
  | esi
  | edi
  | ebp
  | esp
  deriving DecidableEq, Repr

/-- The segment registers. -/
inductive Seg where
  | cs
  | ss
  | ds
  | es
  | fs
  | gs
  deriving DecidableEq, Repr

/-- The registers of the processor; `zf` is the zero flag as the last test left it. -/
structure Cpu where
  gpr : Reg → Nat
  seg : Seg → Nat
  eip : Nat
  eflags : Nat
  zf : Bool

namespace Cpu

/-- Change a general register. -/
def setReg (c : Cpu) (r : Reg) (v : Nat) : Cpu :=
  { c with gpr := fun q => if q = r then v else c.gpr q }

/-- Change a segment register; a selector has 16 bits. -/
def setSeg (c : Cpu) (r : Seg) (v : Nat) : Cpu :=
  { c with seg := fun q => if q = r then v % 2 ^ 16 else c.seg q }

/-- The ring that the processor is in. -/
def ring (c : Cpu) : Nat := c.seg .cs % 4

variable (c : Cpu) (r q : Reg) (g : Seg) (v : Nat)

@[simp] theorem gpr_setReg_same : (c.setReg r v).gpr r = v := if_pos rfl

theorem gpr_setReg : (c.setReg r v).gpr q = if q = r then v else c.gpr q := rfl

@[simp] theorem gpr_setSeg : (c.setSeg g v).gpr = c.gpr := rfl

@[simp] theorem seg_setReg : (c.setReg r v).seg = c.seg := rfl

end Cpu

/-- The processor and its memory. -/
structure State where
  cpu : Cpu
  mem : Mem

/-! ## Instructions -/

/-- The instructions, named by their operands; memory operands are `[base + offset]`. -/
inductive Instr where
  /-- `mov d, s` -/
  | mov (d s : Reg)
  /-- `mov d, [b + off]` -/
  | load (d b : Reg) (off : Nat)
  /-- `mov d, [b + off]` for the low half of `d`. -/
  | loadLow (d b : Reg) (off : Nat)
  /-- `mov g, s` for the low half of `s`. -/
  | movSeg (g : Seg) (s : Reg)
  /-- `mov g, [b + off]` -/
  | loadSeg (g : Seg) (b : Reg) (off : Nat)
  /-- `test s, v` for the low half of `s`. -/
  | testLow (s : Reg) (v : Nat)
  /-- `jz` over the next instructions. -/
  | jz (n : Nat)
  /-- `push dword v` -/
  | pushImm (v : Nat)
  /-- `push s` -/
  | pushReg (s : Reg)
  /-- `push dword [b + off]` -/
  | pushMem (b : Reg) (off : Nat)
  deriving DecidableEq, Repr

/-- The address of a memory operand. -/
def State.addr (s : State) (b : Reg) (off : Nat) : Nat := (s.cpu.gpr b + off) % 2 ^ 32

/-- Push a word. -/
def State.push (s : State) (v : Nat) : State :=
  let esp := (s.cpu.gpr .esp + (2 ^ 32 - 4)) % 2 ^ 32
  { cpu := s.cpu.setReg .esp esp, mem := write32 s.mem esp v }

/-- Execute an instruction. -/
def step (s : State) : Instr → State
  | .mov d r => { s with cpu := s.cpu.setReg d (s.cpu.gpr r) }
  | .load d b off => { s with cpu := s.cpu.setReg d (read32 s.mem (s.addr b off)) }
  | .loadLow d b off =>
      let low := read32 s.mem (s.addr b off) % 2 ^ 16
      { s with cpu := s.cpu.setReg d (s.cpu.gpr d / 2 ^ 16 * 2 ^ 16 + low) }
  | .movSeg g r => { s with cpu := s.cpu.setSeg g (s.cpu.gpr r) }
  | .loadSeg g b off => { s with cpu := s.cpu.setSeg g (read32 s.mem (s.addr b off)) }
  | .testLow r v => { s with cpu := { s.cpu with zf := (s.cpu.gpr r % 2 ^ 16) &&& v == 0 } }
  | .jz _ => s
  | .pushImm v => s.push v
  | .pushReg r => s.push (s.cpu.gpr r)
  | .pushMem b off => s.push (read32 s.mem (s.addr b off))

/-- Execute a program, after jumping over some of its instructions. -/
def exec : Nat → List Instr → State → State
  | _, [], s => s
  | n + 1, _ :: is, s => exec n is s
  | 0, .jz n :: is, s => exec (if s.cpu.zf then n else 0) is s
  | 0, i :: is, s => exec 0 is (step s i)

/-- `iret`: take `eip`, `cs` and `eflags` off the stack, and on a return to an outer ring `esp`
and `ss` as well. -/
def iret (s : State) : State :=
  let word := fun off => read32 s.mem (s.addr .esp off)
  let back := { s.cpu with eip := word 0, eflags := word 8 }
  let cpu := back.setSeg .cs (word 4)
  if s.cpu.ring < word 4 % 4 then
    { s with cpu := (cpu.setReg .esp (word 12)).setSeg .ss (word 16) }
  else { s with cpu := cpu.setReg .esp (s.addr .esp 12) }

/-! ## Programs block by block -/

variable {is js : List Instr} {s : State}

theorem exec_append (h : ∀ n, Instr.jz n ∉ is) :
    exec 0 (is ++ js) s = exec 0 js (exec 0 is s) := by
  induction is generalizing s with
  | nil => rfl
  | cons i is ih =>
    have his : ∀ n, Instr.jz n ∉ is := fun n hn => h n (List.mem_cons_of_mem i hn)
    cases i with
    | jz n => exact absurd List.mem_cons_self (h n)
    | _ => exact ih his

/-- A jump over the whole next block. -/
theorem exec_skip : exec is.length (is ++ js) s = exec 0 js s := by
  induction is with
  | nil => rfl
  | cons i is ih => exact ih

theorem exec_jz : exec 0 (.jz is.length :: (is ++ js)) s =
    if s.cpu.zf then exec 0 js s else exec 0 (is ++ js) s := by
  rw [exec]
  cases s.cpu.zf with
  | true => exact exec_skip
  | false => rfl

/-! ## Stores -/

/-- The addresses of the words that an instruction stores. -/
def stored (s : State) : Instr → List Nat
  | .pushImm _ | .pushReg _ | .pushMem _ _ => [(s.cpu.gpr .esp + (2 ^ 32 - 4)) % 2 ^ 32]
  | _ => []

/-- The addresses of the words that a program stores, in order. -/
def stores : Nat → List Instr → State → List Nat
  | _, [], _ => []
  | n + 1, _ :: is, s => stores n is s
  | 0, .jz n :: is, s => stores (if s.cpu.zf then n else 0) is s
  | 0, i :: is, s => stored s i ++ stores 0 is (step s i)

theorem step_mem {i : Instr} {x : Nat} (h : ∀ a ∈ stored s i, x < a ∨ a + 4 ≤ x) :
    (step s i).mem x = s.mem x := by
  cases i with
  | pushImm v => exact write32_of_outside _ (h _ (List.mem_singleton_self _))
  | pushReg r => exact write32_of_outside _ (h _ (List.mem_singleton_self _))
  | pushMem b off => exact write32_of_outside _ (h _ (List.mem_singleton_self _))
  | _ => rfl

/-- **A program changes no memory but the words that it stores.** -/
theorem exec_mem {n x : Nat} (h : ∀ a ∈ stores n is s, x < a ∨ a + 4 ≤ x) :
    (exec n is s).mem x = s.mem x := by
  induction is generalizing n s with
  | nil => cases n <;> rfl
  | cons i is ih =>
    have hstep : ∀ j, (∀ a ∈ stored s j ++ stores 0 is (step s j), x < a ∨ a + 4 ≤ x) →
        (exec 0 is (step s j)).mem x = s.mem x := by
      intro j hj
      rw [ih fun a ha => hj a (List.mem_append_right _ ha)]
      exact step_mem fun a ha => hj a (List.mem_append_left _ ha)
    cases n with
    | succ n => exact ih h
    | zero =>
      cases i with
      | jz n => exact ih h
      | _ => exact hstep _ h

theorem stores_append (h : ∀ n, Instr.jz n ∉ is) :
    stores 0 (is ++ js) s = stores 0 is s ++ stores 0 js (exec 0 is s) := by
  induction is generalizing s with
  | nil => rfl
  | cons i is ih =>
    have his : ∀ n, Instr.jz n ∉ is := fun n hn => h n (List.mem_cons_of_mem i hn)
    cases i with
    | jz n => exact absurd List.mem_cons_self (h n)
    | _ =>
      show stored s _ ++ stores 0 (is ++ js) _ = (stored s _ ++ stores 0 is _) ++ stores 0 js _
      rw [ih his, List.append_assoc]
      rfl

theorem stores_skip : stores is.length (is ++ js) s = stores 0 js s := by
  induction is with
  | nil => rfl
  | cons i is ih => exact ih

theorem stores_jz : stores 0 (.jz is.length :: (is ++ js)) s =
    if s.cpu.zf then stores 0 js s else stores 0 (is ++ js) s := by
  rw [stores]
  cases s.cpu.zf with
  | true => exact stores_skip
  | false => rfl

/-! ## Pushes -/

theorem push_cpu {v : Nat} (h : 4 ≤ s.cpu.gpr .esp) (hlt : s.cpu.gpr .esp < 2 ^ 32) :
    (s.push v).cpu = s.cpu.setReg .esp (s.cpu.gpr .esp - 4) := by
  have hesp : (s.cpu.gpr .esp + (2 ^ 32 - 4)) % 2 ^ 32 = s.cpu.gpr .esp - 4 := by omega
  simp only [State.push, hesp]

theorem push_mem {v : Nat} (h : 4 ≤ s.cpu.gpr .esp) (hlt : s.cpu.gpr .esp < 2 ^ 32) :
    (s.push v).mem = write32 s.mem (s.cpu.gpr .esp - 4) v := by
  have hesp : (s.cpu.gpr .esp + (2 ^ 32 - 4)) % 2 ^ 32 = s.cpu.gpr .esp - 4 := by omega
  simp only [State.push, hesp]

end Ia32
