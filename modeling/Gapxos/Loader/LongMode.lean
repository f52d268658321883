import Mathlib.Logic.Function.Basic
import Mathlib.Tactic.IntervalCases

/-! setup_longmode of boot.s, instruction by instruction: from protected mode to IA-32e mode. A
write to a control register that the processor does not allow is a fault, for which the loader has
no handler. -/
namespace Gapxos.LongMode

inductive Reg
  | eax | ebx | ecx | edx | edi
deriving DecidableEq, Repr

structure CpuidRegs where
  eax : BitVec 32
  ebx : BitVec 32
  ecx : BitVec 32
  edx : BitVec 32

/-- The processor the loader finds. `others` are the arithmetic flags beside ZF and CF, which
nothing here reads. -/
structure Processor where
  hasCpuid : Bool
  cpuid : BitVec 32 → CpuidRegs
  others : BitVec 32 → BitVec 32 → BitVec 32

namespace Processor

/-- Bit 29 of EDX is long mode, bit 20 the no-execute bit of page tables. -/
def longMode (p : Processor) : Bool :=
  p.hasCpuid && !decide ((p.cpuid 0x80000000#32).eax < 0x80000001#32) &&
    (p.cpuid 0x80000001#32).edx.getLsbD 29

def noExecute (p : Processor) : Bool := (p.cpuid 0x80000001#32).edx.getLsbD 20

/-- What popfl writes: not RF, VM, VIF and VIP, and bit 21 only if there is CPUID. -/
def writable (p : Processor) : BitVec 32 := if p.hasCpuid then 0x247fd5#32 else 0x47fd5#32

end Processor

structure Control where
  cr0 : BitVec 32
  cr3 : BitVec 32
  cr4 : BitVec 32
  efer : BitVec 64
deriving DecidableEq

/- CR0: bit 0 is PE, 29 NW, 30 CD, 31 PG. CR4: bit 5 is PAE. EFER: bit 8 is LME, 10 LMA,
11 NXE. -/
namespace Control

/-- Paging needs protection, NW needs CD, and with LME set paging needs PAE. LMA follows PG. -/
def writeCr0 (x : Control) (w : BitVec 32) : Option Control :=
  if w.getLsbD 31 && !w.getLsbD 0 then none
  else if w.getLsbD 29 && !w.getLsbD 30 then none
  else if w.getLsbD 31 && !x.cr0.getLsbD 31 && x.efer.getLsbD 8 && !x.cr4.getLsbD 5 then none
  else some { x with
    cr0 := w
    efer := if w.getLsbD 31 && x.efer.getLsbD 8 then x.efer ||| 0x400#64
      else x.efer &&& ~~~0x400#64 }

def writeCr4 (x : Control) (w : BitVec 32) : Option Control :=
  if x.efer.getLsbD 10 && !w.getLsbD 5 then none else some { x with cr4 := w }

/-- LME does not change while paging is on, NXE is reserved without the feature, and LMA is not
written. -/
def writeEfer (x : Control) (p : Processor) (w : BitVec 64) : Option Control :=
  if x.cr0.getLsbD 31 && (w.getLsbD 8 != x.efer.getLsbD 8) then none
  else if w.getLsbD 11 && !p.noExecute then none
  else some { x with efer := (w &&& ~~~0x400#64) ||| (x.efer &&& 0x400#64) }

structure Legacy (x : Control) : Prop where
  cache : x.cr0.getLsbD 29 = true → x.cr0.getLsbD 30 = true
  inactive : x.efer.getLsbD 10 = false

end Control

structure Cpu where
  reg : Reg → BitVec 32
  stack : List (BitVec 32)
  eflags : BitVec 32
  control : Control

def withFlags (eflags bits : BitVec 32) : BitVec 32 :=
  (eflags &&& ~~~0x8d5#32) ||| (bits &&& 0x8d5#32)

def flagBits (others : BitVec 32) (zf cf : Bool) : BitVec 32 :=
  (others &&& 0x894#32) ||| (if zf then 0x40#32 else 0) ||| (if cf then 1#32 else 0)

namespace Cpu

def set (c : Cpu) (r : Reg) (w : BitVec 32) : Cpu := { c with reg := Function.update c.reg r w }

def flags (c : Cpu) (p : Processor) (a b : BitVec 32) (zf cf : Bool) : Cpu :=
  { c with eflags := withFlags c.eflags (flagBits (p.others a b) zf cf) }

def logic (c : Cpu) (p : Processor) (r : Reg) (b w : BitVec 32) : Cpu :=
  (c.set r w).flags p (c.reg r) b (w == 0) false

def popEflags (c : Cpu) (p : Processor) (w : BitVec 32) : Cpu :=
  { c with eflags :=
      ((w &&& p.writable) ||| (c.eflags &&& ~~~p.writable)) &&& ~~~0x10000#32 }

end Cpu

inductive ControlReg
  | cr0 | cr3 | cr4
deriving DecidableEq, Repr

inductive Instr
  | push (r : Reg)
  | pop (r : Reg)
  | pushfl
  | popfl
  | movImm (w : BitVec 32) (r : Reg)
  | movStack (word : Nat) (r : Reg)
  | xor (w : BitVec 32) (r : Reg)
  | and (w : BitVec 32) (r : Reg)
  | or (w : BitVec 32) (r : Reg)
  | cmp (a b : Reg)
  | cmpImm (w : BitVec 32) (r : Reg)
  | test (w : BitVec 32) (r : Reg)
  | je
  | jb
  | cpuid
  | fromControl (x : ControlReg) (r : Reg)
  | toControl (r : Reg) (x : ControlReg)
  | rdmsr
  | wrmsr
  | ret

inductive Outcome
  | running (c : Cpu)
  | halted (c : Cpu)
  | returned (target : BitVec 32) (c : Cpu)

/-- What an instruction does; a fault is nothing. pushfl stores RF and VM as 0. The operands are in
the order of the source: cmp subtracts its first from its second. -/
def Instr.step (p : Processor) (c : Cpu) : Instr → Option Outcome
  | .push r => some (.running { c with stack := c.reg r :: c.stack })
  | .pop r =>
    match c.stack with
    | [] => none
    | w :: rest => some (.running { c.set r w with stack := rest })
  | .pushfl => some (.running { c with stack := (c.eflags &&& 0xfcffff#32) :: c.stack })
  | .popfl =>
    match c.stack with
    | [] => none
    | w :: rest => some (.running { c.popEflags p w with stack := rest })
  | .movImm w r => some (.running (c.set r w))
  | .movStack word r => c.stack[word]?.map fun w => .running (c.set r w)
  | .xor w r => some (.running (c.logic p r w (c.reg r ^^^ w)))
  | .and w r => some (.running (c.logic p r w (c.reg r &&& w)))
  | .or w r => some (.running (c.logic p r w (c.reg r ||| w)))
  | .cmp a b => some (.running (c.flags p (c.reg b) (c.reg a) (c.reg b == c.reg a)
      (decide (c.reg b < c.reg a))))
  | .cmpImm w r => some (.running (c.flags p (c.reg r) w (c.reg r == w) (decide (c.reg r < w))))
  | .test w r => some (.running (c.flags p (c.reg r) w (c.reg r &&& w == 0) false))
  | .je => if c.eflags.getLsbD 6 then some (.halted c) else some (.running c)
  | .jb => if c.eflags.getLsbD 0 then some (.halted c) else some (.running c)
  | .cpuid =>
    let out := p.cpuid (c.reg .eax)
    some (.running ((((c.set .eax out.eax).set .ebx out.ebx).set .ecx out.ecx).set .edx out.edx))
  | .fromControl .cr0 r => some (.running (c.set r c.control.cr0))
  | .fromControl .cr3 r => some (.running (c.set r c.control.cr3))
  | .fromControl .cr4 r => some (.running (c.set r c.control.cr4))
  | .toControl r .cr0 =>
    (c.control.writeCr0 (c.reg r)).map fun x => .running { c with control := x }
  | .toControl r .cr3 => some (.running { c with control := { c.control with cr3 := c.reg r } })
  | .toControl r .cr4 =>
    (c.control.writeCr4 (c.reg r)).map fun x => .running { c with control := x }
  -- EFER is the only MSR that the code names
  | .rdmsr =>
    if c.reg .ecx = 0xc0000080#32 then
      some (.running ((c.set .eax (c.control.efer.setWidth 32)).set .edx
        ((c.control.efer >>> 32).setWidth 32)))
    else none
  | .wrmsr =>
    if c.reg .ecx = 0xc0000080#32 then
      (c.control.writeEfer p (c.reg .edx ++ c.reg .eax)).map fun x =>
        .running { c with control := x }
    else none
  | .ret =>
    match c.stack with
    | [] => none
    | w :: rest => some (.returned w { c with stack := rest })

def execute (p : Processor) : List Instr → Cpu → Option Outcome
  | [], c => some (.running c)
  | i :: rest, c =>
    (i.step p c).bind fun
      | .running c => execute p rest c
      | .halted c => some (.halted c)
      | .returned target c => some (.returned target c)

def Outcome.resume (p : Processor) (rest : List Instr) : Outcome → Option Outcome
  | .running c => execute p rest c
  | .halted c => some (.halted c)
  | .returned target c => some (.returned target c)

def checkCpuid : List Instr :=
  [.push .ebx, .pushfl, .pushfl, .pop .eax, .xor 0x200000#32 .eax, .push .eax, .popfl, .pushfl,
    .pop .eax, .movStack 0 .ebx, .popfl, .cmp .eax .ebx]

def checkExtended : List Instr :=
  [.pop .ebx, .movImm 0x80000000#32 .eax, .cpuid, .cmpImm 0x80000001#32 .eax]

def checkLongmode : List Instr := [.movImm 0x80000001#32 .eax, .cpuid, .test 0x20000000#32 .edx]

def disablePaging : List Instr :=
  [.fromControl .cr0 .eax, .and 0x7fffffff#32 .eax, .toControl .eax .cr0]

def setTables : List Instr := [.movStack 1 .eax, .toControl .eax .cr3]

def enablePae : List Instr :=
  [.push .edi, .fromControl .cr4 .edi, .or 0x20#32 .edi, .toControl .edi .cr4, .pop .edi]

def enableLongmode : List Instr :=
  [.movImm 0xc0000080#32 .ecx, .rdmsr, .or 0x100#32 .eax, .or 0x800#32 .eax, .wrmsr]

def enablePaging : List Instr :=
  [.fromControl .cr0 .eax, .or 0x80000000#32 .eax, .or 1#32 .eax, .toControl .eax .cr0]

def enter : List Instr :=
  disablePaging ++ (setTables ++ (enablePae ++ (enableLongmode ++ (enablePaging ++ [.ret]))))

def setupLongmode : List Instr :=
  checkCpuid ++ .je :: (checkExtended ++ .jb :: (checkLongmode ++ .je :: enter))

def systemFlags (eflags : BitVec 32) : BitVec 32 := eflags &&& ~~~0x108d5#32

structure Kept (c c' : Cpu) : Prop where
  edi : c'.reg .edi = c.reg .edi
  eflags : systemFlags c'.eflags = systemFlags c.eflags

structure Quiet (c c' : Cpu) : Prop extends Kept c c' where
  ebx : c'.reg .ebx = c.reg .ebx
  stack : c'.stack = c.stack

section Execute

theorem execute_append (p : Processor) (first second : List Instr) (c : Cpu) :
    execute p (first ++ second) c = (execute p first c).bind (Outcome.resume p second) := by
  induction first generalizing c with
  | nil => rfl
  | cons i rest ih =>
    rw [List.cons_append, execute, execute, Option.bind_assoc]
    congr 1
    funext out
    cases out with
    | running d => exact ih d
    | halted d => rfl
    | returned target d => rfl

theorem execute_je (p : Processor) (c : Cpu) (rest : List Instr) : execute p (.je :: rest) c =
    if c.eflags.getLsbD 6 then some (.halted c) else execute p rest c := by
  rw [execute, Instr.step]
  split <;> rfl

theorem execute_jb (p : Processor) (c : Cpu) (rest : List Instr) : execute p (.jb :: rest) c =
    if c.eflags.getLsbD 0 then some (.halted c) else execute p rest c := by
  rw [execute, Instr.step]
  split <;> rfl

theorem Kept.trans {a b d : Cpu} (first : Kept a b) (second : Kept b d) : Kept a d :=
  ⟨second.edi.trans first.edi, second.eflags.trans first.eflags⟩

theorem Quiet.trans {a b d : Cpu} (first : Quiet a b) (second : Quiet b d) : Quiet a d :=
  ⟨first.toKept.trans second.toKept, second.ebx.trans first.ebx, second.stack.trans first.stack⟩

end Execute

section Flags

theorem withFlags_zf (e x : BitVec 32) (zf cf : Bool) :
    (withFlags e (flagBits x zf cf)).getLsbD 6 = zf := by
  cases zf <;> cases cf <;> simp [withFlags, flagBits]

theorem withFlags_cf (e x : BitVec 32) (zf cf : Bool) :
    (withFlags e (flagBits x zf cf)).getLsbD 0 = cf := by
  cases zf <;> cases cf <;> simp [withFlags, flagBits]

theorem systemFlags_withFlags (e x : BitVec 32) :
    systemFlags (withFlags e x) = systemFlags e := by
  apply BitVec.eq_of_getLsbD_eq
  intro i inside
  interval_cases i <;> simp [systemFlags, withFlags]

/-- The flags after the first popfl, which was to change bit 21. -/
def toggled (p : Processor) (e x : BitVec 32) : BitVec 32 :=
  ((((e &&& 0xfcffff#32) ^^^ 0x200000#32) &&& p.writable) |||
    (withFlags e x &&& ~~~p.writable)) &&& ~~~0x10000#32

theorem toggled_same (p : Processor) (e x : BitVec 32) :
    e &&& 0xfcffff#32 = toggled p e x &&& 0xfcffff#32 ↔ p.hasCpuid = false := by
  cases id : p.hasCpuid with
  | false =>
    simp only [iff_true]
    apply BitVec.eq_of_getLsbD_eq
    intro i inside
    interval_cases i <;> simp [toggled, withFlags, Processor.writable, id]
  | true =>
    simp only [Bool.true_eq_false, iff_false]
    intro same
    have bit := congrArg (BitVec.getLsbD · 21) same
    simp [toggled, Processor.writable, id] at bit

def restored (p : Processor) (e x : BitVec 32) : BitVec 32 :=
  (((e &&& 0xfcffff#32) &&& p.writable) ||| (toggled p e x &&& ~~~p.writable)) &&& ~~~0x10000#32

theorem systemFlags_restored (p : Processor) (e x : BitVec 32) :
    systemFlags (restored p e x) = systemFlags e := by
  apply BitVec.eq_of_getLsbD_eq
  intro i inside
  cases id : p.hasCpuid <;> interval_cases i <;>
    simp [systemFlags, restored, toggled, withFlags, Processor.writable, id]

end Flags

section Checks

theorem and_bit_eq_zero (w : BitVec 32) : w &&& 0x20000000#32 = 0 ↔ w.getLsbD 29 = false := by
  constructor
  · intro zero
    simpa using congrArg (BitVec.getLsbD · 29) zero
  · intro clear
    apply BitVec.eq_of_getLsbD_eq
    intro i inside
    interval_cases i <;> simp_all

variable (p : Processor) (c : Cpu)

theorem checkCpuid_run : ∃ c', execute p checkCpuid c = some (.running c') ∧
    c'.eflags.getLsbD 6 = !p.hasCpuid ∧ c'.stack = c.reg .ebx :: c.stack ∧
    c'.control = c.control ∧ Kept c c' := by
  refine ⟨_, rfl, ?_, rfl, rfl, ⟨rfl, ?_⟩⟩
  · apply (withFlags_zf _ _ _ _).trans
    rw [Bool.eq_iff_iff, beq_iff_eq, Bool.not_eq_true']
    exact toggled_same p c.eflags _
  · apply (systemFlags_withFlags _ _).trans
    exact systemFlags_restored p c.eflags _

theorem checkExtended_run {w : BitVec 32} {rest : List (BitVec 32)} (stack : c.stack = w :: rest) :
    ∃ c', execute p checkExtended c = some (.running c') ∧
      c'.eflags.getLsbD 0 = decide ((p.cpuid 0x80000000#32).eax < 0x80000001#32) ∧
      c'.stack = rest ∧ c'.control = c.control ∧ Kept c c' := by
  obtain ⟨reg, words, eflags, control⟩ := c
  cases stack
  refine ⟨_, rfl, ?_, rfl, rfl, ⟨rfl, ?_⟩⟩
  · exact withFlags_cf _ _ _ _
  · exact systemFlags_withFlags _ _

theorem checkLongmode_run : ∃ c', execute p checkLongmode c = some (.running c') ∧
    c'.eflags.getLsbD 6 = !(p.cpuid 0x80000001#32).edx.getLsbD 29 ∧ c'.stack = c.stack ∧
    c'.control = c.control ∧ c'.reg .ebx = (p.cpuid 0x80000001#32).ebx ∧ Kept c c' := by
  refine ⟨_, rfl, ?_, rfl, rfl, rfl, ⟨rfl, ?_⟩⟩
  · apply (withFlags_zf _ _ _ _).trans
    rw [Bool.eq_iff_iff, beq_iff_eq, Bool.not_eq_true']
    exact and_bit_eq_zero _
  · exact systemFlags_withFlags _ _

end Checks

section Control

variable {x : Control}

theorem Control.Legacy.nw_off (legacy : x.Legacy) :
    (x.cr0.getLsbD 29 && !x.cr0.getLsbD 30) = false := by
  cases nw : x.cr0.getLsbD 29 with
  | false => rfl
  | true =>
    rw [legacy.cache nw]
    rfl

theorem Control.Legacy.writeCr0_off (legacy : x.Legacy) :
    x.writeCr0 (x.cr0 &&& 0x7fffffff#32) = some { x with cr0 := x.cr0 &&& 0x7fffffff#32 } := by
  have bit : x.efer[10] = false := legacy.inactive
  have lma : x.efer &&& ~~~0x400#64 = x.efer := by
    apply BitVec.eq_of_getLsbD_eq
    intro i inside
    interval_cases i <;> simp [bit]
  have pg : (x.cr0 &&& 0x7fffffff#32).getLsbD 31 = false := by simp
  have nw : (x.cr0 &&& 0x7fffffff#32).getLsbD 29 = x.cr0.getLsbD 29 := by simp
  have cd : (x.cr0 &&& 0x7fffffff#32).getLsbD 30 = x.cr0.getLsbD 30 := by simp
  rw [Control.writeCr0, pg, nw, cd, legacy.nw_off, lma]
  rfl

theorem Control.Legacy.writeCr0_on (legacy : x.Legacy) (pae : x.cr4.getLsbD 5 = true)
    (enabled : x.efer.getLsbD 8 = true) :
    x.writeCr0 (x.cr0 ||| 0x80000000#32 ||| 1#32) =
      some { x with cr0 := x.cr0 ||| 0x80000001#32, efer := x.efer ||| 0x400#64 } := by
  have pg : (x.cr0 ||| 0x80000001#32).getLsbD 31 = true := by simp
  have pe : (x.cr0 ||| 0x80000001#32).getLsbD 0 = true := by simp
  have nw : (x.cr0 ||| 0x80000001#32).getLsbD 29 = x.cr0.getLsbD 29 := by simp
  have cd : (x.cr0 ||| 0x80000001#32).getLsbD 30 = x.cr0.getLsbD 30 := by simp
  rw [BitVec.or_assoc, show 0x80000000#32 ||| 1#32 = 0x80000001#32 by decide,
    Control.writeCr0, pg, pe, nw, cd, legacy.nw_off, pae, enabled]
  simp

theorem cr0_switched (w : BitVec 32) :
    (w &&& 0x7fffffff#32) ||| 0x80000001#32 = w ||| 0x80000001#32 := by
  apply BitVec.eq_of_getLsbD_eq
  intro i inside
  interval_cases i <;> simp

theorem writeCr4_pae (x : Control) :
    x.writeCr4 (x.cr4 ||| 0x20#32) = some { x with cr4 := x.cr4 ||| 0x20#32 } := by
  simp [Control.writeCr4]

theorem efer_halves (w : BitVec 64) : (w >>> 32).setWidth 32 ++
    (w.setWidth 32 ||| 0x100#32 ||| 0x800#32) = w ||| 0x900#64 := by
  apply BitVec.eq_of_getLsbD_eq
  intro i inside
  rw [BitVec.getLsbD_append]
  interval_cases i <;> simp

theorem writeEfer_enable (p : Processor) (off : x.cr0.getLsbD 31 = false) :
    x.writeEfer p (x.efer ||| 0x900#64) =
      if p.noExecute then some { x with efer := x.efer ||| 0x900#64 } else none := by
  have lma : ((x.efer ||| 0x900#64) &&& ~~~0x400#64) ||| (x.efer &&& 0x400#64) =
      x.efer ||| 0x900#64 := by
    apply BitVec.eq_of_getLsbD_eq
    intro i inside
    interval_cases i <;> simp
  rw [Control.writeEfer, off, lma]
  cases p.noExecute <;> simp

end Control

section Enter

variable {p : Processor} {c d : Cpu} {first second : List Instr}

theorem execute_then (run : execute p first c = some (.running d)) :
    execute p (first ++ second) c = execute p second d := by
  rw [execute_append, run]
  rfl

theorem Quiet.withControl (quiet : Quiet c d) (x : Control) : Quiet c { d with control := x } :=
  ⟨⟨quiet.edi, quiet.eflags⟩, quiet.ebx, quiet.stack⟩

theorem disablePaging_run (legacy : c.control.Legacy) :
    ∃ c', execute p disablePaging c = some (.running c') ∧
      c'.control = { c.control with cr0 := c.control.cr0 &&& 0x7fffffff#32 } ∧ Quiet c c' := by
  obtain ⟨d, run, eax, control, quiet⟩ : ∃ d,
      execute p [.fromControl .cr0 .eax, .and 0x7fffffff#32 .eax] c = some (.running d) ∧
      d.reg .eax = c.control.cr0 &&& 0x7fffffff#32 ∧ d.control = c.control ∧ Quiet c d :=
    ⟨_, rfl, rfl, rfl, ⟨rfl, systemFlags_withFlags _ _⟩, rfl, rfl⟩
  refine ⟨_, (execute_then run).trans ?_, rfl, quiet.withControl _⟩
  rw [execute, Instr.step, eax, control, legacy.writeCr0_off]
  rfl

theorem setTables_run {target pml4t : BitVec 32} {rest : List (BitVec 32)}
    (stack : c.stack = target :: pml4t :: rest) :
    ∃ c', execute p setTables c = some (.running c') ∧
      c'.control = { c.control with cr3 := pml4t } ∧ Quiet c c' := by
  obtain ⟨reg, words, eflags, control⟩ := c
  cases stack
  exact ⟨_, rfl, rfl, ⟨rfl, rfl⟩, rfl, rfl⟩

theorem enablePae_run : ∃ c', execute p enablePae c = some (.running c') ∧
    c'.control = { c.control with cr4 := c.control.cr4 ||| 0x20#32 } ∧ Quiet c c' := by
  obtain ⟨d, run, edi, control, ebx, stack, eflags⟩ : ∃ d,
      execute p [.push .edi, .fromControl .cr4 .edi, .or 0x20#32 .edi] c = some (.running d) ∧
      d.reg .edi = c.control.cr4 ||| 0x20#32 ∧ d.control = c.control ∧
      d.reg .ebx = c.reg .ebx ∧ d.stack = c.reg .edi :: c.stack ∧
      systemFlags d.eflags = systemFlags c.eflags :=
    ⟨_, rfl, rfl, rfl, rfl, rfl, systemFlags_withFlags _ _⟩
  obtain ⟨reg, words, flags, x⟩ := d
  cases stack
  cases control
  refine ⟨⟨Function.update reg .edi (c.reg .edi), c.stack, flags,
    { c.control with cr4 := c.control.cr4 ||| 0x20#32 }⟩, (execute_then run).trans ?_, rfl,
    ⟨rfl, eflags⟩, ebx, rfl⟩
  rw [execute, Instr.step, edi, writeCr4_pae]
  rfl

theorem enableLongmode_run (off : c.control.cr0.getLsbD 31 = false) :
    ∃ c', c'.control = { c.control with efer := c.control.efer ||| 0x900#64 } ∧ Quiet c c' ∧
      execute p enableLongmode c = if p.noExecute then some (.running c') else none := by
  obtain ⟨d, run, ecx, value, control, quiet⟩ : ∃ d,
      execute p [.movImm 0xc0000080#32 .ecx, .rdmsr, .or 0x100#32 .eax, .or 0x800#32 .eax] c =
        some (.running d) ∧ d.reg .ecx = 0xc0000080#32 ∧
      d.reg .edx ++ d.reg .eax = c.control.efer ||| 0x900#64 ∧ d.control = c.control ∧
      Quiet c d := by
    refine ⟨_, rfl, rfl, efer_halves _, rfl, ⟨rfl, ?_⟩, rfl, rfl⟩
    exact (systemFlags_withFlags _ _).trans (systemFlags_withFlags _ _)
  refine ⟨_, rfl, quiet.withControl _, (execute_then run).trans ?_⟩
  rw [execute, Instr.step, if_pos ecx, value, control, writeEfer_enable p off]
  cases p.noExecute <;> rfl

theorem enablePaging_run (legacy : c.control.Legacy) (pae : c.control.cr4.getLsbD 5 = true)
    (enabled : c.control.efer.getLsbD 8 = true) :
    ∃ c', execute p enablePaging c = some (.running c') ∧
      c'.control = { c.control with
        cr0 := c.control.cr0 ||| 0x80000001#32
        efer := c.control.efer ||| 0x400#64 } ∧ Quiet c c' := by
  obtain ⟨d, run, eax, control, quiet⟩ : ∃ d,
      execute p [.fromControl .cr0 .eax, .or 0x80000000#32 .eax, .or 1#32 .eax] c =
        some (.running d) ∧
      d.reg .eax = c.control.cr0 ||| 0x80000000#32 ||| 1#32 ∧ d.control = c.control ∧
      Quiet c d := by
    refine ⟨_, rfl, rfl, rfl, ⟨rfl, ?_⟩, rfl, rfl⟩
    exact (systemFlags_withFlags _ _).trans (systemFlags_withFlags _ _)
  refine ⟨_, (execute_then run).trans ?_, rfl, quiet.withControl _⟩
  rw [execute, Instr.step, eax, control, legacy.writeCr0_on pae enabled]
  rfl

theorem enter_run {target pml4t : BitVec 32} {rest : List (BitVec 32)}
    (stack : c.stack = target :: pml4t :: rest) (legacy : c.control.Legacy) :
    ∃ c', c'.control = ⟨c.control.cr0 ||| 0x80000001#32, pml4t, c.control.cr4 ||| 0x20#32,
        c.control.efer ||| 0xd00#64⟩ ∧
      c'.stack = pml4t :: rest ∧ c'.reg .ebx = c.reg .ebx ∧ Kept c c' ∧
      execute p enter c = if p.noExecute then some (.returned target c') else none := by
  obtain ⟨c₁, run₁, control₁, quiet₁⟩ := disablePaging_run (p := p) legacy
  obtain ⟨c₂, run₂, control₂, quiet₂⟩ := setTables_run (p := p) (quiet₁.stack.trans stack)
  obtain ⟨c₃, run₃, control₃, quiet₃⟩ := enablePae_run (p := p) (c := c₂)
  have off : c₃.control.cr0.getLsbD 31 = false := by simp [control₃, control₂, control₁]
  obtain ⟨c₄, control₄, quiet₄, run₄⟩ := enableLongmode_run (p := p) off
  have pae : c₄.control.cr4.getLsbD 5 = true := by simp [control₄, control₃]
  have enabled : c₄.control.efer.getLsbD 8 = true := by simp [control₄]
  have legacy' : c₄.control.Legacy := by
    have bit : c.control.efer[10] = false := legacy.inactive
    constructor
    · simpa [control₄, control₃, control₂, control₁] using legacy.cache
    · simp [control₄, control₃, control₂, control₁, bit]
  obtain ⟨c₅, run₅, control₅, quiet₅⟩ := enablePaging_run (p := p) legacy' pae enabled
  have quiet := quiet₁.trans (quiet₂.trans (quiet₃.trans (quiet₄.trans quiet₅)))
  refine ⟨{ c₅ with stack := pml4t :: rest }, ?_, rfl, quiet.ebx, ⟨quiet.edi, quiet.eflags⟩, ?_⟩
  · have efer : c.control.efer ||| 0x900#64 ||| 0x400#64 = c.control.efer ||| 0xd00#64 := by
      rw [BitVec.or_assoc]
      rfl
    rw [control₅, control₄, control₃, control₂, control₁]
    exact (Control.mk.injEq ..).mpr ⟨cr0_switched _, rfl, rfl, efer⟩
  · rw [enter, execute_then run₁, execute_then run₂, execute_then run₃, execute_append, run₄]
    cases p.noExecute with
    | false => rfl
    | true =>
      change execute p (enablePaging ++ [.ret]) c₄ = _
      rw [execute_then run₅, execute, Instr.step, quiet.stack, stack]
      rfl

end Enter

theorem setupLongmode_checks (p : Processor) (c : Cpu) :
    (p.longMode = false →
      ∃ c', execute p setupLongmode c = some (.halted c') ∧ c'.control = c.control) ∧
    (p.longMode = true → ∃ c', execute p setupLongmode c = execute p enter c' ∧
      c'.control = c.control ∧ c'.stack = c.stack ∧
      c'.reg .ebx = (p.cpuid 0x80000001#32).ebx ∧ Kept c c') := by
  obtain ⟨c₁, run₁, zf₁, stack₁, control₁, kept₁⟩ := checkCpuid_run p c
  obtain ⟨c₂, run₂, cf₂, stack₂, control₂, kept₂⟩ := checkExtended_run p c₁ stack₁
  obtain ⟨c₃, run₃, zf₃, stack₃, control₃, ebx₃, kept₃⟩ := checkLongmode_run p c₂
  rw [setupLongmode, execute_then run₁, execute_je, zf₁, Processor.longMode]
  cases p.hasCpuid with
  | false => exact ⟨fun _ => ⟨c₁, rfl, control₁⟩, fun absent => by cases absent⟩
  | true =>
    rw [Bool.not_true, if_neg Bool.false_ne_true, execute_then run₂, execute_jb, cf₂]
    cases decide ((p.cpuid 0x80000000#32).eax < 0x80000001#32) with
    | true => exact ⟨fun _ => ⟨c₂, rfl, control₂.trans control₁⟩, fun absent => by cases absent⟩
    | false =>
      rw [if_neg Bool.false_ne_true, execute_then run₃, execute_je, zf₃]
      have control : c₃.control = c.control := control₃.trans (control₂.trans control₁)
      cases (p.cpuid 0x80000001#32).edx.getLsbD 29 with
      | false => exact ⟨fun _ => ⟨c₃, rfl, control⟩, fun absent => by cases absent⟩
      | true => exact ⟨fun absent => (by cases absent), fun _ => ⟨c₃, rfl, control,
          stack₃.trans stack₂, ebx₃, kept₁.trans (kept₂.trans kept₃)⟩⟩

theorem setup_longmode_outcome (p : Processor) (c : Cpu) (target pml4t : BitVec 32)
    (rest : List (BitVec 32)) (stack : c.stack = target :: pml4t :: rest)
    (legacy : c.control.Legacy) :
    (p.longMode = false →
      ∃ c', execute p setupLongmode c = some (.halted c') ∧ c'.control = c.control) ∧
    (p.longMode = true → p.noExecute = false → execute p setupLongmode c = none) ∧
    (p.longMode = true → p.noExecute = true →
      ∃ c', execute p setupLongmode c = some (.returned target c') ∧
        c'.control = ⟨c.control.cr0 ||| 0x80000001#32, pml4t, c.control.cr4 ||| 0x20#32,
          c.control.efer ||| 0xd00#64⟩ ∧
        c'.stack = pml4t :: rest ∧ systemFlags c'.eflags = systemFlags c.eflags ∧
        c'.reg .edi = c.reg .edi ∧ c'.reg .ebx = (p.cpuid 0x80000001#32).ebx) := by
  obtain ⟨refused, passed⟩ := setupLongmode_checks p c
  refine ⟨refused, fun long missing => ?_, fun long present => ?_⟩
  · obtain ⟨d, run, control, stack', -⟩ := passed long
    obtain ⟨_, -, -, -, -, run'⟩ := enter_run (p := p) (stack'.trans stack) (control ▸ legacy)
    rw [run, run', missing]
    rfl
  · obtain ⟨d, run, control, stack', ebx, kept⟩ := passed long
    obtain ⟨c', control', left, ebx', kept', run'⟩ := enter_run (p := p) (stack'.trans stack)
      (control ▸ legacy)
    rw [control] at control'
    refine ⟨c', ?_, control', left, (kept.trans kept').eflags, (kept.trans kept').edi,
      ebx'.trans ebx⟩
    rw [run, run', present]
    rfl

/-- A processor with long mode and the no-execute bit, whose CPUID leaves 7 in %ebx, and one that
has the former only. -/
def modern : Processor := ⟨true, fun _ => ⟨0x80000008#32, 7, 0, 0x20100000#32⟩, fun _ _ => 0⟩
def early : Processor := ⟨true, fun _ => ⟨0x80000008#32, 7, 0, 0x20000000#32⟩, fun _ _ => 0⟩

/-- As a multiboot loader leaves the processor, with the call of setup_longmode made. -/
def called : Cpu := ⟨fun _ => 0, [0x1234, 0x20000], 2, ⟨0x11, 0, 0, 0⟩⟩

theorem setup_longmode_outcome_modern :
    (∃ c', execute modern setupLongmode called = some (.returned 0x1234 c') ∧
      c'.control = ⟨0x80000011, 0x20000, 0x20, 0xd00⟩ ∧ c'.reg .ebx = 7) ∧
    execute early setupLongmode called = none := by
  have legacy : called.control.Legacy := ⟨by decide, by decide⟩
  obtain ⟨-, -, returns⟩ := setup_longmode_outcome modern called 0x1234 0x20000 [] rfl legacy
  obtain ⟨-, faults, -⟩ := setup_longmode_outcome early called 0x1234 0x20000 [] rfl legacy
  obtain ⟨c', run, control, -, -, -, ebx⟩ := returns (by decide) (by decide)
  exact ⟨⟨c', run, control, ebx⟩, faults (by decide) (by decide)⟩

end Gapxos.LongMode
