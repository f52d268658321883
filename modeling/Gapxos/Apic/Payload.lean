import Gapxos.Gdt.Table

/-! The code that an application processor starts with, ap_init_payload: its bytes, and a
processor that runs them, in 16-bit mode up to the far jump and in 64-bit mode from there on. -/
namespace Gapxos
open Bytes

def apInitPayload : List (BitVec 8) := [
  0xbe, 0xad, 0xde,
  0xc6, 0x44, 0x16, 0x01,
  0x80, 0x7c, 0x16, 0x00,
  0x75, 0xfa,
  0x66, 0x8b, 0x04,
  0x0f, 0x22, 0xd8,
  0x0f, 0x20, 0xe0,
  0x66, 0x83, 0xc8, 0x20,
  0x0f, 0x22, 0xe0,
  0x66, 0xb9, 0x80, 0x00, 0x00, 0xc0,
  0x0f, 0x32,
  0x66, 0x0d, 0x00, 0x09, 0x00, 0x00,
  0x0f, 0x30,
  0x0f, 0x20, 0xc0,
  0x66, 0x0d, 0x01, 0x00, 0x00, 0x80,
  0x0f, 0x22, 0xc0,
  0x81, 0x44, 0x0a, 0x45, 0x00,
  0x0f, 0x01, 0x54, 0x04,
  0xff, 0x6c, 0x0a,
  -- x64_stub
  0x66, 0x89, 0xf0,
  0x48, 0x31, 0xf6,
  0x66, 0x89, 0xc6,
  0x48, 0x8b, 0x66, 0x17,
  0x48, 0x89, 0xe5,
  0x48, 0x8b, 0x46, 0x0e,
  0xff, 0xe0]

def apInitPayloadLen : Nat := 91

example : apInitPayload.length = apInitPayloadLen := by decide

inductive Instr where
  | movwSi (imm : Nat)
  | movb (imm disp : Nat)
  | cmpb (imm disp : Nat)
  | jne (rel : Nat)
  | movlSi
  | movToCr (n : Nat)
  | movFromCr (n : Nat)
  | orl (imm : Nat)
  | movlEcx (imm : Nat)
  | rdmsr
  | wrmsr
  | addw (imm disp : Nat)
  | lgdtw (disp : Nat)
  | ljmp (disp : Nat)
  | movwSiAx
  | xorqRsi
  | movwAxSi
  | movqRsp (disp : Nat)
  | movqRbp
  | movqRax (disp : Nat)
  | jmpqRax
  deriving DecidableEq

def decode16 : List Nat → Option (Instr × Nat)
  | 0xbe :: l :: h :: _ => some (.movwSi (l + 256 * h), 3)
  | 0xc6 :: 0x44 :: disp :: imm :: _ => some (.movb imm disp, 4)
  | 0x80 :: 0x7c :: disp :: imm :: _ => some (.cmpb imm disp, 4)
  | 0x75 :: rel :: _ => some (.jne rel, 2)
  | 0x66 :: 0x8b :: 0x04 :: _ => some (.movlSi, 3)
  | 0x66 :: 0x83 :: 0xc8 :: imm :: _ => some (.orl imm, 4)
  | 0x66 :: 0xb9 :: a :: b :: c :: d :: _ =>
    some (.movlEcx (a + 256 * (b + 256 * (c + 256 * d))), 6)
  | 0x66 :: 0x0d :: a :: b :: c :: d :: _ => some (.orl (a + 256 * (b + 256 * (c + 256 * d))), 6)
  | 0x0f :: 0x22 :: 0xc0 :: _ => some (.movToCr 0, 3)
  | 0x0f :: 0x22 :: 0xd8 :: _ => some (.movToCr 3, 3)
  | 0x0f :: 0x22 :: 0xe0 :: _ => some (.movToCr 4, 3)
  | 0x0f :: 0x20 :: 0xc0 :: _ => some (.movFromCr 0, 3)
  | 0x0f :: 0x20 :: 0xe0 :: _ => some (.movFromCr 4, 3)
  | 0x0f :: 0x32 :: _ => some (.rdmsr, 2)
  | 0x0f :: 0x30 :: _ => some (.wrmsr, 2)
  | 0x81 :: 0x44 :: disp :: l :: h :: _ => some (.addw (l + 256 * h) disp, 5)
  | 0x0f :: 0x01 :: 0x54 :: disp :: _ => some (.lgdtw disp, 4)
  | 0xff :: 0x6c :: disp :: _ => some (.ljmp disp, 3)
  | _ => none

def decode64 : List Nat → Option (Instr × Nat)
  | 0x66 :: 0x89 :: 0xf0 :: _ => some (.movwSiAx, 3)
  | 0x48 :: 0x31 :: 0xf6 :: _ => some (.xorqRsi, 3)
  | 0x66 :: 0x89 :: 0xc6 :: _ => some (.movwAxSi, 3)
  | 0x48 :: 0x8b :: 0x66 :: disp :: _ => some (.movqRsp disp, 4)
  | 0x48 :: 0x89 :: 0xe5 :: _ => some (.movqRbp, 3)
  | 0x48 :: 0x8b :: 0x46 :: disp :: _ => some (.movqRax disp, 4)
  | 0xff :: 0xe0 :: _ => some (.jmpqRax, 2)
  | _ => none

/-- A processor that runs the payload. In 16-bit mode `ip` counts from the page of the payload,
and data lie in the segment at 0. -/
structure Ap where
  long : Bool
  ip : Nat
  cs : Nat
  rax : Nat
  rcx : Nat
  rdx : Nat
  rsi : Nat
  rsp : Nat
  rbp : Nat
  zf : Bool
  cr : Nat → Nat
  msr : Nat → Nat
  gdtr : Gdtr

def signExtend (w b : Nat) : Nat := if b < 0x80 then b else b + (2 ^ w - 0x100)

def setLow (r w : Nat) : Nat := r / 2 ^ 16 * 2 ^ 16 + w % 2 ^ 16

def Ap.at (ap : Ap) (disp : Nat) : Nat := (ap.rsi % 2 ^ 16 + signExtend 16 disp) % 2 ^ 16

/-- What an instruction does, with `ip` behind it. -/
def exec (mem : Memory) (ap : Ap) : Instr → Memory × Ap
  | .movwSi imm => (mem, { ap with rsi := setLow ap.rsi imm })
  | .movb imm disp => (write mem (ap.at disp) 1 imm, ap)
  | .cmpb imm disp => (mem, { ap with zf := read mem (ap.at disp) 1 = imm })
  | .jne rel =>
    (mem, if ap.zf then ap else { ap with ip := (ap.ip + signExtend 16 rel) % 2 ^ 16 })
  | .movlSi => (mem, { ap with rax := read mem (ap.at 0) 4 })
  | .movToCr n => (mem, { ap with cr := Function.update ap.cr n (ap.rax % 2 ^ 32) })
  | .movFromCr n => (mem, { ap with rax := ap.cr n })
  | .orl imm => (mem, { ap with rax := ap.rax % 2 ^ 32 ||| imm })
  | .movlEcx imm => (mem, { ap with rcx := imm })
  | .rdmsr => (mem, { ap with
      rax := ap.msr (ap.rcx % 2 ^ 32) % 2 ^ 32
      rdx := ap.msr (ap.rcx % 2 ^ 32) / 2 ^ 32 })
  | .wrmsr => (mem, { ap with
      msr := Function.update ap.msr (ap.rcx % 2 ^ 32)
        (ap.rax % 2 ^ 32 + 2 ^ 32 * (ap.rdx % 2 ^ 32)) })
  | .addw imm disp => (write mem (ap.at disp) 2 (read mem (ap.at disp) 2 + imm), ap)
  | .lgdtw disp => (mem, { ap with
      gdtr := ⟨read mem (ap.at disp + 2) 4 % 2 ^ 24, read mem (ap.at disp) 2⟩ })
  | .ljmp disp => (mem, { ap with
      long := true
      ip := read mem (ap.at disp) 2
      cs := read mem (ap.at disp + 2) 2 })
  | .movwSiAx => (mem, { ap with rax := setLow ap.rax ap.rsi })
  | .xorqRsi => (mem, { ap with rsi := 0 })
  | .movwAxSi => (mem, { ap with rsi := setLow ap.rsi ap.rax })
  | .movqRsp disp => (mem, { ap with rsp := read mem (ap.rsi + signExtend 64 disp) 8 })
  | .movqRbp => (mem, { ap with rbp := ap.rsp })
  | .movqRax disp => (mem, { ap with rax := read mem (ap.rsi + signExtend 64 disp) 8 })
  | .jmpqRax => (mem, { ap with ip := ap.rax })

def fetch (mem : Memory) (a : Nat) : List Nat := (List.range 6).map fun i => (mem (a + i)).toNat

def apStep (location : Nat) (x : Memory × Ap) : Option (Memory × Ap) := do
  let (i, len) ← if x.2.long then decode64 (fetch x.1 x.2.ip)
    else decode16 (fetch x.1 (location + x.2.ip))
  some (exec x.1 { x.2 with ip := x.2.ip + len } i)

def apSteps (location : Nat) : Nat → Memory × Ap → Option (Memory × Ap)
  | 0, x => some x
  | n + 1, x => (apStep location x).bind (apSteps location n)

/- struct ap_data lies behind the payload, the temporary GDT behind that. -/
namespace ApData
def pml4t : Nat := 0
def tmpGdtLimit : Nat := 4
def tmpGdtBase : Nat := 6
def startAddr : Nat := 0xa
def codeSelector : Nat := 0xc
def krnEntry : Nat := 0xe
def hasStarted : Nat := 0x16
def stack : Nat := 0x17
def size : Nat := 0x1f
end ApData

section Kernel

variable (location : Nat)

def payloadData : Nat := location + apInitPayloadLen

/-- Physical memory after cpu_init_ap_payload. -/
def cpuInitApPayload (pml4t entryPoint : Nat) (mem : Memory) : Memory :=
  let data := payloadData location
  let gdt := data + ApData.size
  let mem := storeBytes mem location apInitPayload
  let mem := write mem (location + 1) 2 data
  let mem := write mem gdt 8 0x000100000000ffff
  let mem := write mem (gdt + 8) 8 0x0000920000000000
  let mem := write mem (gdt + 16) 8 0x00af9a000000ffff
  let mem := write mem (data + ApData.pml4t) 4 pml4t
  let mem := write mem (data + ApData.startAddr) 2 location
  let mem := write mem (data + ApData.krnEntry) 8 entryPoint
  let mem := write mem (data + ApData.tmpGdtBase) 4 gdt
  let mem := write mem (data + ApData.tmpGdtLimit) 2 23
  let mem := write mem (data + ApData.codeSelector) 2 16
  write mem (data + ApData.hasStarted) 1 0

/-- The writes of _cpu_started, for the stack that malloc_pages returned. -/
def cpuStarted (stack : Nat) (mem : Memory) : Memory :=
  write (write mem (payloadData location + ApData.stack) 8 stack)
    (payloadData location + ApData.hasStarted) 1 0

end Kernel

end Gapxos
