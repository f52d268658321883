import Gapxos.Lib.Bytes

/-! The GDT of gdt.c: a table in memory that malloc gave, twice as large whenever it is full. -/
namespace Gapxos
open Bytes

/-- The block that malloc gives, and what malloc and free do to memory. -/
structure Alloc where
  block : Nat
  malloc : Memory → Memory
  free : Memory → Memory

structure GdtEntry where
  base : Nat
  limit : Nat
  type : Nat

structure Gdtr where
  base : Nat
  limit : Nat
  deriving DecidableEq

/- Memory, the static variables and what lgdt loaded last. -/
structure Gdt where
  mem : Memory
  base : Nat
  entries : Nat
  allocatedSize : Nat
  kernCodeSeg : Nat
  userCodeSeg : Nat
  gdtr : Gdtr

def gdtEntrySize : Nat := 8

/-- The limit goes through a word of 16 bits. The far return to the code segment reads the new
table and is left out. -/
def reloadGdt (base limit : Nat) : Gdtr := ⟨base, limit % 2 ^ 16⟩

def GdtEntry.rejected (e : GdtEntry) : Bool := 65536 < e.limit ∧ e.limit % 4096 ≠ 4095

/-- `_gdt_entries++`, and a larger table if there was no room left. -/
def countEntry (a : Alloc) (s : Gdt) : Gdt :=
  let counted := { s with entries := (s.entries + 1) % 2 ^ 64 }
  if s.allocatedSize / gdtEntrySize = s.entries then
    let size := s.allocatedSize * 2 % 2 ^ 64
    { counted with
      allocatedSize := size
      mem := a.free (memcpy (a.malloc s.mem) a.block s.base (size / 2))
      gdtr := reloadGdt a.block (counted.entries * gdtEntrySize % 2 ^ 64)
      base := a.block }
  else counted

def descriptor (e : GdtEntry) (code64 : Nat) : List (BitVec 8) :=
  let large := 65536 < e.limit
  let limit := if large then e.limit / 2 ^ 12 else e.limit
  let flags : BitVec 8 := (if code64 ≠ 0 then 0x20 else 0x00) ||| (if large then 0x80 else 0x00)
  [.ofNat 8 limit, .ofNat 8 (limit / 2 ^ 8), .ofNat 8 e.base, .ofNat 8 (e.base / 2 ^ 8),
    .ofNat 8 (e.base / 2 ^ 16), .ofNat 8 e.type, flags ||| .ofNat 8 (limit / 2 ^ 16 % 16),
    .ofNat 8 (e.base / 2 ^ 24)]

def storeBytes (mem : Memory) (a : Nat) (bytes : List (BitVec 8)) : Memory := fun x =>
  if a ≤ x ∧ x < a + bytes.length then bytes.getD (x - a) 0 else mem x

def addEntry (a : Alloc) (e : GdtEntry) (code64 : Nat) (s : Gdt) : Nat × Gdt :=
  if e.rejected then (0, s)
  else
    let s := countEntry a s
    let last := (s.entries + (2 ^ 64 - 1)) % 2 ^ 64
    let target := (s.base + last * gdtEntrySize) % 2 ^ 64
    (last * gdtEntrySize % 2 ^ 64, { s with mem := storeBytes s.mem target (descriptor e code64) })

/-- The statics as they are before gdt_init. -/
def Gdt.initial (mem : Memory) (gdtr : Gdtr) : Gdt := ⟨mem, 0, 0, 32, 0, 0, gdtr⟩

/-- gdt_init, with the selectors that its calls of _add_entry gave back. -/
def gdtInit (table : Alloc) (calls : Fin 5 → Alloc) (s : Gdt) : List Nat × Gdt :=
  let s := { s with mem := table.malloc s.mem, base := table.block }
  let (null, s) := addEntry (calls 0) ⟨0, 0, 0⟩ 0 s
  let (kernData, s) := addEntry (calls 1) ⟨0, 0, 0b10010010⟩ 0 s
  let (kernCode, s) := addEntry (calls 2) ⟨0, 0, 0b10011010⟩ 1 s
  let s := { s with kernCodeSeg := kernCode }
  let (userData, s) := addEntry (calls 3) ⟨0, 0, 0b11110010⟩ 0 s
  let (userCode, s) := addEntry (calls 4) ⟨0, 0, 0b11111010⟩ 1 s
  let s := { s with
    userCodeSeg := userCode
    gdtr := reloadGdt s.base (s.entries * gdtEntrySize % 2 ^ 64) }
  ([null, kernData, kernCode, userData, userCode], s)

/- The size of a TSS and the places of `rsp0` and `iopb_offset` in it. -/
def tssSize : Nat := 104

def gdtAddTss (tss table : Alloc) (intStack : Nat) (s : Gdt) : Nat × Gdt :=
  let mem := write (tss.malloc s.mem) (tss.block + 4) 8 intStack
  let mem := write mem (tss.block + 102) 2 tssSize
  addEntry table ⟨tss.block, tssSize - 1, 0b10001001⟩ 0 { s with mem := mem }

end Gapxos
