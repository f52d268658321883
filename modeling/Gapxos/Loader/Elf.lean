import Gapxos.Loader.AddPage

/-! The loader's reading of an ELF64 module, load_elf64_module. Everything is read from
memory when the code reads it, while the segments are written there. -/
namespace Gapxos
open Bytes

/- What the tag loop of lmain found. -/
structure BootMap where
  memoryMap : Nat
  mmapEntryCount : Nat
  minElf64Addr : Nat

def pageAlign (range : Nat × Nat) : Nat × Nat :=
  let pad := range.1 % 0x1000
  if pad ≠ 0 then
    ((range.1 + (0x1000 - pad)) % 2 ^ 64, (range.2 + 2 ^ 64 - (0x1000 - pad)) % 2 ^ 64)
  else range

/-- Where an entry of the memory map has space; `diff` is an int. -/
def mmapOrigin (mem : Memory) (minElf64Addr size entry : Nat) : Option Nat :=
  if read mem (entry + 16) 4 = 1 then
    let base := read mem entry 8
    let length := read mem (entry + 8) 8
    let diff := ((BitVec.ofNat 32 (minElf64Addr - base)).signExtend 64).toNat
    if base < minElf64Addr ∧ length < diff then none
    else
      let range := pageAlign (if base < minElf64Addr
        then ((base + diff) % 2 ^ 64, (length + 2 ^ 64 - diff) % 2 ^ 64) else (base, length))
      if size ≤ range.2 then some (range.1 % 2 ^ 32) else none
  else none

/-- The first entry with space; 0 if there is none. -/
def findElf64PhysOrigin (mem : Memory) (map : BootMap) (size : Nat) : Nat :=
  ((List.range map.mmapEntryCount).findSome? fun i =>
    mmapOrigin mem map.minElf64Addr size (map.memoryMap + 24 * i)).getD 0

def eType (mem : Memory) (ehdr : Nat) : Nat := read mem (ehdr + 16) 2
def eEntry (mem : Memory) (ehdr : Nat) : Nat := read mem (ehdr + 24) 8
def ePhoff (mem : Memory) (ehdr : Nat) : Nat := read mem (ehdr + 32) 8
def ePhentsize (mem : Memory) (ehdr : Nat) : Nat := read mem (ehdr + 54) 2
def ePhnum (mem : Memory) (ehdr : Nat) : Nat := read mem (ehdr + 56) 2

/-- The checks at the beginning: magic number, 64 bits, little-endian, SysV ABI, executable. -/
def headerOk (mem : Memory) (ehdr : Nat) : Bool :=
  mem ehdr == 0x7f && mem (ehdr + 1) == 0x45 && mem (ehdr + 2) == 0x4c && mem (ehdr + 3) == 0x46 &&
    mem (ehdr + 4) == 2 && mem (ehdr + 5) == 1 && mem (ehdr + 7) == 0 && mem (ehdr + 8) == 0 &&
    eType mem ehdr == 2

structure Phdr where
  type : Nat
  flags : Nat
  offset : Nat
  vaddr : Nat
  filesz : Nat
  memsz : Nat
deriving DecidableEq

def phdrAt (mem : Memory) (a : Nat) : Phdr :=
  ⟨read mem a 4, read mem (a + 4) 4, read mem (a + 8) 8, read mem (a + 16) 8, read mem (a + 32) 8,
    read mem (a + 40) 8⟩

def Phdr.load (p : Phdr) : Bool := p.type == 1

def firstPhdr (mem : Memory) (ehdr : Nat) : Nat := (ehdr + ePhoff mem ehdr) % 2 ^ 32

/-- The lowest start and the highest end so far, and one more header. -/
def widen (span : Nat × Nat) (p : Phdr) : Nat × Nat :=
  if p.load then
    let stop := (p.vaddr + p.memsz) % 2 ^ 64
    (if span.1 < p.vaddr then span.1 else p.vaddr, if span.2 > stop then span.2 else stop)
  else span

/-- The first pass: the size of the range that has all segments. -/
def spanSize (mem : Memory) (ehdr : Nat) : Nat :=
  let span := (List.range' 0 (ePhnum mem ehdr)).foldl (fun span i =>
    widen span (phdrAt mem ((firstPhdr mem ehdr + i * ePhentsize mem ehdr) % 2 ^ 32)))
    (2 ^ 64 - 1, 0)
  (span.2 + 2 ^ 64 - span.1) % 2 ^ 64

/- The loop over the pages of a segment, from `4096 * page` on. Its counter is an int: after
2^19 passes it is negative, and the comparison is one of unsigned numbers. -/
def mapSegment (phdr physLocation : Nat) : Nat → Nat → Loader → Loader
  | 0, _, s => s
  | n + 1, page, s =>
    let p := phdrAt s.mem phdr
    if 4096 * page < p.memsz then
      mapSegment phdr physLocation n (page + 1)
        (s.addPage ((p.vaddr + 4096 * page) % 2 ^ 64) (physLocation + 4096 * page)
          (p.flags % 2 == 1))
    else s

def loadSegment (modStart phdr physLocation : Nat) (s : Loader) : Loader :=
  let p := phdrAt s.mem phdr
  let src := (modStart + p.offset) % 2 ^ 32
  let mem := zeroMemory s.mem physLocation (p.memsz % 2 ^ 32)
  let mem := memcpy mem physLocation src ((phdrAt mem phdr).filesz % 2 ^ 32)
  mapSegment phdr physLocation (2 ^ 19) 0 { s with mem }

/- The second pass. A count of 16 bits ends it after 2^16 passes at the latest. -/
def loadSegments (ehdr : Nat) : Nat → Nat → Nat → Nat → Loader → Loader
  | 0, _, _, _, s => s
  | n + 1, i, phdr, physLocation, s =>
    if i < ePhnum s.mem ehdr then
      if (phdrAt s.mem phdr).load then
        let s := loadSegment ehdr phdr physLocation s
        loadSegments ehdr n (i + 1) ((phdr + ePhentsize s.mem ehdr) % 2 ^ 32)
          ((physLocation + (phdrAt s.mem phdr).memsz) % 2 ^ 32) s
      else
        loadSegments ehdr n (i + 1) ((phdr + ePhentsize s.mem ehdr) % 2 ^ 32) physLocation s
    else s

structure Loaded where
  entry : Nat
  loader : Loader
  loadStart : Nat
  loadEnd : Nat

/-- What load_elf64_module returns; nothing for a module it refuses. -/
def loadElf64Module (map : BootMap) (modStart : Nat) (s : Loader) : Option Loaded :=
  if headerOk s.mem modStart then
    let size := spanSize s.mem modStart
    let physLocation := findElf64PhysOrigin s.mem map size
    let out := loadSegments modStart (2 ^ 16) 0 (firstPhdr s.mem modStart) physLocation s
    some ⟨eEntry out.mem modStart, out, physLocation, (physLocation + size) % 2 ^ 32⟩
  else none

end Gapxos
