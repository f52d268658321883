import Gapxos.Phys

/-! The page-table writer of vmm/paging.c and the walk the hardware makes over its tables. -/
namespace Gapxos

def pagePresent : Word := 0x1#64
def pageRw : Word := 0x2#64
def pageUser : Word := 0x4#64
def pageGlobal : Word := 0x100#64
def pageNx : Word := 0x8000000000000000#64
def pageCustomUsable : Word := 0x200#64

def maskRemove16u : Nat := 0xffffffffffff
def maskRemove12l : Word := 0xfffffffff000#64

structure PageFlags where
  write : Bool
  exec : Bool
  kernel : Bool
  usable : Bool
  present : Bool
deriving DecidableEq, Repr

/-- The frame number the code reads out of an entry: its mask keeps bits 12 to 47 only. -/
def frameOf (e : Word) : Nat := (e &&& maskRemove12l).toNat / 4096

/- One level of get_page_table_entry: a missing table is drawn from the PMM as it is,
the flags are OR-ed into the entry, and the entry's frame is the next table. -/
def nextTable (s : Phys) (table : Nat) (i : Fin 512) (flagsAdd : Word) : Phys × Nat :=
  let s := if present (s.mem table i) then s
    else
      let (page, s) := pmmAllocPage s
      s.write table i (BitVec.ofNat 64 page ||| pagePresent)
  let s := s.write table i (s.mem table i ||| flagsAdd)
  (s, frameOf (s.mem table i))

/-- Returns the table and the index of the leaf entry for `vaddr`. -/
def getPageTableEntry (s : Phys) (pml4t vaddr : Nat) (flagsAdd : Word) : Phys × Nat × Fin 512 :=
  let i := Fin.ofNat 512 (vaddr / 0x8000000000)
  let vaddr := vaddr % 0x8000000000
  let (s, pdpt) := nextTable s (pml4t / 4096) i flagsAdd
  let i := Fin.ofNat 512 (vaddr / 0x40000000)
  let vaddr := vaddr % 0x40000000
  let (s, pdt) := nextTable s pdpt i flagsAdd
  let i := Fin.ofNat 512 (vaddr / 0x200000)
  let vaddr := vaddr % 0x200000
  let (s, pt) := nextTable s pdt i flagsAdd
  (s, pt, Fin.ofNat 512 (vaddr / 0x1000))

def tableFlags (flags : PageFlags) : Word :=
  (if flags.present then pagePresent else 0) ||| (if flags.write then pageRw else 0) |||
    (if flags.kernel then pageGlobal else pageUser) |||
    (if flags.usable then pageCustomUsable else 0)

def leafEntry (paddr : Nat) (flags : PageFlags) : Word :=
  (BitVec.ofNat 64 paddr &&& (maskRemove12l &&& ~~~pageNx)) ||| tableFlags flags |||
    (if flags.exec then 0 else pageNx)

/- The invlpg at the end has no effect on memory. -/
def setPage (s : Phys) (pml4t vaddr paddr : Nat) (flags : PageFlags) : Phys :=
  let (s, pt, i) := getPageTableEntry s pml4t (vaddr &&& maskRemove16u) (tableFlags flags)
  s.write pt i (leafEntry paddr flags)

def freePage (s : Phys) (pml4t vaddr : Nat) : Phys :=
  let (s, pt, i) := getPageTableEntry s pml4t (vaddr &&& maskRemove16u) 0
  let s := if s.mem pt i &&& pageCustomUsable ≠ 0
    then pmmFreePage s (s.mem pt i &&& maskRemove12l).toNat else s
  s.write pt i 0

/- The hardware side: the four indices of an address and the entries met on its walk. -/
def path (v : Nat) : List (Fin 512) :=
  [Fin.ofNat 512 (v / 2 ^ 39), Fin.ofNat 512 (v / 2 ^ 30), Fin.ofNat 512 (v / 2 ^ 21),
    Fin.ofNat 512 (v / 2 ^ 12)]

/-- The virtual page an address lies in, as its 36-bit number. -/
def pageOf (v : Nat) : Nat := v / 4096 % 2 ^ 36

/-- The frame that the entries of a walk give page `v`; large pages end the walk early. -/
def translate (v : Nat) : List Word → Option Nat
  | [_, e] => if present e && large e then some (hwFrame e / 2 ^ 18 * 2 ^ 18 + v / 4096 % 2 ^ 18)
      else none
  | [_, _, e] => if present e && large e then some (hwFrame e / 2 ^ 9 * 2 ^ 9 + v / 4096 % 2 ^ 9)
      else none
  | [_, _, _, e] => if present e then some (hwFrame e) else none
  | _ => none

/-- The hardware walk of `v` from the table frame `cr3`, as a frame number. -/
def walk (m : Mem) (cr3 v : Nat) : Option Nat :=
  translate v (Radix.trace child m cr3 (path v))

theorem path_eq_iff (v w : Nat) : path v = path w ↔ pageOf v = pageOf w := by
  simp only [path, pageOf, List.cons.injEq, Fin.ext_iff, Fin.ofNat, and_true]
  omega

theorem walk_samePage {m : Mem} {cr3 v w : Nat} (same : pageOf w = pageOf v) :
    walk m cr3 w = walk m cr3 v := by
  have nine : w / 4096 % 2 ^ 9 = v / 4096 % 2 ^ 9 := by
    unfold pageOf at same
    omega
  have eighteen : w / 4096 % 2 ^ 18 = v / 4096 % 2 ^ 18 := by
    unfold pageOf at same
    omega
  rw [walk, walk, (path_eq_iff w v).mpr same]
  unfold translate
  rw [nine, eighteen]

theorem path_length (v : Nat) : (path v).length = 4 := rfl

theorem newEntry_child {k : Nat} {fl : Word} (flag : FlagWord fl) (bound : k < 2 ^ 40) :
    child (BitVec.ofNat 64 (4096 * k) ||| pagePresent ||| fl) = some k := by
  have frame : hwFrame (BitVec.ofNat 64 (4096 * k) ||| pagePresent) = k := by
    rw [hwFrame_or (by decide), hwFrame_page bound]
  have there : present (BitVec.ofNat 64 (4096 * k) ||| pagePresent) = true := by
    simp [present, pagePresent]
  have small : large (BitVec.ofNat 64 (4096 * k) ||| pagePresent) = false := by
    unfold large
    rw [BitVec.getLsbD_or, page_low_bit k (by omega)]
    decide
  rw [child_or flag there, child_eq_some]
  exact ⟨there, small, frame⟩

theorem pageRw_flagWord : FlagWord pageRw := ⟨by decide, by decide⟩

theorem frameOf_eq (e : Word) : frameOf e = hwFrame e % 2 ^ 36 := by
  have mask : maskRemove12l.toNat / 2 ^ 12 = 2 ^ 36 - 1 := by decide
  rw [frameOf, BitVec.toNat_and, show (4096 : Nat) = 2 ^ 12 from rfl, Nat.and_div_two_pow, mask,
    Nat.and_two_pow_sub_one_eq_mod, hwFrame]
  omega

theorem tableFlags_flagWord : ∀ flags : PageFlags, FlagWord (tableFlags flags) := by
  rintro ⟨w, x, k, u, p⟩
  constructor <;> revert w x k u p <;> decide

theorem tableFlags_bits : ∀ flags : PageFlags,
    present (tableFlags flags) = flags.present ∧ writable (tableFlags flags) = flags.write ∧
    userBit (tableFlags flags) = !flags.kernel ∧ noExec (tableFlags flags) = false := by
  rintro ⟨w, x, k, u, p⟩
  revert w x k u p
  decide

theorem leafEntry_bits (paddr : Nat) (flags : PageFlags) :
    present (leafEntry paddr flags) = flags.present ∧
    writable (leafEntry paddr flags) = flags.write ∧
    userBit (leafEntry paddr flags) = !flags.kernel ∧
    noExec (leafEntry paddr flags) = !flags.exec := by
  have bits := tableFlags_bits flags
  have mask : maskRemove12l &&& ~~~pageNx = 0xfffffffff000#64 := by decide
  simp only [present, writable, userBit, noExec] at bits ⊢
  simp only [leafEntry, mask, BitVec.getLsbD_or, BitVec.getLsbD_and, bits]
  cases flags.exec <;> simp [pageNx]

theorem leafEntry_frame (paddr : Nat) (flags : PageFlags) :
    hwFrame (leafEntry paddr flags) = paddr / 4096 % 2 ^ 36 := by
  have nx : hwFrame (if flags.exec then 0 else pageNx) = 0 := by split <;> decide
  have mask : maskRemove12l &&& ~~~pageNx = maskRemove12l := by decide
  have masked : hwFrame (BitVec.ofNat 64 paddr &&& maskRemove12l) =
      frameOf (BitVec.ofNat 64 paddr) % 2 ^ 40 := rfl
  rw [leafEntry, hwFrame_or nx, hwFrame_or (tableFlags_flagWord flags).frame, mask, masked,
    frameOf_eq, hwFrame, BitVec.toNat_ofNat]
  omega

theorem and_maskRemove16u (v : Nat) : v &&& maskRemove16u = v % 2 ^ 48 :=
  Nat.and_two_pow_sub_one_eq_mod v 48

theorem path_mask (v : Nat) : path (v &&& maskRemove16u) = path v := by
  rw [path_eq_iff, and_maskRemove16u, pageOf, pageOf]
  omega

end Gapxos
