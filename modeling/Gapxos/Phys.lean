import Mathlib.Data.Nat.Bitwise
import Gapxos.Lib.Radix

/-! Physical memory and the stack of free pages. A pointer into a frame is taken to
reach that frame: through the loader's identity map while `_init_paging` runs, through
the direct map at PHYSICAL_MAP_OFFSET afterwards. -/
namespace Gapxos

abbrev Word := BitVec 64

/-- The 512 words of each 4096-byte frame, by frame number. -/
abbrev Mem := Nat → Fin 512 → Word

/- Named, so that a literal of `Fin 512` is one term in all modules. -/
instance words_neZero : NeZero 512 := ⟨by decide⟩

/- `freePages` is `_free_pages[0 .. _free_index)`, bottom of the stack first. The array
lives in a region of its own. `misses` is history only: the calls of pmm_alloc_page that
found the stack empty. -/
structure Phys where
  mem : Mem
  freePages : List Nat
  misses : Nat

def Phys.write (s : Phys) (f : Nat) (i : Fin 512) (e : Word) : Phys :=
  { s with mem := Radix.store s.mem f i e }

@[simp] theorem Phys.write_mem (s : Phys) (f : Nat) (i : Fin 512) (e : Word) :
    (s.write f i e).mem = Radix.store s.mem f i e := rfl

@[simp] theorem Phys.write_freePages (s : Phys) (f : Nat) (i : Fin 512) (e : Word) :
    (s.write f i e).freePages = s.freePages := rfl

@[simp] theorem Phys.write_misses (s : Phys) (f : Nat) (i : Fin 512) (e : Word) :
    (s.write f i e).misses = s.misses := rfl

/-- The address 0 stands for an empty stack. -/
def pmmAllocPage (s : Phys) : Nat × Phys :=
  match s.freePages.getLast? with
  | some page => (page, { s with freePages := s.freePages.dropLast })
  | none => (0, { s with misses := s.misses + 1 })

def pmmFreePage (s : Phys) (addr : Nat) : Phys :=
  { s with freePages := s.freePages ++ [addr] }

@[simp] theorem pmmAllocPage_mem (s : Phys) : (pmmAllocPage s).2.mem = s.mem := by
  unfold pmmAllocPage
  split <;> rfl

theorem pmmAllocPage_empty {s : Phys} (h : s.freePages = []) :
    pmmAllocPage s = (0, { s with misses := s.misses + 1 }) := by
  simp [pmmAllocPage, h]

/- Bits of a page-table entry, as the x86-64 walker reads them. -/
def present (e : Word) : Bool := e.getLsbD 0
def writable (e : Word) : Bool := e.getLsbD 1
def userBit (e : Word) : Bool := e.getLsbD 2
def large (e : Word) : Bool := e.getLsbD 7
def noExec (e : Word) : Bool := e.getLsbD 63

def hwFrame (e : Word) : Nat := e.toNat / 4096 % 2 ^ 40

theorem hwFrame_or {e fl : Word} (h : hwFrame fl = 0) : hwFrame (e ||| fl) = hwFrame e := by
  simp only [hwFrame, BitVec.toNat_or, show (4096 : Nat) = 2 ^ 12 from rfl, Nat.or_div_two_pow,
    Nat.or_mod_two_pow] at h ⊢
  rw [h, Nat.or_zero]

theorem hwFrame_page {k : Nat} (h : k < 2 ^ 40) : hwFrame (BitVec.ofNat 64 (4096 * k)) = k := by
  rw [hwFrame, BitVec.toNat_ofNat]
  omega

theorem page_low_bit (k : Nat) {i : Nat} (h : i < 12) :
    (BitVec.ofNat 64 (4096 * k)).getLsbD i = false := by
  rw [BitVec.getLsbD_ofNat, show 4096 * k = 2 ^ 12 * k from rfl, Nat.testBit_two_pow_mul]
  simp [h]

/-- The next table, as the walker sees it: a present entry that is no large page. -/
def child (e : Word) : Option Nat :=
  if present e && !large e then some (hwFrame e) else none

theorem child_eq_some {e : Word} {f : Nat} :
    child e = some f ↔ present e = true ∧ large e = false ∧ hwFrame e = f := by
  unfold child
  split
  · rename_i h
    simp only [Bool.and_eq_true, Bool.not_eq_true'] at h
    simp [h.1, h.2]
  · rename_i h
    simp only [Bool.and_eq_true, Bool.not_eq_true', not_and, Bool.not_eq_false] at h
    constructor
    · intro impossible; cases impossible
    · rintro ⟨hp, hl, _⟩
      simp [h hp] at hl

theorem child_absent {e : Word} (h : present e = false) : child e = none := by
  simp [child, h]

/-- Bits that are no part of a frame number and leave presence and size alone. -/
structure FlagWord (fl : Word) : Prop where
  frame : hwFrame fl = 0
  size : large fl = false

theorem child_or {e fl : Word} (flag : FlagWord fl) (h : present e = true) :
    child (e ||| fl) = child e := by
  have hp : present (e ||| fl) = true := by simp [present] at h ⊢; simp [h]
  have hl : large (e ||| fl) = large e := by
    have size := flag.size
    simp only [large, BitVec.getLsbD_or] at size ⊢
    rw [size, Bool.or_false]
  simp only [child, hp, hl, h, hwFrame_or flag.frame]

end Gapxos
