import Gapxos.Lib.Bytes
import Gapxos.Vmm.Walk

/-! The page tables the loader builds, loader.c. It runs in 32-bit mode on physical memory,
so a pointer is the address of a byte. -/
namespace Gapxos
open Bytes Radix

def zeroMemory (mem : Memory) (start : Nat) : Nat → Memory
  | 0 => mem
  | len + 1 => zeroMemory (write mem start 1 0) (start + 1) len

def word (mem : Memory) (a : Nat) : Word := BitVec.ofNat 64 (read mem a 8)

def setWord (mem : Memory) (a : Nat) (w : Word) : Memory := write mem a 8 w.toNat

def loaderPageSize : Word := 0x80#64

structure Loader where
  mem : Memory
  pml4t : Nat
  pageFreePoint : Nat

def loaderEntry (addr : Nat) : Word := BitVec.ofNat 64 (addr % 2 ^ 32) ||| pagePresent ||| pageRw

/- One level of add_page: a missing table is taken at page_free_point, and the entry's
upper bits are the next table. -/
def Loader.nextTable (s : Loader) (entry : Nat) : Loader × Nat :=
  let s := if present (word s.mem entry) then s
    else { s with
      mem := setWord s.mem entry (loaderEntry s.pageFreePoint)
      pageFreePoint := s.pageFreePoint + 0x1000 }
  (s, (word s.mem entry &&& 0xfffffffffffff000#64).toNat % 2 ^ 32)

def Loader.addPage (s : Loader) (virtAddr physAddr : Nat) (exec : Bool) : Loader :=
  let virtAddr := virtAddr &&& 0xffffffffffff
  let pml4Idx := virtAddr / 0x8000000000
  let virtAddr := virtAddr &&& 0x7fffffffff
  let pdpIdx := virtAddr / 0x40000000
  let virtAddr := virtAddr &&& 0x3fffffff
  let pdIdx := virtAddr / 0x200000
  let virtAddr := virtAddr &&& 0x1fffff
  let pIdx := virtAddr / 0x1000
  let (s, pdpt) := s.nextTable (s.pml4t + 8 * pml4Idx)
  let (s, pdt) := s.nextTable (pdpt + 8 * pdpIdx)
  let (s, pt) := s.nextTable (pdt + 8 * pdIdx)
  let entry := pt + 8 * pIdx
  let mem := setWord s.mem entry (BitVec.ofNat 64 physAddr ||| pagePresent ||| pageRw)
  let leaf := word mem entry
  { s with mem := setWord mem entry (if exec then leaf &&& ~~~pageNx else leaf ||| pageNx) }

def identityEntry (addr : Nat) : Word :=
  BitVec.ofNat 64 addr ||| pagePresent ||| pageRw ||| loaderPageSize

/-- The first 8 MiB are mapped to themselves. -/
def initPageStructure (mem : Memory) (startMem : Nat) : Loader :=
  let mem := zeroMemory mem startMem 1048576
  let pml4t := startMem
  let pdpt := startMem + 0x1000
  let pdt := startMem + 0x2000
  let mem := setWord mem pml4t (loaderEntry pdpt)
  let mem := setWord mem pdpt (loaderEntry pdt)
  let mem := setWord mem pdt (identityEntry 0x000000)
  let mem := setWord mem (pdt + 8) (identityEntry 0x200000)
  let mem := setWord mem (pdt + 16) (identityEntry 0x400000)
  let mem := setWord mem (pdt + 24) (identityEntry 0x600000)
  ⟨mem, pml4t, startMem + 0x3000⟩

/-- Memory as the frames of words a walk goes through. -/
def frames (mem : Memory) : Mem := fun f i => word mem (4096 * f + 8 * i)

section Memory

variable {mem : Memory} {a b n x : Nat} {w : Word}

theorem zeroMemory_apply (mem : Memory) (a n x : Nat) :
    zeroMemory mem a n x = if a ≤ x ∧ x < a + n then 0 else mem x := by
  induction n generalizing mem a with
  | zero => rw [zeroMemory, if_neg (by omega)]
  | succ n ih =>
    rw [zeroMemory, ih, write]
    by_cases first : x = a
    · rw [if_neg (by omega), if_pos (by omega), if_pos (by omega), Nat.zero_div]
      rfl
    · by_cases inside : a ≤ x ∧ x < a + (n + 1)
      · rw [if_pos (by omega), if_pos inside]
      · rw [if_neg (by omega), if_neg (by omega), if_neg inside]

theorem setWord_apply (off : x < a ∨ a + 8 ≤ x) : setWord mem a w x = mem x := by
  rw [setWord, write, if_neg (by omega)]

theorem word_setWord_same (mem : Memory) (a : Nat) (w : Word) : word (setWord mem a w) a = w := by
  have fits : w.toNat < 256 ^ 8 := w.isLt
  rw [word, setWord, read_write_same, Nat.mod_eq_of_lt fits, BitVec.ofNat_toNat,
    BitVec.setWidth_eq]

theorem word_setWord_other (off : a + 8 ≤ b ∨ b + 8 ≤ a) :
    word (setWord mem a w) b = word mem b := by
  rw [word, setWord, read_write_other off, word]

theorem frames_setWord (mem : Memory) (f : Nat) (i : Fin 512) (w : Word) :
    frames (setWord mem (4096 * f + 8 * i) w) = store (frames mem) f i w := by
  funext g j
  by_cases hit : g = f ∧ j = i
  · rw [hit.1, hit.2, store_same, frames, word_setWord_same]
  · rw [store_other hit, frames, frames]
    refine word_setWord_other ?_
    have := i.isLt
    have := j.isLt
    by_cases same : g = f
    · have apart : j.val ≠ i.val := fun eq => hit ⟨same, Fin.ext eq⟩
      omega
    · omega

theorem frames_congr {mem' : Memory} {f : Nat}
    (same : ∀ x, 4096 * f ≤ x → x < 4096 * f + 4096 → mem' x = mem x) :
    frames mem' f = frames mem f := by
  funext i
  have := i.isLt
  rw [frames, frames, word, word, read_congr fun x low high => same x (by omega) (by omega)]

theorem frames_zero {f : Nat} (zero : ∀ x, 4096 * f ≤ x → x < 4096 * f + 4096 → mem x = 0) :
    frames mem f = fun _ => 0 := by
  have blank : ∀ n a, (∀ x, a ≤ x → x < a + n → mem x = 0) → read mem a n = 0 := by
    intro n
    induction n with
    | zero => intros; rfl
    | succ n ih =>
      intro a none
      rw [Bytes.read, none a (by omega) (by omega),
        ih (a + 1) fun x low high => none x (by omega) (by omega)]
      rfl
  funext i
  have := i.isLt
  rw [frames, word, blank 8 _ fun x low high => zero x (by omega) (by omega)]
  rfl

end Memory

end Gapxos
