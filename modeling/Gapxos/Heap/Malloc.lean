import Gapxos.Lib.Bytes

/-! The heap of mem_mgmt/heap.c. Headers and data lie side by side in the pages that
malloc_pages returns, and the lists are walked by the addresses of their cells. -/
namespace Gapxos
open Bytes

/-- Memory, and the ranges of it that are mapped: start and number of bytes. -/
structure Heap where
  mem : Memory
  held : List (Nat × Nat)

def Heap.mapped (h : Heap) (a : Nat) : Bool :=
  h.held.any fun r => r.1 ≤ a ∧ a + 8 ≤ r.1 + r.2

/-- Reads and writes of a word fault outside of what is mapped. -/
def Heap.load (h : Heap) (a : Nat) : Option Nat :=
  if h.mapped a then some (read h.mem a 8) else none

def Heap.store (h : Heap) (a w : Nat) : Option Heap :=
  if h.mapped a then some { h with mem := write h.mem a 8 w } else none

/- Both headers have three words: `next`, `pghdr` and `length` of a block, `next`, `free`
and `allocated` of a page. -/
def headerSize : Nat := 24

/-- There are 2^64 addresses: a walk that goes on for longer never ends. -/
def walkBound : Nat := 2 ^ 64 + 1

def Heap.cellOf (h : Heap) (target cell : Nat) : Nat → Option Nat
  | 0 => none
  | n + 1 => do
    let p ← h.load cell
    if p = target then some cell else h.cellOf target p n

def Heap.firstFit (h : Heap) (size block : Nat) : Nat → Option (Option Nat)
  | 0 => none
  | n + 1 =>
    if block = 0 then some none
    else do
      let length ← h.load (block + 16)
      if size < length then some (some block)
      else h.firstFit size (← h.load block) n

/- The loop over the pages. It ends with a block, on the right, or with the cell at the end
of the list. -/
def Heap.search (h : Heap) (size page : Nat) : Nat → Option (Nat ⊕ Nat)
  | 0 => none
  | n + 1 => do
    let pg ← h.load page
    if pg = 0 then some (.inl page)
    else match ← h.firstFit size (← h.load (pg + 8)) walkBound with
      | some block => some (.inr block)
      | none => h.search size pg n

def minAllocPages : Nat := 2

def pagesFor (size : Nat) : Nat :=
  max minAllocPages (size / 4096 + if size % 4096 = 0 then 0 else 1)

def Heap.hold (h : Heap) (base pages : Nat) : Heap :=
  if base = 0 then h else { h with held := (base, 4096 * pages) :: h.held }

/- The new page goes to the end of the list, with one free block. -/
def Heap.initPage (h : Heap) (page base : Nat) : Option (Nat × Heap) := do
  let h ← h.store page base
  let block := base + headerSize
  let h ← h.store block 0
  let h ← h.store (block + 16) (4096 - headerSize - headerSize)
  let h ← h.store (block + 8) base
  let h ← h.store base 0
  let h ← h.store (base + 8) block
  let h ← h.store (base + 16) 0
  some (block, h)

/- `root` is the address of heap_root, `base` what malloc_pages returns if it is called. -/
def findFree (root size base : Nat) (h : Heap) : Option (Nat × Heap) := do
  match ← h.search size root walkBound with
  | .inr block => some (block, h)
  | .inl page => (h.hold base (pagesFor size)).initPage page base

/-- The end of a free block becomes the allocation; `rest` bytes stay free. -/
def Heap.cut (h : Heap) (free pghdr size rest : Nat) : Option (Nat × Heap) := do
  let h ← h.store (free + 16) rest
  let allocated := free + headerSize + rest
  let h ← h.store allocated 0
  let h ← h.store (allocated + 8) pghdr
  let h ← h.store (allocated + 16) size
  let tail ← h.cellOf 0 (pghdr + 16) walkBound
  let h ← h.store tail allocated
  some (allocated + headerSize, h)

def Heap.takeWhole (h : Heap) (free pghdr : Nat) : Option (Nat × Heap) := do
  let parent ← h.cellOf free (pghdr + 8) walkBound
  let h ← h.store parent (← h.load free)
  let h ← h.store free 0
  let tail ← h.cellOf 0 (pghdr + 16) walkBound
  let h ← h.store tail free
  some (free + headerSize, h)

def malloc (root size base : Nat) (h : Heap) : Option (Nat × Heap) := do
  let (free, h) ← findFree root size base h
  let length ← h.load (free + 16)
  let pghdr ← h.load (free + 8)
  let need := (size + headerSize) % 2 ^ 64
  if need < length then h.cut free pghdr size (length - need) else h.takeWhole free pghdr

/- The loop of free. `parent` is the cell before `val`, and in the first pass still the one
of the allocated list that led to the block. -/
def Heap.giveBack (h : Heap) (blk parent val : Nat) : Nat → Option Heap
  | 0 => none
  | n + 1 => do
    let v ← h.load val
    if v = 0 then h.store val blk
    else
      let length ← h.load (v + 16)
      if (v + headerSize + length) % 2 ^ 64 = blk then
        h.store (v + 16) ((length + ((← h.load (blk + 16)) + headerSize)) % 2 ^ 64)
      else if (blk + headerSize + (← h.load (blk + 16))) % 2 ^ 64 = v then
        let h ← h.store parent blk
        let v ← h.load val
        let length ← h.load (v + 16)
        h.store (blk + 16) (((← h.load (blk + 16)) + (length + headerSize)) % 2 ^ 64)
      else h.giveBack blk val v n

def Heap.release (h : Heap) (pg : Nat) : Heap :=
  { h with held := h.held.filter fun r => r.1 ≠ pg }

def free (addr : Nat) (h : Heap) : Option Heap := do
  let blk := addr - headerSize
  let pg ← h.load (blk + 8)
  let parent ← h.cellOf blk (pg + 16) walkBound
  let h ← h.store parent (← h.load blk)
  let h ← h.giveBack blk parent (pg + 8) walkBound
  let allocated ← h.load (pg + 16)
  some (if allocated = 0 then h.release pg else h)

/-- free up to the call of free_pages: the page, what its allocated list begins with, and the
heap. -/
def freeBlock (addr : Nat) (h : Heap) : Option (Nat × Nat × Heap) := do
  let blk := addr - headerSize
  let pg ← h.load (blk + 8)
  let parent ← h.cellOf blk (pg + 16) walkBound
  let h ← h.store parent (← h.load blk)
  let h ← h.giveBack blk parent (pg + 8) walkBound
  let allocated ← h.load (pg + 16)
  some (pg, allocated, h)

theorem free_eq (addr : Nat) (h : Heap) : free addr h =
    (freeBlock addr h).map fun r => if r.2.1 = 0 then r.2.2.release r.1 else r.2.2 := by
  simp only [free, freeBlock, Option.bind_eq_bind, Option.map_bind, Function.comp_def,
    Option.map_some]

/- What is mapped changes by malloc_pages and free_pages alone. -/
section Held

variable {h h' : Heap}

theorem Heap.store_held {a w : Nat} (eq : h.store a w = some h') : h'.held = h.held := by
  unfold Heap.store at eq
  split at eq
  · cases eq
    rfl
  · cases eq

theorem Heap.initPage_held {page base block : Nat} (eq : h.initPage page base = some (block, h')) :
    h'.held = h.held := by
  simp only [Heap.initPage, Option.bind_eq_bind, Option.bind_eq_some_iff] at eq
  obtain ⟨h₁, eq₁, h₂, eq₂, h₃, eq₃, h₄, eq₄, h₅, eq₅, h₆, eq₆, h₇, eq₇, eq⟩ := eq
  cases eq
  rw [store_held eq₇, store_held eq₆, store_held eq₅, store_held eq₄, store_held eq₃,
    store_held eq₂, store_held eq₁]

theorem Heap.cut_held {free pghdr size rest p : Nat}
    (eq : h.cut free pghdr size rest = some (p, h')) : h'.held = h.held := by
  simp only [Heap.cut, Option.bind_eq_bind, Option.bind_eq_some_iff] at eq
  obtain ⟨h₁, eq₁, h₂, eq₂, h₃, eq₃, h₄, eq₄, _, _, h₅, eq₅, eq⟩ := eq
  cases eq
  rw [store_held eq₅, store_held eq₄, store_held eq₃, store_held eq₂, store_held eq₁]

theorem Heap.takeWhole_held {free pghdr p : Nat} (eq : h.takeWhole free pghdr = some (p, h')) :
    h'.held = h.held := by
  simp only [Heap.takeWhole, Option.bind_eq_bind, Option.bind_eq_some_iff] at eq
  obtain ⟨_, _, _, _, h₁, eq₁, h₂, eq₂, _, _, h₃, eq₃, eq⟩ := eq
  cases eq
  rw [store_held eq₃, store_held eq₂, store_held eq₁]

theorem Heap.giveBack_held {blk parent val n : Nat} (eq : h.giveBack blk parent val n = some h') :
    h'.held = h.held := by
  induction n generalizing parent val with
  | zero => cases eq
  | succ n ih =>
    simp only [Heap.giveBack, Option.bind_eq_bind, Option.bind_eq_some_iff] at eq
    obtain ⟨v, _, eq⟩ := eq
    split at eq
    · exact store_held eq
    · simp only [Option.bind_eq_some_iff] at eq
      obtain ⟨length, _, eq⟩ := eq
      split at eq
      · simp only [Option.bind_eq_some_iff] at eq
        obtain ⟨_, _, eq⟩ := eq
        exact store_held eq
      · simp only [Option.bind_eq_some_iff] at eq
        obtain ⟨_, _, eq⟩ := eq
        split at eq
        · simp only [Option.bind_eq_some_iff] at eq
          obtain ⟨h₁, eq₁, _, _, _, _, _, _, eq⟩ := eq
          rw [store_held eq, store_held eq₁]
        · exact ih eq

theorem freeBlock_held {addr pg a : Nat} (eq : freeBlock addr h = some (pg, a, h')) :
    h'.held = h.held := by
  simp only [freeBlock, Option.bind_eq_bind, Option.bind_eq_some_iff] at eq
  obtain ⟨_, _, _, _, _, _, h₁, eq₁, h₂, eq₂, _, _, eq⟩ := eq
  cases eq
  rw [Heap.giveBack_held eq₂, Heap.store_held eq₁]

theorem malloc_held {root size base p : Nat} {found : Nat ⊕ Nat}
    (eq : malloc root size base h = some (p, h'))
    (search : h.search size root walkBound = some found) :
    h'.held = (match found with
      | .inr _ => h
      | .inl _ => h.hold base (pagesFor size)).held := by
  simp only [malloc, findFree, search, Option.bind_eq_bind, Option.bind_eq_some_iff] at eq
  obtain ⟨⟨free, h₁⟩, eq₁, length, _, pghdr, _, eq⟩ := eq
  have last : h'.held = h₁.held := by
    dsimp only at eq
    split at eq
    · exact Heap.cut_held eq
    · exact Heap.takeWhole_held eq
  rw [last]
  obtain ⟨_, ⟨⟩, eq₁⟩ := eq₁
  cases found with
  | inr block =>
    cases eq₁
    rfl
  | inl page => exact Heap.initPage_held eq₁

end Held

end Gapxos
