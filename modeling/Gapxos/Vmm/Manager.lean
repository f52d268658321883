import Gapxos.Vmm.Avl

/-! The memory manager of vmm/mem_mgmt.c: a tree of address blocks, the page tables behind
it and a lock. A call on a locked manager never comes back. -/
namespace Gapxos
open SearchTree

structure MemoryManager where
  tree : AvlTree
  pml4t : Nat
  lock : Bool

variable {σ : Type} (src : NodeSource σ)

def createMgr (addrStart pageCount : Nat) (st : σ × Phys) : Option (MemoryManager × σ × Phys) :=
  (insertNode src addrStart pageCount .nil st).map fun r => (⟨r.1, 0, false⟩, r.2)

/-- The pages behind the request go back into the tree as a block of their own. -/
def insertRest (n : AvlNode) (pageCount : Nat) (t : AvlTree) (st : σ × Phys) :
    Option (AvlTree × σ × Phys) :=
  let pagesDiff := n.pageCount - pageCount
  if pagesDiff ≠ 0 then
    insertNode src ((n.addr + pageCount * 4096) % 2 ^ 64) pagesDiff t st
  else some (t, st)

/-- The answer is the address of the block, 0 if there is none. -/
def allocVirt (m : MemoryManager) (pageCount : Nat) (st : σ × Phys) :
    Option (Nat × MemoryManager × σ × Phys) :=
  if m.tree = .nil then none
  else match avlMinSize pageCount m.tree with
    | none => some (0, m, st)
    | some n => (insertRest src n pageCount m.tree st).map fun r =>
        (n.addr, { m with
          tree := writeNode n.ptr (fun v => { v with pageCount, allocated := true }) r.1 }, r.2)

/-- One pass of the loop of malloc_pages: the page is drawn before its tables are. -/
def mapFreshPage (pml4t addr : Nat) (flags : PageFlags) (phys : Phys) (i : Nat) : Phys :=
  let (page, phys) := pmmAllocPage phys
  setPage phys pml4t ((addr + i * 0x1000) % 2 ^ 64) page flags

def mapFresh (phys : Phys) (pml4t addr pageCount : Nat) (flags : PageFlags) : Phys :=
  (List.range pageCount).foldl (mapFreshPage pml4t addr flags) phys

def mallocFlags (write exec kernel : Bool) : PageFlags :=
  { write, exec, kernel, usable := true, present := true }

def mallocPages (m : MemoryManager) (st : σ × Phys) (pageCount : Nat)
    (write exec kernel : Bool) : Option (Nat × MemoryManager × σ × Phys) :=
  if pageCount = 0 then some (0, m, st)
  else if m.lock then none
  else (allocVirt src { m with lock := true } pageCount st).map fun r =>
    (r.1, { r.2.1 with lock := false }, r.2.2.1,
      mapFresh r.2.2.2 m.pml4t r.1 pageCount (mallocFlags write exec kernel))

def mapRange (phys : Phys) (pml4t addr mapAddr pageCount : Nat) (flags : PageFlags) : Phys :=
  (List.range pageCount).foldl (fun phys i =>
    setPage phys pml4t ((addr + i * 0x1000) % 2 ^ 64) ((mapAddr + i * 0x1000) % 2 ^ 64) flags) phys

def mapFlags (kernel : Bool) : PageFlags :=
  { write := false, exec := false, kernel, usable := false, present := true }

def mapMemory (m : MemoryManager) (st : σ × Phys) (mapAddr pageCount : Nat) (kernel : Bool) :
    Option (Nat × MemoryManager × σ × Phys) :=
  if pageCount = 0 ∨ mapAddr % 0x1000 ≠ 0 then some (0, m, st)
  else if m.lock then none
  else (allocVirt src { m with lock := true } pageCount st).map fun r =>
    (r.1, { r.2.1 with lock := false }, r.2.2.1,
      mapRange r.2.2.2 m.pml4t r.1 mapAddr pageCount (mapFlags kernel))

/-- What a pointer to a node in the tree shows; a freed node shows nothing. -/
def nodeAt (ptr : Nat) (t : AvlTree) : Option AvlNode := t.toList.find? (·.ptr == ptr)

def released (n : AvlNode) (t : AvlTree) : AvlTree :=
  writeNode n.ptr (fun v => { v with allocated := false }) t

def unmapRange (phys : Phys) (pml4t addr pageCount : Nat) : Phys :=
  (List.range pageCount).foldl (fun phys i =>
    freePage phys pml4t ((addr + i * 0x1000) % 2 ^ 64)) phys

def AvlNode.addPages (count : Nat) (v : AvlNode) : AvlNode :=
  { v with pageCount := (v.pageCount + count) % 2 ^ 64 }

/- The freed block joins the one below it; the answer holds the pointer `n` goes on with. -/
def mergeBelow (parentNull : Bool) (addr : Nat) (n : AvlNode) (t : AvlTree) (st : σ × Phys) :
    Option (Nat × AvlTree × σ × Phys) :=
  match avlBelow addr t with
  | none => some (n.ptr, t, st)
  | some prev =>
    if prev.allocated then some (n.ptr, t, st)
    else (deleteNode src parentNull addr t st).map fun r =>
      (prev.ptr, writeNode prev.ptr (AvlNode.addPages n.pageCount) r.1, r.2)

def mergeAfter (parentNull : Bool) (ptr : Nat) (t : AvlTree) (st : σ × Phys) :
    Option (AvlTree × σ × Phys) :=
  (nodeAt ptr t).bind fun n =>
    match avlFind n.stop t with
    | none => some (t, st)
    | some after =>
      if after.allocated then some (t, st)
      else deleteNode src parentNull after.addr
        (writeNode ptr (AvlNode.addPages after.pageCount) t) st

/- `parentNull` has what the two removals find in the unset word, each its own. -/
def freePages (parentNull : Bool × Bool) (m : MemoryManager) (st : σ × Phys) (addr : Nat) :
    Option (MemoryManager × σ × Phys) :=
  if m.lock then none
  else if m.tree = .nil then none
  else match avlFind addr m.tree with
    | none => some (m, st)
    | some n =>
      if n.allocated then
        (mergeBelow src parentNull.1 addr n (released n m.tree)
          (st.1, unmapRange st.2 m.pml4t addr n.pageCount)).bind fun r =>
            (mergeAfter src parentNull.2 r.1 r.2.1 r.2.2).map fun q =>
              ({ m with tree := q.1 }, q.2)
      else some (m, st)

end Gapxos
