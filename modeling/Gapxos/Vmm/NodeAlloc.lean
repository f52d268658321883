import Gapxos.Pmm.InitPaging
import Gapxos.Vmm.Avl

/-! The allocator of tree nodes in vmm/node_alloc.c. Node pages are pages of the PMM, seen
through the direct map and linked both ways: words 0 and 1 of a page are the pointers,
words 2 and 3 the header, and 84 nodes of six words each follow. -/
namespace Gapxos

def nodesPerPage : Nat := 84
def headerBits : Nat := 20
def headerBytes : Nat := 16

/-- The frame behind a pointer to a page; a pointer outside the direct map is wild. -/
def ptrFrame (page : Nat) : Option Nat :=
  if physicalMapOffset ≤ page ∧ page < 2 ^ 64 ∧ page % 4096 = 0 then
    some ((page - physicalMapOffset) / 4096)
  else none

/- The memset of the header is called with 0 for the value and counts that down, so it
writes nothing: the header is what the page held before. -/
def initAvlPage (prev : Nat) (phys : Phys) : Option (Nat × Phys) :=
  let (addr, phys) := pmmAllocPage phys
  let page := (addr + physicalMapOffset) % 2 ^ 64
  (ptrFrame page).bind fun f =>
    let phys := (phys.write f 0 (BitVec.ofNat 64 prev)).write f 1 0
    if prev = 0 then some (page, phys)
    else (ptrFrame prev).map fun g => (page, phys.write g 1 (BitVec.ofNat 64 page))

/-- `none` is the -1 of the source: no bit is 0. -/
def find0Bit (header : Fin 512 → Word) : Option Nat :=
  let i := if header 2 ≠ BitVec.allOnes 64 then 0 else 1
  let maxBit := if 1 ≤ i then headerBits else 64
  ((List.range maxBit).find? fun j => !(header (2 + Fin.ofNat 512 i)).getLsbD j).map (i * 64 + ·)

/- `1 << bit`, an int that is widened to 64 bits. Where C leaves the shift undefined its
value is `wild`. -/
def oneShl (wild : Int → Word) (bit : Int) : Word :=
  if 0 ≤ bit ∧ bit < 32 then ((1#32) <<< bit.toNat).signExtend 64 else wild bit

/- The quotient and the remainder are those of C, towards 0. -/
def setHeaderBit (wild : Int → Word) (page : Nat) (idx : Int) (val : Bool) (phys : Phys) :
    Option Phys :=
  (ptrFrame page).map fun f =>
    let byte := Fin.ofNat 512 (2 + idx.tdiv 64).toNat
    let bit := idx.tmod 64
    phys.write f byte (if val then phys.mem f byte ||| oneShl wild bit
      else phys.mem f byte &&& ~~~oneShl wild bit)

/- The loop of create_node. No list is longer than 2^54 pages, so a walk that takes more
passes goes in a circle. -/
def findPage (page : Nat) (phys : Phys) : Nat → Option (Nat × Nat × Phys)
  | 0 => none
  | passes + 1 => (ptrFrame page).bind fun f =>
    match find0Bit (phys.mem f) with
    | some idx => some (page, idx, phys)
    | none =>
      if phys.mem f 1 ≠ 0 then findPage (phys.mem f 1).toNat phys passes
      else (initAvlPage page phys).bind fun r => findPage r.1 r.2 passes

def nodeSlot (page idx : Nat) : Nat := page + 32 + 48 * idx

/-- `nodeListHead` is the first component of the state. -/
def createNode (wild : Int → Word) (st : Nat × Phys) : Option (Nat × Nat × Phys) :=
  (if st.1 = 0 then initAvlPage 0 st.2 else some st).bind fun st =>
    (findPage st.1 st.2 (2 ^ 54)).bind fun r =>
      (setHeaderBit wild r.1 r.2.1 true r.2.2).map fun phys => (nodeSlot r.1 r.2.1, st.1, phys)

def getNodePage (node : Nat) : Nat := node - node % 4096

/- The page is unlinked and given to the PMM, by the address of its pointer. -/
def dropPage (page f : Nat) (st : Nat × Phys) : Option (Nat × Phys) :=
  let prev := (st.2.mem f 0).toNat
  let next := (st.2.mem f 1).toNat
  if st.1 = page then
    let phys := pmmFreePage st.2 page
    if next = 0 then some (next, phys)
    else (ptrFrame next).map fun g => (next, phys.write g 0 0)
  else
    (ptrFrame prev).bind fun g => (ptrFrame next).map fun h =>
      let phys := st.2.write g 1 (BitVec.ofNat 64 next)
      (st.1, pmmFreePage (phys.write h 0 (BitVec.ofNat 64 prev)) page)

/-- The test for an empty page reads `header[HEADER_BYTES]`, word 18 of the page. -/
def pageEmpty (header : Fin 512 → Word) : Bool :=
  header 2 == 0 && (List.range headerBits).all fun j =>
    !(header (2 + Fin.ofNat 512 headerBytes)).getLsbD j

def freeNode (wild : Int → Word) (node : Nat) (st : Nat × Phys) : Option (Nat × Phys) :=
  let page := getNodePage node
  let idx := ((page + 32 : Int) - node).tdiv 48
  (setHeaderBit wild page idx false st.2).bind fun phys =>
    (ptrFrame page).bind fun f =>
      if pageEmpty (phys.mem f) then dropPage page f (st.1, phys) else some (st.1, phys)

/-- The source of nodes the tree uses in the kernel. -/
def nodeSource (wild : Int → Word) : NodeSource Nat := ⟨createNode wild, freeNode wild⟩

end Gapxos
