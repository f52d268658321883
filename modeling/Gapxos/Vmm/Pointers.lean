import Gapxos.Lib.TreeCells
import Gapxos.Vmm.Manager

/-! vmm/avl_tree.c and vmm/mem_mgmt.c as they run: on nodes in memory that point to each
other and are written one field at a time. `deep` bounds how deep a recursion may go, and
one that goes deeper does not come back. -/
namespace Gapxos
open SearchTree TreeCells

/-- What struct avl_node holds besides its links and its height. -/
structure Block where
  addr : Nat
  pageCount : Nat
  allocated : Bool
deriving DecidableEq, Repr

abbrev NodeMem := Nat → Cell Block

def topAt (m : NodeMem) (child : Nat) : Nat := if child ≠ 0 then (m child).height + 1 else 0

def heightAt (m : NodeMem) (node : Nat) : Nat :=
  if node = 0 then 0
  else
    let lh := topAt m (m node).left % 2 ^ 16
    let rh := topAt m (m node).right % 2 ^ 16
    if lh > rh then lh else rh

def balanceAt (m : NodeMem) (node : Nat) : Int :=
  if node = 0 then 0
  else
    let lh : Int := topAt m (m node).left
    let rh : Int := topAt m (m node).right
    int8 (rh - lh)

def fixHeight (m : NodeMem) (node : Nat) : NodeMem := putHeight m node (heightAt m node)

def rotateLeftAt (m : NodeMem) (x : Nat) : Option (Nat × NodeMem) :=
  if x = 0 then none
  else
    let z := (m x).right
    if z = 0 then none
    else
      let m := setRight m x (m z).left
      let m := setLeft m z x
      let m := fixHeight m x
      some (z, fixHeight m z)

def rotateRightAt (m : NodeMem) (x : Nat) : Option (Nat × NodeMem) :=
  if x = 0 then none
  else
    let z := (m x).left
    if z = 0 then none
    else
      let m := setLeft m x (m z).right
      let m := setRight m z x
      let m := fixHeight m x
      some (z, fixHeight m z)

def turnRightAt (m : NodeMem) (node : Nat) : Option (Nat × NodeMem) :=
  (if balanceAt m (m node).left = 1 then
    (rotateLeftAt m (m node).left).map fun (l, m) => setLeft m node l
    else some m).bind fun m => rotateRightAt m node

def turnLeftAt (m : NodeMem) (node : Nat) : Option (Nat × NodeMem) :=
  (if balanceAt m (m node).right = -1 then
    (rotateRightAt m (m node).right).map fun (r, m) => setRight m node r
    else some m).bind fun m => rotateLeftAt m node

def rebalanceAt (m : NodeMem) (node : Nat) : Option (Nat × NodeMem) :=
  let b := balanceAt m node
  (if b = -2 then turnRightAt m node else if b = 2 then turnLeftAt m node
    else some (node, m)).map fun (node, m) => (node, fixHeight m node)

section Operations

variable {σ : Type} (src : NodeSource σ)

/- A new node keeps the height it finds in memory until its own is computed. -/
def insertAt (addr pageCount : Nat) :
    Nat → NodeMem → Nat → σ × Phys → Option (Nat × NodeMem × σ × Phys)
  | 0, _, _, _ => none
  | deep + 1, m, node, st =>
    if node = 0 then do
      let (node, st) ← src.createNode st
      let m := setVal m node { (m node).val with addr, pageCount }
      let m := setLeft (setRight m node 0) node 0
      let m := setVal m node { (m node).val with allocated := false }
      let (node, m) ← rebalanceAt m node
      some (node, m, st)
    else if addr < (m node).val.addr then do
      let (l, m, st) ← insertAt addr pageCount deep m (m node).left st
      let (node, m) ← rebalanceAt (setLeft m node l) node
      some (node, m, st)
    else if addr > (m node).val.addr then do
      let (r, m, st) ← insertAt addr pageCount deep m (m node).right st
      let (node, m) ← rebalanceAt (setRight m node r) node
      some (node, m, st)
    else some (node, setVal m node ⟨addr, pageCount, false⟩, st)

/-- The walk to the successor. `parent` is not set before the first step. -/
def successorAt (m : NodeMem) : Nat → Nat → Option Nat → Option (Nat × Option Nat)
  | 0, _, _ => none
  | deep + 1, ptr, parent =>
    if (m ptr).left ≠ 0 then successorAt m deep (m ptr).left (some ptr) else some (ptr, parent)

/- If `parent` is not set the code reads what its place on the stack holds, and a word that
is not NULL is followed. -/
def unlinkAt (parentNull : Bool) (m : NodeMem) (node ptr : Nat) : Option Nat → Option NodeMem
  | none =>
    if parentNull then
      if (m ptr).right ≠ 0 then some (setRight m node (m ptr).right) else some m
    else none
  | some parent =>
    if (m ptr).right ≠ 0 then some (setLeft m parent (m ptr).right)
    else some (setLeft m parent 0)

def deleteAt (parentNull : Bool) (addr : Nat) :
    Nat → NodeMem → Nat → σ × Phys → Option (Nat × NodeMem × σ × Phys)
  | 0, _, _, _ => none
  | deep + 1, m, node, st =>
    if node = 0 then some (0, m, st)
    else if addr < (m node).val.addr then do
      let (l, m, st) ← deleteAt parentNull addr deep m (m node).left st
      let (node, m) ← rebalanceAt (setLeft m node l) node
      some (node, m, st)
    else if addr > (m node).val.addr then do
      let (r, m, st) ← deleteAt parentNull addr deep m (m node).right st
      let (node, m) ← rebalanceAt (setRight m node r) node
      some (node, m, st)
    else if (m node).left = 0 ∧ (m node).right = 0 then do
      let st ← src.freeNode node st
      some (0, m, st)
    else if (m node).left ≠ 0 ∧ (m node).right = 0 then do
      let left := (m node).left
      let st ← src.freeNode node st
      let (node, m) ← rebalanceAt m left
      some (node, m, st)
    else if (m node).left = 0 ∧ (m node).right ≠ 0 then do
      let right := (m node).right
      let st ← src.freeNode node st
      let (node, m) ← rebalanceAt m right
      some (node, m, st)
    else do
      let (ptr, parent) ← successorAt m deep (m node).right none
      let m ← unlinkAt parentNull (setVal m node (m ptr).val) node ptr parent
      let st ← src.freeNode ptr st
      let (node, m) ← rebalanceAt m node
      some (node, m, st)

end Operations

/- The searches follow a root that is not NULL; the answer is a pointer. -/
def avlMinSizeAt (m : NodeMem) (pageCount : Nat) : Nat → Nat → Option Nat
  | 0, _ => none
  | deep + 1, node =>
    if node = 0 then none
    else (if (m node).right ≠ 0 then avlMinSizeAt m pageCount deep (m node).right
        else some 0).bind fun r =>
      if r ≠ 0 then some r
      else if (m node).val.pageCount ≥ pageCount ∧ (m node).val.allocated = false then some node
      else if (m node).left ≠ 0 then avlMinSizeAt m pageCount deep (m node).left
      else some 0

def Block.stop (b : Block) : Nat := (b.addr + b.pageCount * 0x1000) % 2 ^ 64

def avlBelowAt (m : NodeMem) (addr : Nat) : Nat → Nat → Option Nat
  | 0, _ => none
  | deep + 1, node =>
    if node = 0 then none
    else
      let diff := int32 ((addr + (2 ^ 64 - (m node).val.stop)) % 2 ^ 64)
      if diff = 0 then some node
      else if diff < 0 then
        if (m node).left ≠ 0 then avlBelowAt m addr deep (m node).left else some 0
      else if (m node).right ≠ 0 then avlBelowAt m addr deep (m node).right
      else some 0

def avlFindAt (m : NodeMem) (addr : Nat) : Nat → Nat → Option Nat
  | 0, _ => none
  | deep + 1, node =>
    if node = 0 then none
    else if (m node).val.addr = addr then some node
    else if addr < (m node).val.addr then
      if (m node).left ≠ 0 then avlFindAt m addr deep (m node).left else some 0
    else if (m node).right ≠ 0 then avlFindAt m addr deep (m node).right
    else some 0

structure RawManager where
  tree : Nat
  pml4t : Nat
  lock : Bool
deriving DecidableEq, Repr

section Calls

variable {σ : Type} (src : NodeSource σ) (deep : Nat)

def createMgrAt (addrStart pageCount : Nat) (mem : NodeMem) (st : σ × Phys) :
    Option (RawManager × NodeMem × σ × Phys) :=
  (insertAt src addrStart pageCount deep mem 0 st).map fun (tree, mem, st) =>
    (⟨tree, 0, false⟩, mem, st)

/-- `if (pages_diff) avl_insert(mgr, n->addr + page_count*4096, pages_diff)`. -/
def insertRestAt (n pageCount tree : Nat) (mem : NodeMem) (st : σ × Phys) :
    Option (Nat × NodeMem × σ × Phys) :=
  let pagesDiff := (mem n).val.pageCount - pageCount
  if pagesDiff ≠ 0 then
    insertAt src (((mem n).val.addr + pageCount * 4096) % 2 ^ 64) pagesDiff deep mem tree st
  else some (tree, mem, st)

def allocVirtAt (mgr : RawManager) (mem : NodeMem) (pageCount : Nat) (st : σ × Phys) :
    Option (Nat × RawManager × NodeMem × σ × Phys) :=
  (avlMinSizeAt mem pageCount deep mgr.tree).bind fun n =>
    if n = 0 then some (0, mgr, mem, st)
    else
      let addr := (mem n).val.addr
      (insertRestAt src deep n pageCount mgr.tree mem st).map fun (tree, mem, st) =>
        (addr, { mgr with tree },
          setVal mem n { (mem n).val with pageCount, allocated := true }, st)

def mallocPagesAt (mgr : RawManager) (mem : NodeMem) (st : σ × Phys) (pageCount : Nat)
    (write exec kernel : Bool) : Option (Nat × RawManager × NodeMem × σ × Phys) :=
  if pageCount = 0 then some (0, mgr, mem, st)
  else if mgr.lock then none
  else (allocVirtAt src deep { mgr with lock := true } mem pageCount st).map
    fun (addr, held, mem, nodes, phys) => (addr, { held with lock := false }, mem, nodes,
      mapFresh phys mgr.pml4t addr pageCount (mallocFlags write exec kernel))

def mapMemoryAt (mgr : RawManager) (mem : NodeMem) (st : σ × Phys) (mapAddr pageCount : Nat)
    (kernel : Bool) : Option (Nat × RawManager × NodeMem × σ × Phys) :=
  if pageCount = 0 ∨ mapAddr % 0x1000 ≠ 0 then some (0, mgr, mem, st)
  else if mgr.lock then none
  else (allocVirtAt src deep { mgr with lock := true } mem pageCount st).map
    fun (addr, held, mem, nodes, phys) => (addr, { held with lock := false }, mem, nodes,
      mapRange phys mgr.pml4t addr mapAddr pageCount (mapFlags kernel))

def addPagesAt (mem : NodeMem) (n count : Nat) : NodeMem :=
  setVal mem n { (mem n).val with pageCount := ((mem n).val.pageCount + count) % 2 ^ 64 }

/- The pointer `n` goes on with, the tree and the nodes. -/
def mergeBelowAt (parentNull : Bool) (addr n tree : Nat) (mem : NodeMem) (st : σ × Phys) :
    Option (Nat × Nat × NodeMem × σ × Phys) :=
  (avlBelowAt mem addr deep tree).bind fun prev =>
    if prev ≠ 0 ∧ (mem prev).val.allocated = false then
      let pagesOld := (mem n).val.pageCount
      (deleteAt src parentNull addr deep mem tree st).map fun (tree, mem, st) =>
        (prev, tree, addPagesAt mem prev pagesOld, st)
    else some (n, tree, mem, st)

def mergeAfterAt (parentNull : Bool) (n tree : Nat) (mem : NodeMem) (st : σ × Phys) :
    Option (Nat × NodeMem × σ × Phys) :=
  (avlFindAt mem (mem n).val.stop deep tree).bind fun after =>
    if after ≠ 0 ∧ (mem after).val.allocated = false then
      let mem := addPagesAt mem n (mem after).val.pageCount
      deleteAt src parentNull (mem after).val.addr deep mem tree st
    else some (tree, mem, st)

def freePagesAt (parentNull : Bool × Bool) (mgr : RawManager) (mem : NodeMem) (st : σ × Phys)
    (addr : Nat) : Option (RawManager × NodeMem × σ × Phys) :=
  if mgr.lock then none
  else (avlFindAt mem addr deep mgr.tree).bind fun n =>
    if n = 0 ∨ (mem n).val.allocated = false then some (mgr, mem, st)
    else
      let mem := setVal mem n { (mem n).val with allocated := false }
      let phys := unmapRange st.2 mgr.pml4t addr (mem n).val.pageCount
      (mergeBelowAt src deep parentNull.1 addr n mgr.tree mem (st.1, phys)).bind
        fun (n, tree, mem, st) =>
          (mergeAfterAt src deep parentNull.2 n tree mem st).map fun (tree, mem, st) =>
            ({ mgr with tree }, mem, st)

end Calls

end Gapxos
