import Gapxos.Lib.SearchTree
import Gapxos.Vmm.Paging
import Gapxos.Pmm.LowPage

/-! The tree of address blocks in vmm/avl_tree.c. A node is known by its pointer, which the
callers keep across calls; `none` is a step the code cannot survive, a NULL or wild
pointer followed. -/
namespace Gapxos
open SearchTree

structure AvlNode where
  ptr : Nat
  addr : Nat
  pageCount : Nat
  allocated : Bool
deriving DecidableEq, Repr

abbrev AvlTree := KeyTree AvlNode

/- Where nodes come from and go to. A node page is a page of the PMM, so the physical
memory is part of the state. -/
structure NodeSource (σ : Type) where
  createNode : σ × Phys → Option (Nat × σ × Phys)
  freeNode : Nat → σ × Phys → Option (σ × Phys)

def int8 (x : Int) : Int := Int.bmod x (2 ^ 8)

/-- One more than the stored height of a child, 0 for none. -/
def top : AvlTree → Nat
  | .nil => 0
  | .node _ h _ _ => h + 1

/- Heights are kept in 16 bits. -/
def height : AvlTree → Nat
  | .nil => 0
  | .node _ _ l r => max (top l % 2 ^ 16) (top r % 2 ^ 16)

def balance : AvlTree → Int
  | .nil => 0
  | .node _ _ l r => int8 (top r - top l)

def setHeight : AvlTree → AvlTree
  | .nil => .nil
  | .node v h l r => .node v (height (.node v h l r)) l r

def rotateLeft : AvlTree → Option AvlTree
  | .node x h xl (.node z i zl zr) =>
    some (setHeight (.node z i (setHeight (.node x h xl zl)) zr))
  | _ => none

def rotateRight : AvlTree → Option AvlTree
  | .node x h (.node z i zl zr) xr =>
    some (setHeight (.node z i zl (setHeight (.node x h zr xr))))
  | _ => none

def turnRight (v : AvlNode) (h : Nat) (l r : AvlTree) : Option AvlTree :=
  (if balance l = 1 then rotateLeft l else some l).bind fun l => rotateRight (.node v h l r)

def turnLeft (v : AvlNode) (h : Nat) (l r : AvlTree) : Option AvlTree :=
  (if balance r = -1 then rotateRight r else some r).bind fun r => rotateLeft (.node v h l r)

def rebalance (v : AvlNode) (h : Nat) (l r : AvlTree) : Option AvlTree :=
  let b := balance (.node v h l r)
  (if b = -2 then turnRight v h l r else if b = 2 then turnLeft v h l r
    else some (.node v h l r)).map setHeight

section Operations

variable {σ : Type} (src : NodeSource σ)

/- The height of a new node is not set before it is computed; 0 stands for it. -/
def insertNode (addr pageCount : Nat) : AvlTree → σ × Phys → Option (AvlTree × σ × Phys)
  | .nil, st => do
    let (ptr, st) ← src.createNode st
    let t ← rebalance ⟨ptr, addr, pageCount, false⟩ 0 .nil .nil
    some (t, st)
  | .node v h l r, st =>
    if addr < v.addr then do
      let (l, st) ← insertNode addr pageCount l st
      let t ← rebalance v h l r
      some (t, st)
    else if v.addr < addr then do
      let (r, st) ← insertNode addr pageCount r st
      let t ← rebalance v h l r
      some (t, st)
    else some (.node { v with addr, pageCount, allocated := false } h l r, st)

/- The node with two children: the payload of its successor moves into it. `parent` has a
value only if the walk to the successor made a step; `parentNull` is whether the word on
the stack that is read otherwise happens to be NULL. -/
def removeInner (parentNull : Bool) (v : AvlNode) (r : AvlTree) :
    Option (AvlNode × Nat × AvlTree) :=
  match r with
  | .nil => none
  | .node w i .nil b =>
    let moved := { w with ptr := v.ptr }
    if parentNull then
      if b = .nil then some (moved, w.ptr, .node w i .nil .nil) else some (moved, w.ptr, b)
    else none
  | .node w i a b =>
    (KeyTree.takeMin (.node w i a b)).map fun m => ({ m.1 with ptr := v.ptr }, m.1.ptr, m.2)

def rebalanceRoot : AvlTree → Option AvlTree
  | .nil => none
  | .node v h l r => rebalance v h l r

def deleteNode (parentNull : Bool) (addr : Nat) :
    AvlTree → σ × Phys → Option (AvlTree × σ × Phys)
  | .nil, st => some (.nil, st)
  | .node v h l r, st =>
    if addr < v.addr then do
      let (l, st) ← deleteNode parentNull addr l st
      let t ← rebalance v h l r
      some (t, st)
    else if v.addr < addr then do
      let (r, st) ← deleteNode parentNull addr r st
      let t ← rebalance v h l r
      some (t, st)
    else match l, r with
      | .nil, .nil => do
        let st ← src.freeNode v.ptr st
        some (.nil, st)
      | .node .., .nil => do
        let st ← src.freeNode v.ptr st
        let t ← rebalanceRoot l
        some (t, st)
      | .nil, .node .. => do
        let st ← src.freeNode v.ptr st
        let t ← rebalanceRoot r
        some (t, st)
      | .node .., .node .. => do
        let (moved, freed, r) ← removeInner parentNull v r
        let st ← src.freeNode freed st
        let t ← rebalance moved h l r
        some (t, st)

end Operations

def avlMinSize (pageCount : Nat) : AvlTree → Option AvlNode
  | .nil => none
  | .node v _ l r =>
    match avlMinSize pageCount r with
    | some n => some n
    | none =>
      if pageCount ≤ v.pageCount ∧ v.allocated = false then some v else avlMinSize pageCount l

def AvlNode.stop (v : AvlNode) : Nat := (v.addr + v.pageCount * 0x1000) % 2 ^ 64

/-- `addr - (node->addr + node->page_count * 0x1000)` stored into an int. -/
def belowDiff (v : AvlNode) (addr : Nat) : Int := int32 ((addr + (2 ^ 64 - v.stop)) % 2 ^ 64)

def avlBelow (addr : Nat) : AvlTree → Option AvlNode
  | .nil => none
  | .node v _ l r =>
    if belowDiff v addr = 0 then some v
    else if belowDiff v addr < 0 then avlBelow addr l else avlBelow addr r

def avlFind (addr : Nat) (t : AvlTree) : Option AvlNode := t.find AvlNode.addr addr

def writeNode (ptr : Nat) (f : AvlNode → AvlNode) (t : AvlTree) : AvlTree :=
  t.map fun v => if v.ptr = ptr then f v else v

end Gapxos
