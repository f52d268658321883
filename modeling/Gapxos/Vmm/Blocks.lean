import Mathlib.Data.List.Perm.Basic
import Mathlib.Data.List.Nodup
import Gapxos.Lib.Tiling
import Gapxos.Vmm.AvlList
import Gapxos.Vmm.Manager

/-! The blocks of a memory manager. Where nodes are fresh when they are made, the nodes of
the tree are distinct and owned, so a pointer the code holds across an insertion or a
removal still reaches the node it was taken from. -/
namespace Gapxos
open SearchTree Tiling

def AvlNode.len (v : AvlNode) : Nat := 4096 * v.pageCount

theorem stop_eq (v : AvlNode) : v.stop = (v.addr + v.len) % 2 ^ 64 := by
  rw [AvlNode.stop, AvlNode.len, Nat.mul_comm]

/-- The blocks in use, with their sizes. -/
def blocks (vs : List AvlNode) : List (Nat × Nat) :=
  (vs.filter AvlNode.allocated).map fun v => (v.addr, v.pageCount)

@[simp] theorem blocks_append (A B : List AvlNode) : blocks (A ++ B) = blocks A ++ blocks B := by
  simp [blocks]

theorem blocks_used {v : AvlNode} (used : v.allocated = true) (B : List AvlNode) :
    blocks (v :: B) = (v.addr, v.pageCount) :: blocks B := by
  simp [blocks, used]

theorem blocks_free {v : AvlNode} (free : v.allocated = false) (B : List AvlNode) :
    blocks (v :: B) = blocks B := by
  simp [blocks, free]

theorem mem_blocks {vs : List AvlNode} {a c : Nat} : (a, c) ∈ blocks vs ↔
    ∃ v ∈ vs, v.allocated = true ∧ v.addr = a ∧ v.pageCount = c := by
  simp [blocks, and_assoc]

/- What a node says, whichever node says it. -/
def AvlNode.payload (v : AvlNode) : Nat × Nat × Bool := (v.addr, v.pageCount, v.allocated)

theorem payload_eq {v w : AvlNode} (h : v.payload = w.payload) :
    v.addr = w.addr ∧ v.pageCount = w.pageCount ∧ v.allocated = w.allocated := by
  simpa [AvlNode.payload] using h

theorem blocks_congr {A B : List AvlNode} (same : A.map AvlNode.payload = B.map AvlNode.payload) :
    blocks A = blocks B := by
  induction A generalizing B with
  | nil =>
    cases B with
    | nil => rfl
    | cons w B => cases same
  | cons v A ih =>
    cases B with
    | nil => cases same
    | cons w B =>
      obtain ⟨head, tail⟩ := List.cons.inj same
      obtain ⟨addr, count, used⟩ := payload_eq head
      cases state : w.allocated with
      | true => rw [blocks_used (used.trans state), blocks_used state, addr, count, ih tail]
      | false => rw [blocks_free (used.trans state), blocks_free state, ih tail]

theorem tiles_payload {A B : List AvlNode} (same : A.map AvlNode.payload = B.map AvlNode.payload)
    {lo hi : Nat} :
    Tiles AvlNode.addr AvlNode.len lo hi A ↔ Tiles AvlNode.addr AvlNode.len lo hi B := by
  refine tiles_congr ?_
  have ends := congrArg (List.map fun p : Nat × Nat × Bool => (p.1, 4096 * p.2.1)) same
  simpa [AvlNode.payload, AvlNode.len, Function.comp_def] using ends

section Writes

theorem top_write (ptr : Nat) (f : AvlNode → AvlNode) (t : AvlTree) :
    top (writeNode ptr f t) = top t := by
  cases t <;> rfl

theorem tall_write (ptr : Nat) (f : AvlNode → AvlNode) {t : AvlTree} (h : Tall t) :
    Tall (writeNode ptr f t) := by
  induction t with
  | nil => trivial
  | node v i l r left right =>
    obtain ⟨hl, hr, tl, tr⟩ := h
    exact ⟨by rwa [← top_write ptr f] at hl, by rwa [← top_write ptr f] at hr, left tl, right tr⟩

theorem removable_write {f : AvlNode → AvlNode} {addr : Nat} {t : AvlTree} (ptr : Nat)
    (same : ∀ v, (f v).addr = v.addr) : removable addr t = true →
    removable addr (writeNode ptr f t) = true := by
  suffices h : removable addr (writeNode ptr f t) = removable addr t from fun ok => h.trans ok
  have keep : ∀ v : AvlNode, (if v.ptr = ptr then f v else v).addr = v.addr := by
    intro v
    split <;> simp [same]
  induction t with
  | nil => rfl
  | node v i l r left right =>
    have step : writeNode ptr f (.node v i l r) =
      .node (if v.ptr = ptr then f v else v) i (writeNode ptr f l) (writeNode ptr f r) := rfl
    simp only [step, removable, keep, left, right]
    cases l with
    | nil => rfl
    | node x j a b =>
      cases r with
      | nil => rfl
      | node y k c d => cases c <;> rfl

theorem write_list {t : AvlTree} {A B : List AvlNode} {b : AvlNode} (split : t.toList = A ++ b :: B)
    (ptrs : (t.toList.map AvlNode.ptr).Nodup) (f : AvlNode → AvlNode) :
    (writeNode b.ptr f t).toList = A ++ f b :: B := by
  rw [split, List.map_append, List.map_cons, List.nodup_middle, List.nodup_cons,
    List.mem_append] at ptrs
  have other : ∀ C : List AvlNode, b.ptr ∉ C.map AvlNode.ptr →
      C.map (fun v => if v.ptr = b.ptr then f v else v) = C := by
    intro C absent
    refine (List.map_congr_left fun v inside => if_neg ?_).trans (List.map_id C)
    exact fun same => absent (same ▸ List.mem_map_of_mem inside)
  rw [writeNode, KeyTree.toList_map, split, List.map_append, List.map_cons, if_pos rfl,
    other A fun inside => ptrs.1 (.inl inside), other B fun inside => ptrs.1 (.inr inside)]

theorem nodeAt_list {t : AvlTree} {A B : List AvlNode} {b : AvlNode}
    (split : t.toList = A ++ b :: B)
    (ptrs : (t.toList.map AvlNode.ptr).Nodup) : nodeAt b.ptr t = some b := by
  rw [split, List.map_append, List.map_cons, List.nodup_middle, List.nodup_cons,
    List.mem_append] at ptrs
  rw [nodeAt, split, List.find?_append, List.find?_eq_none.mpr, Option.none_or,
    List.find?_cons_of_pos (by simp)]
  intro v inside same
  exact ptrs.1 (.inl (List.mem_map.mpr ⟨v, inside, by simpa using same⟩))

theorem nodePtrs_write (ptr : Nat) (f : AvlNode → AvlNode) (t : AvlTree)
    (same : ∀ v, (f v).ptr = v.ptr) : nodePtrs (writeNode ptr f t) = nodePtrs t := by
  rw [nodePtrs, writeNode, KeyTree.toList_map, List.map_map]
  refine List.map_congr_left fun v _ => ?_
  show (if v.ptr = ptr then f v else v).ptr = v.ptr
  split <;> simp [same]

end Writes

/- create_node returns a node that is not in use, and nodes in use can be given back. -/
structure FreshSource {σ : Type} (src : NodeSource σ) (live : σ → Nat → Prop) : Prop where
  create : ∀ st, ∃ ptr st', src.createNode st = some (ptr, st') ∧ ¬ live st.1 ptr ∧
    live st'.1 ptr ∧ ∀ p, live st.1 p → live st'.1 p
  free : ∀ ptr st, live st.1 ptr → ∃ st', src.freeNode ptr st = some st' ∧
    ∀ p, p ≠ ptr → live st.1 p → live st'.1 p

/-- One call of create_node: it returns a node that the tree does not have. -/
def Creates {σ : Type} (src : NodeSource σ) (live : σ → Nat → Prop) (st : σ × Phys) (t : AvlTree) :
    Prop :=
  ∃ ptr st', src.createNode st = some (ptr, st') ∧ ptr ∉ nodePtrs t ∧ live st'.1 ptr ∧
    ∀ p, live st.1 p → live st'.1 p

structure Nodes (live : Nat → Prop) (t : AvlTree) : Prop where
  ptrs : (t.toList.map AvlNode.ptr).Nodup
  owned : ∀ p ∈ t.toList.map AvlNode.ptr, live p
  tall : Tall t

theorem Nodes.write {live : Nat → Prop} {t : AvlTree} (nodes : Nodes live t) (ptr : Nat)
    {f : AvlNode → AvlNode} (same : ∀ v, (f v).ptr = v.ptr) : Nodes live (writeNode ptr f t) := by
  have ptrs : (writeNode ptr f t).toList.map AvlNode.ptr = t.toList.map AvlNode.ptr :=
    nodePtrs_write ptr f t same
  exact ⟨by rw [ptrs]; exact nodes.ptrs, by rw [ptrs]; exact nodes.owned,
    tall_write ptr f nodes.tall⟩

theorem Removed.ptrs {b : AvlNode} {B B' : List AvlNode} {freed : Nat}
    (h : Removed b B freed B') :
    (freed :: B'.map AvlNode.ptr).Perm (b.ptr :: B.map AvlNode.ptr) := by
  cases h with
  | own => exact .refl _
  | successor s C split =>
    rw [split]
    exact List.Perm.swap ..

theorem Removed.tree {b : AvlNode} {A B B' : List AvlNode} {freed : Nat} {t t' : AvlTree}
    (h : Removed b B freed B') (split : t.toList = A ++ b :: B) (list : t'.toList = A ++ B') :
    (freed :: t'.toList.map AvlNode.ptr).Perm (t.toList.map AvlNode.ptr) := by
  rw [list, split, List.map_append, List.map_append, List.map_cons]
  exact List.perm_middle.symm.trans (h.ptrs.append_left _)

theorem Removed.payload {b : AvlNode} {B B' : List AvlNode} {freed : Nat}
    (h : Removed b B freed B') : B'.map AvlNode.payload = B.map AvlNode.payload := by
  cases h with
  | own => rfl
  | successor s C split => rw [split]; rfl

section Edits

variable {σ : Type} {src : NodeSource σ} {live : σ → Nat → Prop}

theorem FreshSource.creates (fresh : FreshSource src live) {st : σ × Phys} {t : AvlTree}
    (nodes : Nodes (live st.1) t) : Creates src live st t := by
  obtain ⟨ptr, st', made, new, kept, keeps⟩ := fresh.create st
  exact ⟨ptr, st', made, fun inside => new (nodes.owned ptr inside), kept, keeps⟩

theorem insertNode_nodes {st : σ × Phys} {t : AvlTree} (creates : Creates src live st t)
    {A B : List AvlNode} (nodes : Nodes (live st.1) t) (small : top t ≤ 250) (addr pageCount : Nat)
    (split : t.toList = A ++ B) (below : ∀ x ∈ A, x.addr < addr) (above : ∀ x ∈ B, addr < x.addr) :
    ∃ t' st' ptr, insertNode src addr pageCount t st = some (t', st') ∧
      t'.toList = A ++ ⟨ptr, addr, pageCount, false⟩ :: B ∧ Nodes (live st'.1) t' := by
  obtain ⟨ptr, st', made, new, kept, keeps⟩ := creates
  obtain ⟨t', eq, list, tall, _⟩ := insertNode_list made nodes.tall small split below above
  have ptrs : (t'.toList.map AvlNode.ptr).Perm (ptr :: t.toList.map AvlNode.ptr) := by
    rw [list, split, List.map_append, List.map_cons, List.map_append]
    exact List.perm_middle
  refine ⟨t', st', ptr, eq, list, ⟨ptrs.nodup_iff.mpr (List.nodup_cons.mpr ⟨new, nodes.ptrs⟩), ?_,
    tall⟩⟩
  intro p inside
  rcases List.mem_cons.mp (ptrs.mem_iff.mp inside) with rfl | old
  · exact kept
  · exact keeps p (nodes.owned p old)

theorem deleteNode_nodes (fresh : FreshSource src live) (parentNull : Bool) {st : σ × Phys}
    {t : AvlTree} {A B : List AvlNode} {b : AvlNode} (nodes : Nodes (live st.1) t)
    (small : top t ≤ 250) (split : t.toList = A ++ b :: B) (below : ∀ x ∈ A, x.addr < b.addr)
    (above : ∀ x ∈ B, b.addr < x.addr) (ok : removable b.addr t = true) :
    ∃ t' st' B', deleteNode src parentNull b.addr t st = some (t', st') ∧ t'.toList = A ++ B' ∧
      B'.map AvlNode.payload = B.map AvlNode.payload ∧ Nodes (live st'.1) t' ∧
      top t' ≤ top t := by
  obtain ⟨t', way, tall, bound⟩ := climb_tall nodes.tall (by omega)
  obtain ⟨freed, B', removed, list, step⟩ :=
    deleteNode_list src parentNull way split below above ok
  have ptrs := removed.tree split list
  obtain ⟨st', gone, keeps⟩ := fresh.free freed st (nodes.owned _ (ptrs.subset (by simp)))
  have distinct := List.nodup_cons.mp (ptrs.nodup_iff.mpr nodes.ptrs)
  refine ⟨t', st', B', step st st' gone, list, removed.payload, ⟨distinct.2, ?_, tall⟩, bound⟩
  intro p inside
  refine keeps p (fun same => distinct.1 (same ▸ inside)) (nodes.owned p (ptrs.subset ?_))
  exact List.mem_cons_of_mem _ inside

end Edits

end Gapxos
