import Gapxos.Vmm.Refines
import Gapxos.Vmm.Tiled
import Gapxos.Vmm.Request

/-! The calls on a manager whose nodes are in memory, beside those on one that has its tree
as a value: a call that comes back on the tree comes back on the nodes, with the same
answer, and leaves the nodes of the same tree. -/
namespace Gapxos
open SearchTree TreeCells Tiling Runs

variable {m : NodeMem} {t : AvlTree} {σ : Type} {src : NodeSource σ} {deep : Nat}

section Fields

theorem root_write (p : Nat) (f : AvlNode → AvlNode) (t : AvlTree) (same : ∀ v, (f v).ptr = v.ptr) :
    rootPtr (writeNode p f t) = rootPtr t := by
  cases t with
  | nil => rfl
  | node v h l r =>
    simp only [writeNode, KeyTree.map, root_node]
    split
    · exact same v
    · rfl

theorem write_held (held : HeldTree m t) {f : AvlNode → AvlNode} {g : Block → Block}
    (same : ∀ v, (f v).ptr = v.ptr) (agree : ∀ v, (f v).block = g v.block) (p : Nat) :
    HeldTree (setVal m p (g (m p).val)) (writeNode p f t) := by
  induction t with
  | nil => exact held_nil
  | node v h l r left right =>
    obtain ⟨real, cell, heldLeft, heldRight, apart⟩ := held_node.mp held
    have ptr : (if v.ptr = p then f v else v).ptr = v.ptr := by
      split
      · exact same v
      · rfl
    have kept : ∀ t, ptrs AvlNode.ptr (writeNode p f t) = ptrs AvlNode.ptr t :=
      fun t => nodePtrs_write p f t same
    refine held_node.mpr ⟨ptr ▸ real, ?_, left heldLeft, right heldRight, ?_⟩
    · rw [ptr]
      change _ = Cell.mk _ (rootPtr (writeNode p f l)) (rootPtr (writeNode p f r)) h
      rw [root_write p f l same, root_write p f r same]
      by_cases here : v.ptr = p
      · subst here
        simp [setVal, cell, agree]
      · simp [setVal, here, cell]
    · change Apart _ _ (writeNode p f l) (writeNode p f r)
      exact ⟨by rw [ptr, kept]; exact apart.left, by rw [ptr, kept]; exact apart.right,
        by rw [kept, kept]; exact apart.between⟩

theorem cell_val (held : HeldTree m t) {n : AvlNode} (inside : n ∈ t.toList) :
    (m n.ptr).val = n.block := by
  induction t with
  | nil => simp at inside
  | node v h l r left right =>
    obtain ⟨-, cell, heldLeft, heldRight, -⟩ := held_node.mp held
    rw [KeyTree.toList_node, List.mem_append, List.mem_cons] at inside
    rcases inside with inside | rfl | inside
    · exact left heldLeft inside
    · rw [cell]
    · exact right heldRight inside

end Fields

theorem Tall.depth_le (tall : Tall t) : depth t ≤ top t := by
  induction t with
  | nil => exact Nat.le_refl 0
  | node v h l r left right =>
    obtain ⟨hl, hr, tl, tr⟩ := tall
    have := left tl
    have := right tr
    rw [depth, top]
    omega

structure Mirrored (mgr : MemoryManager) (raw : RawManager) (mem : NodeMem) : Prop where
  tree : raw.tree = rootPtr mgr.tree
  held : HeldTree mem mgr.tree
  pml4t : raw.pml4t = mgr.pml4t
  lock : raw.lock = mgr.lock

def SameAnswer (a : Nat × MemoryManager × σ × Phys) (b : Nat × RawManager × NodeMem × σ × Phys) :
    Prop :=
  b.1 = a.1 ∧ Mirrored a.2.1 b.2.1 b.2.2.1 ∧ b.2.2.2 = a.2.2

/-- The next node is at an address that no node of the tree has. -/
def Roomy (src : NodeSource σ) (t : AvlTree) (st : σ × Phys) : Prop :=
  ∀ p, Made src st p → p ≠ 0 ∧ p ∉ nodePtrs t

theorem insertRestAt_alike {n : AvlNode} {pageCount : Nat} {st : σ × Phys} (held : HeldTree m t)
    (inside : n ∈ t.toList) (enough : depth t < deep) (roomy : Roomy src t st) :
    Option.Rel (Alike (fun p => Made src st p ∨ p ∈ nodePtrs t) m)
      (insertRest src n pageCount t st)
      (insertRestAt src deep n.ptr pageCount (rootPtr t) m st) := by
  simp only [insertRest, insertRestAt, cell_val held inside, AvlNode.block]
  split
  · exact insertAt_alike held enough roomy
  · exact .some ⟨ShowsTree.mono (shows_self held) fun _ => .inr, rfl⟩

theorem allocVirtAt_mirrors {mgr : MemoryManager} {raw : RawManager} {pageCount : Nat}
    {st : σ × Phys} (mirrored : Mirrored mgr raw m) (enough : depth mgr.tree < deep)
    (roomy : Roomy src mgr.tree st) :
    Option.Rel SameAnswer (allocVirt src mgr pageCount st)
      (allocVirtAt src deep raw m pageCount st) := by
  obtain ⟨tree, held, pml4t, lock⟩ := mirrored
  by_cases empty : mgr.tree = .nil
  · obtain ⟨deep, rfl⟩ : ∃ d, deep = d + 1 := ⟨deep - 1, by omega⟩
    simp [allocVirt, allocVirtAt, tree, empty, avlMinSizeAt]
  · rw [allocVirt, if_neg empty, allocVirtAt, tree, avlMinSizeAt_eq held empty enough.le,
      Option.bind_some]
    cases found : avlMinSize pageCount mgr.tree with
    | none => exact .some ⟨rfl, ⟨tree, held, pml4t, lock⟩, rfl⟩
    | some n =>
      obtain ⟨inside, -⟩ := avlMinSize_some found
      have real : n.ptr ≠ 0 := mem_ptr_ne held inside
      simp only [foundPtr, Option.elim_some, real, if_false]
      refine rel_map (insertRestAt_alike held inside enough roomy) fun a b _ alike => ?_
      refine ⟨by rw [cell_val held inside]; rfl, ⟨?_, ?_, pml4t, lock⟩, alike.2⟩
      · rw [root_write]
        · exact alike.1.top
        · exact fun _ => rfl
      · exact write_held (f := fun v => { v with pageCount, allocated := true })
          (g := fun w => { w with pageCount, allocated := true }) alike.1.held
          (fun _ => rfl) (fun _ => rfl) n.ptr

section Requests

variable {mgr : MemoryManager} {raw : RawManager} {pageCount : Nat} {st : σ × Phys}

theorem SameAnswer.mapped {a : Nat × MemoryManager × σ × Phys}
    {b : Nat × RawManager × NodeMem × σ × Phys} (same : SameAnswer a b)
    (fill : Nat → Phys → Phys) :
    SameAnswer (a.1, { a.2.1 with lock := false }, a.2.2.1, fill a.1 a.2.2.2)
      (b.1, { b.2.1 with lock := false }, b.2.2.1, b.2.2.2.1, fill b.1 b.2.2.2.2) := by
  obtain ⟨addr, after, st⟩ := same
  exact ⟨addr, ⟨after.tree, after.held, after.pml4t, rfl⟩, by rw [addr, st]⟩

theorem mallocPagesAt_mirrors {write exec kernel : Bool} (mirrored : Mirrored mgr raw m)
    (enough : depth mgr.tree < deep) (roomy : Roomy src mgr.tree st) :
    Option.Rel SameAnswer (mallocPages src mgr st pageCount write exec kernel)
      (mallocPagesAt src deep raw m st pageCount write exec kernel) := by
  rw [mallocPages, mallocPagesAt, mirrored.lock]
  split
  · exact .some ⟨rfl, mirrored, rfl⟩
  · split
    · exact .none
    · have locked : Mirrored { mgr with lock := true } ⟨raw.tree, mgr.pml4t, true⟩ m :=
        ⟨mirrored.tree, mirrored.held, rfl, rfl⟩
      rw [mirrored.pml4t]
      exact rel_map (allocVirtAt_mirrors locked enough roomy) fun a b _ same =>
        same.mapped fun addr phys => mapFresh phys mgr.pml4t addr pageCount
          (mallocFlags write exec kernel)

theorem mapMemoryAt_mirrors {mapAddr : Nat} {kernel : Bool} (mirrored : Mirrored mgr raw m)
    (enough : depth mgr.tree < deep) (roomy : Roomy src mgr.tree st) :
    Option.Rel SameAnswer (mapMemory src mgr st mapAddr pageCount kernel)
      (mapMemoryAt src deep raw m st mapAddr pageCount kernel) := by
  rw [mapMemory, mapMemoryAt, mirrored.lock]
  split
  · exact .some ⟨rfl, mirrored, rfl⟩
  · split
    · exact .none
    · have locked : Mirrored { mgr with lock := true } ⟨raw.tree, mgr.pml4t, true⟩ m :=
        ⟨mirrored.tree, mirrored.held, rfl, rfl⟩
      rw [mirrored.pml4t]
      exact rel_map (allocVirtAt_mirrors locked enough roomy) fun a b _ same =>
        same.mapped fun addr phys => mapRange phys mgr.pml4t addr mapAddr pageCount
          (mapFlags kernel)

end Requests

section Free

variable {parentNull : Bool} {st : σ × Phys}

theorem addPagesAt_held (held : HeldTree m t) (p count : Nat) :
    HeldTree (addPagesAt m p count) (writeNode p (AvlNode.addPages count) t) :=
  write_held (f := AvlNode.addPages count)
    (g := fun w => { w with pageCount := (w.pageCount + count) % 2 ^ 64 }) held
    (fun _ => rfl) (fun _ => rfl) p

theorem root_addPages (p count : Nat) (t : AvlTree) :
    rootPtr (writeNode p (AvlNode.addPages count) t) = rootPtr t :=
  root_write p _ t fun _ => rfl

theorem addPagesAt_addr (m : NodeMem) (p count q : Nat) :
    (addPagesAt m p count q).val.addr = (m q).val.addr := by
  by_cases here : q = p
  · subst here
    simp [addPagesAt, setVal]
  · simp [addPagesAt, setVal, here]

theorem mergeBelowAt_mirrors {addr : Nat} {n : AvlNode} {r : Nat × AvlTree × σ × Phys}
    (held : HeldTree m t) (ne : t ≠ .nil) (enough : depth t < deep)
    (count : (m n.ptr).val.pageCount = n.pageCount)
    (done : mergeBelow src parentNull addr n t st = some r) :
    ∃ m', mergeBelowAt src deep parentNull addr n.ptr (rootPtr t) m st =
      some (r.1, rootPtr r.2.1, m', r.2.2) ∧ HeldTree m' r.2.1 := by
  rw [mergeBelowAt, avlBelowAt_eq held ne enough.le, Option.bind_some]
  cases found : avlBelow addr t with
  | none =>
    rw [mergeBelow, found] at done
    cases done
    exact ⟨m, by simp [foundPtr], held⟩
  | some prev =>
    obtain ⟨inside, -⟩ := avlBelow_some found
    have real : prev.ptr ≠ 0 := mem_ptr_ne held inside
    have shown : (m prev.ptr).val.allocated = prev.allocated := by rw [cell_val held inside]; rfl
    rw [mergeBelow, found] at done
    simp only [foundPtr, Option.elim_some, shown, real, ne_eq, not_false_iff, true_and]
    cases used : prev.allocated with
    | true =>
      simp only [used] at done
      cases done
      exact ⟨m, rfl, held⟩
    | false =>
      simp only [used] at done
      obtain ⟨a, gone, rfl⟩ := Option.map_eq_some_iff.mp done
      obtain ⟨b, eq, shows, same⟩ := rel_some (deleteAt_alike held enough) gone
      refine ⟨addPagesAt b.2.1 prev.ptr n.pageCount, ?_, addPagesAt_held shows.held _ _⟩
      have top : b.1 = rootPtr (writeNode prev.ptr (AvlNode.addPages n.pageCount) a.1) :=
        shows.top.trans (root_addPages _ _ _).symm
      simp [eq, count, same, top]

theorem nodeAt_mem {p : Nat} {n : AvlNode} (shown : nodeAt p t = some n) :
    n ∈ t.toList ∧ n.ptr = p := by
  refine ⟨List.mem_of_find?_eq_some shown, ?_⟩
  simpa using List.find?_some shown

theorem mergeAfterAt_mirrors {p : Nat} {r : AvlTree × σ × Phys} (held : HeldTree m t)
    (enough : depth t < deep) (done : mergeAfter src parentNull p t st = some r) :
    ∃ m', mergeAfterAt src deep parentNull p (rootPtr t) m st =
      some (rootPtr r.1, m', r.2) ∧ HeldTree m' r.1 := by
  obtain ⟨n, shown, done⟩ := Option.bind_eq_some_iff.mp done
  obtain ⟨inside, rfl⟩ := nodeAt_mem shown
  have ne : t ≠ .nil := by
    rintro rfl
    simp at inside
  have stop : (m n.ptr).val.stop = n.stop := by rw [cell_val held inside]; rfl
  rw [mergeAfterAt, stop, avlFindAt_eq held ne enough.le, Option.bind_some]
  cases found : avlFind n.stop t with
  | none =>
    rw [found] at done
    cases done
    exact ⟨m, by simp [foundPtr], held⟩
  | some after =>
    obtain ⟨within, -⟩ := find_some found
    have real : after.ptr ≠ 0 := mem_ptr_ne held within
    have block : (m after.ptr).val = after.block := cell_val held within
    rw [found] at done
    simp only [foundPtr, Option.elim_some, block, AvlNode.block, real, ne_eq, not_false_iff,
      true_and]
    cases used : after.allocated with
    | true =>
      simp only [used] at done
      cases done
      exact ⟨m, rfl, held⟩
    | false =>
      simp only [used] at done
      have written := addPagesAt_held held n.ptr after.pageCount
      have addr : (addPagesAt m n.ptr after.pageCount after.ptr).val.addr = after.addr := by
        rw [addPagesAt_addr, block]
        rfl
      obtain ⟨b, eq, shows, same⟩ := rel_some
        (deleteAt_alike written (by rw [depth_write]; exact enough)) done
      have top : b.1 = rootPtr r.1 := shows.top
      refine ⟨b.2.1, ?_, shows.held⟩
      rw [root_addPages] at eq
      simp only [addr, eq, if_true]
      exact congrArg some (Prod.ext top (Prod.ext rfl same))

theorem freePagesAt_mirrors {parentNull : Bool × Bool} {mgr : MemoryManager} {raw : RawManager}
    {addr : Nat} {r : MemoryManager × σ × Phys} (mirrored : Mirrored mgr raw m)
    (enough : depth mgr.tree < deep)
    (between : ∀ n, avlFind addr mgr.tree = some n → n.allocated = true → ∀ q,
      mergeBelow src parentNull.1 addr n (released n mgr.tree)
        (st.1, unmapRange st.2 mgr.pml4t addr n.pageCount) = some q → depth q.2.1 < deep)
    (done : freePages src parentNull mgr st addr = some r) :
    ∃ raw' m', freePagesAt src deep parentNull raw m st addr = some (raw', m', r.2) ∧
      Mirrored r.1 raw' m' := by
  obtain ⟨tree, held, pml4t, lock⟩ := mirrored
  rw [freePages] at done
  split at done
  · cases done
  · rename_i unlocked
    split at done
    · cases done
    · rename_i ne
      rw [freePagesAt, lock, if_neg unlocked, tree, avlFindAt_eq held ne enough.le,
        Option.bind_some]
      cases found : avlFind addr mgr.tree with
      | none =>
        rw [found] at done
        cases done
        exact ⟨raw, m, by simp [foundPtr], tree, held, pml4t, lock⟩
      | some n =>
        obtain ⟨inside, -⟩ := find_some found
        have real : n.ptr ≠ 0 := mem_ptr_ne held inside
        have block : (m n.ptr).val = n.block := cell_val held inside
        rw [found] at done
        simp only [foundPtr, Option.elim_some, block, real, false_or]
        cases used : n.allocated with
        | false =>
          simp only [used] at done
          cases done
          exact ⟨raw, m, by simp [AvlNode.block, used], tree, held, pml4t, lock⟩
        | true =>
          simp only [used, if_true] at done
          obtain ⟨q, below, done⟩ := Option.bind_eq_some_iff.mp done
          obtain ⟨p, after, rfl⟩ := Option.map_eq_some_iff.mp done
          have marked : HeldTree (setVal m n.ptr { n.block with allocated := false })
              (released n mgr.tree) := by
            have := write_held (f := fun v => { v with allocated := false })
              (g := fun w => { w with allocated := false }) held (fun _ => rfl) (fun _ => rfl) n.ptr
            rwa [block] at this
          have same : rootPtr (released n mgr.tree) = rootPtr mgr.tree :=
            root_write n.ptr _ _ fun _ => rfl
          have some : released n mgr.tree ≠ .nil := fun empty =>
            ne (held.root_eq_zero.mp (same.symm.trans (congrArg rootPtr empty)))
          have count : (setVal m n.ptr { n.block with allocated := false } n.ptr).val.pageCount =
              n.pageCount := by
            simp [setVal, AvlNode.block]
          obtain ⟨m₁, eq₁, held₁⟩ := mergeBelowAt_mirrors marked some
            (by rw [released, depth_write]; exact enough) count below
          obtain ⟨m₂, eq₂, held₂⟩ := mergeAfterAt_mirrors held₁ (between n found used q below) after
          refine ⟨{ raw with tree := rootPtr p.1 }, m₂, ?_, rfl, held₂, pml4t, lock⟩
          rw [same] at eq₁
          simp only [AvlNode.block] at eq₁ count
          simp [AvlNode.block, used, count, pml4t, lock, eq₁, eq₂]

end Free

structure RawVm (σ : Type) where
  mgr : RawManager
  mem : NodeMem
  nodes : σ
  phys : Phys
  held : List (Nat × Nat)

section Runs

def RawVm.give (vm : RawVm σ) (pages : Nat) (r : Nat × RawManager × NodeMem × σ × Phys) :
    RawVm σ :=
  ⟨r.2.1, r.2.2.1, r.2.2.2.1, r.2.2.2.2, if pages = 0 then vm.held else (r.1, pages) :: vm.held⟩

variable (src deep) in
def MgrCall.stepAt (vm : RawVm σ) : MgrCall → Option (RawVm σ)
  | malloc pageCount write exec kernel =>
    (mallocPagesAt src deep vm.mgr vm.mem (vm.nodes, vm.phys) pageCount write exec kernel).map
      (vm.give pageCount)
  | map mapAddr pageCount kernel =>
    (mapMemoryAt src deep vm.mgr vm.mem (vm.nodes, vm.phys) mapAddr pageCount kernel).map
      (vm.give (if mapAddr % 0x1000 ≠ 0 then 0 else pageCount))
  | free addr parentNull =>
    (freePagesAt src deep parentNull vm.mgr vm.mem (vm.nodes, vm.phys) addr).map fun r =>
      ⟨r.1, r.2.1, r.2.2.1, r.2.2.2, vm.held.filter (·.1 ≠ addr)⟩

structure Mirrors (vm : Vm σ) (raw : RawVm σ) : Prop where
  mgr : Mirrored vm.mgr raw.mgr raw.mem
  nodes : raw.nodes = vm.nodes
  phys : raw.phys = vm.phys
  held : raw.held = vm.held

variable {live : σ → Nat → Prop} {start n : Nat}

theorem FreshSource.roomy (fresh : FreshSource src live) (null : ∀ s, live s 0) {st : σ × Phys}
    (nodes : Nodes (live st.1) t) : Roomy src t st := by
  rintro p ⟨st', made⟩
  obtain ⟨q, st₁, made', new, -⟩ := fresh.create st
  rw [made] at made'
  cases made'
  refine ⟨?_, fun inside => new (nodes.owned p inside)⟩
  rintro rfl
  exact new (null st.1)

theorem mergeBelow_shallow (fresh : FreshSource src live) {parentNull : Bool} {mgr : MemoryManager}
    {st st₁ : σ × Phys} {b : AvlNode} {q : Nat × AvlTree × σ × Phys} {lo hi : Nat}
    (nodes : Nodes (live st.1) mgr.tree) (small : top mgr.tree ≤ 250)
    (tiles : Tiles AvlNode.addr AvlNode.len lo hi mgr.tree.toList) (fits : hi ≤ 2 ^ 64)
    (inside : b ∈ mgr.tree.toList) (clear : FreeClear src mgr.tree b) (same : st₁.1 = st.1)
    (done : mergeBelow src parentNull b.addr b (released b mgr.tree) st₁ = some q) :
    depth q.2.1 ≤ 250 := by
  obtain ⟨A, B, split⟩ := List.append_of_mem inside
  have list := released_list nodes.ptrs split
  have marked : Tiles AvlNode.addr AvlNode.len lo hi (released b mgr.tree).toList := by
    rw [split, tiles_middle] at tiles
    rw [list, tiles_middle]
    exact tiles
  have kept : Nodes (live st₁.1) (released b mgr.tree) := by
    rw [same]
    exact nodes.write b.ptr fun _ => rfl
  obtain ⟨_, t₁, _, _, _, eq, -, -, -, nodes₁, small₁, -⟩ :=
    mergeBelow_step fresh parentNull st₁ kept (by rw [released, top_write]; exact small) list
      marked fits rfl clear.below
      fun free => removable_write b.ptr (fun _ => rfl) (clear.first free)
  have same : mergeBelow src parentNull b.addr b (released b mgr.tree) st₁ = _ := eq
  rw [done] at same
  cases same
  exact nodes₁.tall.depth_le.trans small₁

theorem step_mirrors (fresh : FreshSource src live) (null : ∀ s, live s 0) (pos : 0 < n)
    (fits : start + 4096 * n ≤ 2 ^ 64) (enough : 250 < deep) {vm : Vm σ} {raw : RawVm σ}
    {c : MgrCall} (both : Sound live start n vm ∧ Mirrors vm raw) (clear : c.Clear src vm) :
    ∃ vm' raw', c.step src vm = some vm' ∧ c.stepAt src deep raw = some raw' ∧
      Sound live start n vm' ∧ Mirrors vm' raw' := by
  obtain ⟨sound, mirrors⟩ := both
  obtain ⟨vm', eq, sound'⟩ := step_sound fresh pos fits sound clear
  obtain ⟨-, small, ready⟩ := clear
  have shallow : depth vm.mgr.tree < deep :=
    (sound.nodes.tall.depth_le.trans small).trans_lt enough
  have roomy : Roomy src vm.mgr.tree (vm.nodes, vm.phys) := fresh.roomy null sound.nodes
  suffices ∃ raw', c.stepAt src deep raw = some raw' ∧ Mirrors vm' raw' by
    obtain ⟨raw', eq', mirrors'⟩ := this
    exact ⟨vm', raw', eq, eq', sound', mirrors'⟩
  obtain ⟨mgr, nodes, phys, held⟩ := mirrors
  cases c with
  | malloc pageCount write exec kernel =>
    obtain ⟨a, answer, rfl⟩ := Option.map_eq_some_iff.mp eq
    obtain ⟨b, eq', same⟩ := rel_some (mallocPagesAt_mirrors mgr shallow roomy) answer
    refine ⟨raw.give pageCount b, by simp [MgrCall.stepAt, nodes, phys, eq'], same.2.1, ?_, ?_, ?_⟩
    · exact congrArg Prod.fst same.2.2
    · exact congrArg Prod.snd same.2.2
    · rw [RawVm.give, Vm.give, same.1, held]
  | map mapAddr pageCount kernel =>
    obtain ⟨a, answer, rfl⟩ := Option.map_eq_some_iff.mp eq
    obtain ⟨b, eq', same⟩ := rel_some (mapMemoryAt_mirrors mgr shallow roomy) answer
    refine ⟨raw.give (if mapAddr % 0x1000 ≠ 0 then 0 else pageCount) b,
      by simp [MgrCall.stepAt, nodes, phys, eq'], same.2.1, ?_, ?_, ?_⟩
    · exact congrArg Prod.fst same.2.2
    · exact congrArg Prod.snd same.2.2
    · rw [RawVm.give, Vm.give, same.1, held]
  | free addr parentNull =>
    obtain ⟨r, answer, rfl⟩ := Option.map_eq_some_iff.mp eq
    obtain ⟨raw', m', eq', mirrored⟩ := freePagesAt_mirrors mgr shallow
      (fun b found used q merged => by
        obtain ⟨inside, rfl⟩ := find_some found
        exact (mergeBelow_shallow fresh sound.nodes small sound.tiles fits inside
          (ready b found used) rfl merged).trans_lt enough) answer
    exact ⟨⟨raw', m', r.2.1, r.2.2, raw.held.filter (·.1 ≠ addr)⟩,
      by simp [MgrCall.stepAt, nodes, phys, eq'], mirrored, rfl, rfl, by rw [held]⟩

theorem createMgrAt_mirrors (fresh : FreshSource src live) (null : ∀ s, live s 0)
    (enough : 250 < deep) (mem : NodeMem) {st : σ × Phys} {r : MemoryManager × σ × Phys}
    (made : createMgr src start n st = some r) :
    ∃ raw mem', createMgrAt src deep start n mem st = some (raw, mem', r.2) ∧
      Mirrored r.1 raw mem' := by
  obtain ⟨a, eq, rfl⟩ := Option.map_eq_some_iff.mp made
  have empty : Nodes (live st.1) .nil := ⟨List.nodup_nil, by simp, trivial⟩
  obtain ⟨b, eq', shows, same⟩ := rel_some (insertAt_alike (m := mem) (t := .nil) held_nil
    (show depth _ < deep by rw [depth]; omega) (fresh.roomy null empty)) eq
  refine ⟨⟨b.1, 0, false⟩, b.2.1, ?_, shows.top, shows.held, rfl, rfl⟩
  have eq' : insertAt src start n deep mem 0 st = some b := eq'
  simp only [createMgrAt, eq', Option.map_some]
  exact congrArg (fun q => some (_, q)) (Prod.ext rfl same)

/-- Two runs of the same calls, one on trees and one on the nodes in memory: both come back
after every call, with the same answers and the same page tables, and the nodes have the
tree whose blocks tile the range. No recursion is deeper than 251 calls. -/
theorem mgr_run_nodes (fresh : FreshSource src live) (null : ∀ s, live s 0) (start n : Nat)
    (pos : 0 < n) (fits : start + 4096 * n ≤ 2 ^ 64) (deep : Nat) (enough : 250 < deep)
    (mem : NodeMem) (st : σ × Phys) :
    ∃ m st' raw mem', createMgr src start n st = some (m, st') ∧
      createMgrAt src deep start n mem st = some (raw, mem', st') ∧
      ∀ pml4t calls, All (MgrCall.step src) (MgrCall.Clear src)
          ⟨{ m with pml4t }, st'.1, st'.2, []⟩ calls →
        ∀ before, before <+: calls → ∃ vm vm',
          run (MgrCall.step src) ⟨{ m with pml4t }, st'.1, st'.2, []⟩ before = some vm ∧
          run (MgrCall.stepAt src deep) ⟨{ raw with pml4t }, mem', st'.1, st'.2, []⟩ before =
            some vm' ∧
          Mirrors vm vm' ∧ Tiled start n vm := by
  obtain ⟨m, st', made, sound⟩ := createMgr_sound fresh pos st
  obtain ⟨raw, mem', made', mirrored⟩ := createMgrAt_mirrors fresh null enough mem made
  refine ⟨m, st', raw, mem', made, made', fun pml4t calls clear before part => ?_⟩
  have first : Mirrors ⟨{ m with pml4t }, st'.1, st'.2, []⟩
      ⟨{ raw with pml4t }, mem', st'.1, st'.2, []⟩ :=
    ⟨⟨mirrored.tree, mirrored.held, rfl, mirrored.lock⟩, rfl, rfl, rfl⟩
  obtain ⟨vm, vm', eq, eq', final, mirrors⟩ :=
    run_pair (P := MgrCall.Clear src) (R := fun vm raw => Sound live start n vm ∧ Mirrors vm raw)
      (fun _ _ c both clear => step_mirrors (c := c) fresh null pos fits enough both clear) part
      ⟨sound pml4t, first⟩ clear
  exact ⟨vm, vm', eq, eq', mirrors, final.toTiled⟩

end Runs

/- A source that numbers its nodes from 1 on. -/
def numbered : NodeSource Nat :=
  ⟨fun st => some (st.1 + 1, st.1 + 1, st.2), fun _ st => some st⟩

theorem numbered_fresh : FreshSource numbered fun k p => p ≤ k :=
  ⟨fun st => ⟨st.1 + 1, (st.1 + 1, st.2), rfl, by omega, by omega, fun _ old => by omega⟩,
    fun _ st _ => ⟨st, rfl, fun _ _ old => old⟩⟩

def blankNodes : NodeMem := fun _ => ⟨⟨0, 0, false⟩, 0, 0, 0⟩

theorem mgr_run_nodes_split : ∃ m st raw mem,
    createMgr numbered kernStart 3 (0, blankPhys) = some (m, st) ∧
    createMgrAt numbered 251 kernStart 3 blankNodes (0, blankPhys) = some (raw, mem, st) ∧
    ∃ vm vm', run (MgrCall.step numbered) ⟨{ m with pml4t := 0x1000 }, st.1, st.2, []⟩
        [.malloc 1 true false true, .free kernStart (true, true)] = some vm ∧
      run (MgrCall.stepAt numbered 251) ⟨{ raw with pml4t := 0x1000 }, mem, st.1, st.2, []⟩
        [.malloc 1 true false true, .free kernStart (true, true)] = some vm' ∧
      Mirrors vm vm' ∧ Tiled kernStart 3 vm := by
  obtain ⟨m, st, raw, mem, made, made', runs⟩ := mgr_run_nodes numbered_fresh
    (fun _ => Nat.zero_le _) kernStart 3 (by decide) (by decide) 251 (by decide) blankNodes
    (0, blankPhys)
  refine ⟨m, st, raw, mem, made, made', runs 0x1000 _ ?_ _ (List.prefix_refl _)⟩
  obtain ⟨rfl, rfl⟩ := Prod.mk.inj (Option.some.inj made)
  refine ⟨⟨fun _ => ⟨⟨1, kernStart, 3, false⟩, by decide, by decide, by decide⟩, by decide,
    trivial⟩, fun vm eq => ?_⟩
  obtain rfl := Option.some.inj eq
  refine ⟨⟨fun none => absurd none (by decide), by decide, fun n found used => ?_⟩,
    fun _ _ => trivial⟩
  obtain rfl := Option.some.inj found
  refine ⟨by decide, by decide, by decide, fun parentNull st r merged => ?_⟩
  obtain rfl := Option.some.inj merged
  show ∀ v ∈ [(⟨1, kernStart, 1, false⟩ : AvlNode), ⟨2, kernStart + 4096, 2, false⟩],
    v.allocated = false → v.addr = kernStart + 4096 →
      removable v.addr (.node ⟨1, kernStart, 1, false⟩ 1 .nil
        (.node ⟨2, kernStart + 4096, 2, false⟩ 0 .nil .nil)) = true
  decide

/- The tree alone: insertions and removals in any order, on any tree. -/
section Edits

inductive TreeEdit
  | insert (addr pageCount : Nat)
  | remove (parentNull : Bool) (addr : Nat)

variable (src deep)

def TreeEdit.step (s : AvlTree × σ × Phys) : TreeEdit → Option (AvlTree × σ × Phys)
  | insert addr pageCount => insertNode src addr pageCount s.1 s.2
  | remove parentNull addr => deleteNode src parentNull addr s.1 s.2

def TreeEdit.stepAt (s : Nat × NodeMem × σ × Phys) : TreeEdit → Option (Nat × NodeMem × σ × Phys)
  | insert addr pageCount => insertAt src addr pageCount deep s.2.1 s.1 s.2.2
  | remove parentNull addr => deleteAt src parentNull addr deep s.2.1 s.1 s.2.2

/-- A tree that is not too deep, and a node source that has room beside it. -/
def Editable (s : AvlTree × σ × Phys) (_ : TreeEdit) : Prop :=
  depth s.1 < deep ∧ Roomy src s.1 s.2

variable {src deep}

/-- Insertions and removals on linked nodes are those on trees: after any run of them, the
two have failed together, at a NULL or a wild pointer, or the nodes have the tree. -/
theorem edits_refined {st : σ × Phys} {edits : List TreeEdit} (held : HeldTree m t)
    (all : All (TreeEdit.step src) (Editable src deep) (t, st) edits) :
    Option.Rel (fun a b => b.1 = rootPtr a.1 ∧ HeldTree b.2.1 a.1 ∧ b.2.2 = a.2)
      (run (TreeEdit.step src) (t, st) edits)
      (run (TreeEdit.stepAt src deep) (rootPtr t, m, st) edits) := by
  refine run_rel (fun a b e rel ok => ?_) ⟨rfl, held, rfl⟩ all
  obtain ⟨top, held, same⟩ := rel
  cases e with
  | insert addr pageCount =>
    rw [TreeEdit.step, TreeEdit.stepAt, top, same]
    exact rel_mono (insertAt_alike held ok.1 ok.2) fun _ _ alike =>
      ⟨alike.1.top, alike.1.held, alike.2⟩
  | remove parentNull addr =>
    rw [TreeEdit.step, TreeEdit.stepAt, top, same]
    exact rel_mono (deleteAt_alike held ok.1) fun _ _ alike =>
      ⟨alike.1.top, alike.1.held, alike.2⟩

theorem numbered_roomy {st : Nat × Phys} (old : ∀ p ∈ nodePtrs t, p ≤ st.1) :
    Roomy numbered t st := by
  rintro p ⟨st', made⟩
  cases made
  exact ⟨by omega, fun inside => by have := old _ inside; omega⟩

/- Three nodes, the root taken out with a word on the stack that is not NULL. -/
theorem edits_refined_wild :
    run (TreeEdit.step numbered) (.nil, 0, blankPhys)
        [.insert 0x2000 1, .insert 0x1000 1, .insert 0x3000 1, .remove false 0x2000] = none ∧
    Option.Rel (fun a b => b.1 = rootPtr a.1 ∧ HeldTree b.2.1 a.1 ∧ b.2.2 = a.2)
      (run (TreeEdit.step numbered) (.nil, 0, blankPhys)
        [.insert 0x2000 1, .insert 0x1000 1, .insert 0x3000 1, .remove false 0x2000])
      (run (TreeEdit.stepAt numbered 5) (0, blankNodes, 0, blankPhys)
        [.insert 0x2000 1, .insert 0x1000 1, .insert 0x3000 1, .remove false 0x2000]) := by
  refine ⟨rfl, edits_refined (m := blankNodes) (t := .nil) held_nil ?_⟩
  refine ⟨⟨by decide, numbered_roomy (by decide)⟩, fun s eq => ?_⟩
  obtain rfl := Option.some.inj eq
  refine ⟨⟨by decide, numbered_roomy (by decide)⟩, fun s eq => ?_⟩
  obtain rfl := Option.some.inj eq
  refine ⟨⟨by decide, numbered_roomy (by decide)⟩, fun s eq => ?_⟩
  obtain rfl := Option.some.inj eq
  exact ⟨⟨by decide, numbered_roomy (by decide)⟩, fun _ _ => trivial⟩

end Edits

end Gapxos
