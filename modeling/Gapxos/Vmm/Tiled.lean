import Gapxos.Lib.Runs
import Gapxos.Vmm.Joins

/-! Runs of calls on a memory manager. As long as every removal takes a node the code knows
how to take out, and what it takes for a neighbour of a freed block is one, the blocks
tile the range the manager was made for. -/
namespace Gapxos
open SearchTree Tiling Runs

section Release

variable {σ : Type}

structure FreeClear (src : NodeSource σ) (t : AvlTree) (n : AvlNode) : Prop where
  /-- the 32 bits that avl_below compares tell the blocks apart -/
  below : ∀ v ∈ (released n t).toList, v.allocated = false → belowDiff v n.addr = 0 →
    v.addr + v.len = n.addr
  /-- no free block begins at 0 when the freed one ends at 2^64 -/
  above : ∀ v ∈ (released n t).toList, v.allocated = false → v.addr = n.stop →
    v.addr = n.addr + n.len
  /-- both removals are of nodes that can be taken out, in the trees they find -/
  first : (∃ v ∈ (released n t).toList, v.allocated = false ∧ v.addr + v.len = n.addr) →
    removable n.addr t = true
  second : ∀ parentNull st r, mergeBelow src parentNull n.addr n (released n t) st = some r →
    ∀ v ∈ r.2.1.toList, v.allocated = false → v.addr = n.addr + n.len →
      removable v.addr r.2.1 = true

variable {src : NodeSource σ} {live : σ → Nat → Prop} {lo hi : Nat}

theorem released_list {n : AvlNode} {t : AvlTree} {A B : List AvlNode}
    (ptrs : (t.toList.map AvlNode.ptr).Nodup) (split : t.toList = A ++ n :: B) :
    (released n t).toList = A ++ { n with allocated := false } :: B :=
  write_list split ptrs fun v => { v with allocated := false }

theorem blocks_without {A B : List AvlNode} {n : AvlNode}
    (sorted : (A ++ n :: B).Pairwise fun v w => v.addr < w.addr) :
    (blocks (A ++ n :: B)).filter (·.1 ≠ n.addr) = blocks (A ++ B) := by
  obtain ⟨_, above, below⟩ := List.pairwise_append.mp sorted
  have other : ∀ C : List AvlNode, (∀ v ∈ C, v.addr ≠ n.addr) →
      (blocks C).filter (·.1 ≠ n.addr) = blocks C := by
    intro C apart
    refine List.filter_eq_self.mpr fun ⟨a, c⟩ inside => ?_
    obtain ⟨v, within, _, rfl, _⟩ := mem_blocks.mp inside
    simpa using apart v within
  have first := other A fun v inside => Nat.ne_of_lt (below v inside n (by simp))
  have last := other B fun v inside => Nat.ne_of_gt ((List.pairwise_cons.mp above).1 v inside)
  rw [blocks_append, blocks_append, List.filter_append, first]
  cases used : n.allocated with
  | true => rw [blocks_used used, List.filter_cons_of_neg (by simp), last]
  | false => rw [blocks_free used, last]

theorem freePages_step (fresh : FreshSource src live) (parentNull : Bool × Bool)
    {m : MemoryManager} (st : σ × Phys) {addr : Nat} (unlocked : m.lock = false)
    (nodes : Nodes (live st.1) m.tree) (small : top m.tree ≤ 250)
    (tiles : Tiles AvlNode.addr AvlNode.len lo hi m.tree.toList) (proper : lo < hi)
    (fits : hi ≤ 2 ^ 64)
    (clear : ∀ n, avlFind addr m.tree = some n → n.allocated = true → FreeClear src m.tree n) :
    ∃ m' st', freePages src parentNull m st addr = some (m', st') ∧ m'.lock = false ∧
      Nodes (live st'.1) m'.tree ∧ Tiles AvlNode.addr AvlNode.len lo hi m'.tree.toList ∧
      blocks m'.tree.toList = (blocks m.tree.toList).filter (·.1 ≠ addr) := by
  have ne : m.tree ≠ .nil := by
    intro empty
    rw [empty] at tiles
    have same : lo = hi := tiles
    omega
  have sorted := tiles_sorted tiles
  cases found : avlFind addr m.tree with
  | none =>
    refine ⟨m, st, by simp [freePages, unlocked, ne, found], unlocked, nodes, tiles, ?_⟩
    refine (List.filter_eq_self.mpr fun ⟨a, c⟩ inside => ?_).symm
    obtain ⟨v, within, _, rfl, _⟩ := mem_blocks.mp inside
    simpa using find_none sorted found v within
  | some n =>
    obtain ⟨inside, rfl⟩ := find_some found
    obtain ⟨A, B, split⟩ := List.append_of_mem inside
    rw [split] at sorted
    have gone := blocks_without sorted
    rw [← split] at gone
    cases used : n.allocated with
    | false =>
      refine ⟨m, st, by simp [freePages, unlocked, ne, found, used], unlocked, nodes, tiles, ?_⟩
      rw [gone, split, blocks_append, blocks_append, blocks_free used]
    | true =>
      have clear := clear n found used
      have list := released_list nodes.ptrs split
      have marked : Tiles AvlNode.addr AvlNode.len lo hi (released n m.tree).toList := by
        rw [split, tiles_middle] at tiles
        rw [list, tiles_middle]
        exact tiles
      have kept : Nodes (live st.1) (released n m.tree) := nodes.write n.ptr fun _ => rfl
      obtain ⟨q, t₁, st₁, C, D, eq₁, list₁, unused, stop, nodes₁, small₁, tiles₁, same₁, starts⟩ :=
        mergeBelow_step fresh parentNull.1 (st.1, unmapRange st.2 m.pml4t n.addr n.pageCount)
          kept (by rw [released, top_write]; exact small) list marked fits rfl clear.below
          fun free => removable_write n.ptr (fun _ => rfl) (clear.first free)
      have near : ∀ v ∈ t₁.toList, v.allocated = false → v.addr = q.stop →
          v.addr = q.addr + q.len := by
        intro v within free there
        obtain ⟨w, old, unused', addr⟩ := starts v within free
        rw [stop_eq, stop] at there
        rw [stop, ← addr]
        exact clear.above w old unused' (by rw [addr, there, stop_eq]; rfl)
      obtain ⟨t₂, st₂, eq₂, nodes₂, tiles₂, same₂⟩ := mergeAfter_step fresh parentNull.2 nodes₁
        small₁ list₁ tiles₁ fits unused near
        fun v within free there => clear.second _ _ _ eq₁ v within free (there.trans stop)
      refine ⟨{ m with tree := t₂ }, st₂, ?_, unlocked, nodes₂, tiles₂, ?_⟩
      · have below : mergeBelow src parentNull.1 n.addr n (released n m.tree)
            (st.1, unmapRange st.2 m.pml4t n.addr n.pageCount) = some (q.ptr, t₁, st₁) := eq₁
        simp [freePages, unlocked, ne, found, used, below, eq₂]
      · rw [same₂, same₁, gone, list, blocks_append, blocks_append, blocks_free rfl]

end Release

/-- A manager among its callers: `held` are the blocks they were given and did not give
back, with the sizes they asked for. -/
structure Vm (σ : Type) where
  mgr : MemoryManager
  nodes : σ
  phys : Phys
  held : List (Nat × Nat)

inductive MgrCall
  | malloc (pageCount : Nat) (write exec kernel : Bool)
  | map (mapAddr pageCount : Nat) (kernel : Bool)
  | free (addr : Nat) (parentNull : Bool × Bool)

/-- The pages a call asks for; a request that is turned down at once asks for none. -/
def MgrCall.pages : MgrCall → Nat
  | malloc pageCount _ _ _ => pageCount
  | map mapAddr pageCount _ => if mapAddr % 0x1000 ≠ 0 then 0 else pageCount
  | free _ _ => 0

section Runs

variable {σ : Type}

def Vm.give (vm : Vm σ) (pages : Nat) (r : Nat × MemoryManager × σ × Phys) : Vm σ :=
  ⟨r.2.1, r.2.2.1, r.2.2.2, if pages = 0 then vm.held else (r.1, pages) :: vm.held⟩

variable (src : NodeSource σ)

def MgrCall.step (vm : Vm σ) : MgrCall → Option (Vm σ)
  | malloc pageCount write exec kernel =>
    (mallocPages src vm.mgr (vm.nodes, vm.phys) pageCount write exec kernel).map
      (vm.give pageCount)
  | map mapAddr pageCount kernel =>
    (mapMemory src vm.mgr (vm.nodes, vm.phys) mapAddr pageCount kernel).map
      (vm.give (if mapAddr % 0x1000 ≠ 0 then 0 else pageCount))
  | free addr parentNull =>
    (freePages src parentNull vm.mgr (vm.nodes, vm.phys) addr).map fun r =>
      ⟨r.1, r.2.1, r.2.2, vm.held.filter (·.1 ≠ addr)⟩

/-- There is space for the request. -/
def MgrCall.Met (vm : Vm σ) (c : MgrCall) : Prop := 0 < c.pages → Room c.pages vm.mgr.tree

/- Heights are compared in 8 bits, so the highest one has to stay below that. -/
def MgrCall.Clear (vm : Vm σ) (c : MgrCall) : Prop :=
  c.Met vm ∧ top vm.mgr.tree ≤ 250 ∧
    match c with
    | free addr _ => ∀ n, avlFind addr vm.mgr.tree = some n → n.allocated = true →
        FreeClear src vm.mgr.tree n
    | _ => True

variable {src} {live : σ → Nat → Prop} {start n : Nat}

/-- The blocks tile the range, and those in use are the ones held. -/
structure Tiled (start n : Nat) (vm : Vm σ) : Prop where
  tiles : Tiles AvlNode.addr AvlNode.len start (start + 4096 * n) vm.mgr.tree.toList
  held : vm.held.Perm (blocks vm.mgr.tree.toList)

structure Sound (live : σ → Nat → Prop) (start n : Nat) (vm : Vm σ) : Prop
    extends Tiled start n vm where
  nodes : Nodes (live vm.nodes) vm.mgr.tree
  unlocked : vm.mgr.lock = false

theorem request_step (fits : start + 4096 * n ≤ 2 ^ 64) {vm : Vm σ}
    (creates : Creates src live (vm.nodes, vm.phys) vm.mgr.tree) (sound : Sound live start n vm)
    (small : top vm.mgr.tree ≤ 250) {pages : Nat} (pos : 0 < pages)
    (room : Room pages vm.mgr.tree) :
    ∃ addr m st, allocVirt src { vm.mgr with lock := true } pages (vm.nodes, vm.phys) =
      some (addr, m, st) ∧
      ∀ phys, Sound live start n (vm.give pages (addr, { m with lock := false }, st.1, phys)) := by
  obtain ⟨addr, t, st, eq, nodes, tiles, used⟩ := allocVirt_step
    { vm.mgr with lock := true } (vm.nodes, vm.phys) creates sound.nodes small sound.tiles fits pos
    room
  refine ⟨addr, _, st, eq, fun phys => ⟨⟨tiles, ?_⟩, nodes, rfl⟩⟩
  rw [Vm.give, if_neg (Nat.ne_of_gt pos)]
  exact (sound.held.cons _).trans used.symm

theorem malloc_sound (fits : start + 4096 * n ≤ 2 ^ 64) {vm : Vm σ}
    (creates : Creates src live (vm.nodes, vm.phys) vm.mgr.tree) (sound : Sound live start n vm)
    (small : top vm.mgr.tree ≤ 250) {pageCount : Nat} {write exec kernel : Bool}
    (met : (MgrCall.malloc pageCount write exec kernel).Met vm) :
    ∃ vm', (MgrCall.malloc pageCount write exec kernel).step src vm = some vm' ∧
      Sound live start n vm' := by
  by_cases none : pageCount = 0
  · exact ⟨vm, by simp [MgrCall.step, mallocPages, none, Vm.give], sound⟩
  · obtain ⟨addr, m, st, eq, sound'⟩ := request_step fits creates sound small
      (Nat.pos_of_ne_zero none) (met (Nat.pos_of_ne_zero none))
    exact ⟨_, by simp [MgrCall.step, mallocPages, none, sound.unlocked, eq]; rfl, sound' _⟩

theorem step_sound (fresh : FreshSource src live) (pos : 0 < n)
    (fits : start + 4096 * n ≤ 2 ^ 64) {vm : Vm σ} (sound : Sound live start n vm) {c : MgrCall}
    (clear : c.Clear src vm) : ∃ vm', c.step src vm = some vm' ∧ Sound live start n vm' := by
  obtain ⟨met, small, ready⟩ := clear
  have creates : Creates src live (vm.nodes, vm.phys) vm.mgr.tree := fresh.creates sound.nodes
  cases c with
  | malloc pageCount write exec kernel => exact malloc_sound fits creates sound small met
  | map mapAddr pageCount kernel =>
    by_cases none : pageCount = 0 ∨ mapAddr % 0x1000 ≠ 0
    · have kept : (if mapAddr % 0x1000 ≠ 0 then 0 else pageCount) = 0 := by
        split <;> omega
      exact ⟨vm, by simp [MgrCall.step, mapMemory, if_pos none, Vm.give, kept], sound⟩
    · obtain ⟨ne, aligned⟩ := not_or.mp none
      have asked : (if mapAddr % 0x1000 ≠ 0 then 0 else pageCount) = pageCount := if_neg aligned
      rw [MgrCall.Met, MgrCall.pages, asked] at met
      obtain ⟨addr, m, st, eq, sound'⟩ :=
        request_step fits creates sound small (Nat.pos_of_ne_zero ne) (met (Nat.pos_of_ne_zero ne))
      exact ⟨_, by simp [MgrCall.step, mapMemory, if_neg none, asked, sound.unlocked, eq]; rfl,
        sound' _⟩
  | free addr parentNull =>
    obtain ⟨m, st, eq, unlocked, nodes, tiles, used⟩ := freePages_step fresh parentNull
      (vm.nodes, vm.phys) sound.unlocked sound.nodes small sound.tiles (by omega) fits ready
    refine ⟨⟨m, st.1, st.2, vm.held.filter (·.1 ≠ addr)⟩, by simp [MgrCall.step, eq],
      ⟨tiles, ?_⟩, nodes, unlocked⟩
    rw [used]
    exact sound.held.filter _

theorem createMgr_sound (fresh : FreshSource src live) (pos : 0 < n) (st : σ × Phys) :
    ∃ m st', createMgr src start n st = some (m, st') ∧
      ∀ pml4t, Sound live start n ⟨{ m with pml4t }, st'.1, st'.2, []⟩ := by
  have empty : Nodes (live st.1) .nil := ⟨List.nodup_nil, by simp, trivial⟩
  obtain ⟨t, st', ptr, eq, list, nodes⟩ := insertNode_nodes (fresh.creates empty) empty (by decide)
    start n
    (A := []) (B := []) rfl (by simp) (by simp)
  refine ⟨_, st', by simp [createMgr, eq]; rfl, fun pml4t => ⟨⟨?_, ?_⟩, nodes, rfl⟩⟩
  · show Tiles AvlNode.addr AvlNode.len start (start + 4096 * n) t.toList
    rw [list]
    exact ⟨rfl, Nat.mul_pos (by decide) pos, rfl⟩
  · show [].Perm (blocks t.toList)
    rw [list]
    exact .nil

/-- Whatever page tables the manager is given, its blocks tile its range after every call of
a run in which each call is clear when it is made. -/
theorem mgr_run_tiled (fresh : FreshSource src live) (start n : Nat) (pos : 0 < n)
    (fits : start + 4096 * n ≤ 2 ^ 64) (st : σ × Phys) :
    ∃ m st', createMgr src start n st = some (m, st') ∧
      ∀ pml4t calls, All (MgrCall.step src) (MgrCall.Clear src)
          ⟨{ m with pml4t }, st'.1, st'.2, []⟩ calls →
        ∀ before, before <+: calls → ∃ vm,
          run (MgrCall.step src) ⟨{ m with pml4t }, st'.1, st'.2, []⟩ before = some vm ∧
            Tiled start n vm := by
  obtain ⟨m, st', made, sound⟩ := createMgr_sound fresh pos st
  refine ⟨m, st', made, fun pml4t calls clear before part => ?_⟩
  obtain ⟨vm, eq, final⟩ := run_keeps (fun _ _ sound clear => step_sound fresh pos fits sound clear)
    part (sound pml4t) clear
  exact ⟨vm, eq, final.toTiled⟩

end Runs

/- A source that numbers its nodes, and a machine with empty tables and sixteen pages. -/
def counter : NodeSource Nat := ⟨fun st => some (st.1, st.1 + 1, st.2), fun _ st => some st⟩

theorem counter_fresh : FreshSource counter fun k p => p < k :=
  ⟨fun st => ⟨st.1, (st.1 + 1, st.2), rfl, Nat.lt_irrefl _, Nat.lt_succ_self _,
    fun _ old => Nat.lt_succ_of_lt old⟩, fun _ st _ => ⟨st, rfl, fun _ _ old => old⟩⟩

def blankPhys : Phys := ⟨fun _ _ => 0, (List.range 16).map fun i => 0x2000 + 0x1000 * i, 0⟩

def kernStart : Nat := 0xffff800001000000

theorem mgr_run_tiled_split : ∃ m st, createMgr counter kernStart 3 (0, blankPhys) = some (m, st) ∧
    ∃ vm, run (MgrCall.step counter) ⟨{ m with pml4t := 0x1000 }, st.1, st.2, []⟩
      [.malloc 1 true false true, .free kernStart (true, true)] = some vm ∧
      Tiled kernStart 3 vm := by
  obtain ⟨m, st, made, runs⟩ := mgr_run_tiled counter_fresh kernStart 3
    (by decide) (by decide) (0, blankPhys)
  refine ⟨m, st, made, runs 0x1000 _ ?_ _ (List.prefix_refl _)⟩
  obtain ⟨rfl, rfl⟩ := Prod.mk.inj (Option.some.inj made)
  refine ⟨⟨fun _ => ⟨⟨0, kernStart, 3, false⟩, by decide, by decide, by decide⟩, by decide,
    trivial⟩,
    fun vm eq => ?_⟩
  obtain rfl := Option.some.inj eq
  refine ⟨⟨fun none => absurd none (by decide), by decide, fun n found used => ?_⟩,
    fun _ _ => trivial⟩
  obtain rfl := Option.some.inj found
  refine ⟨by decide, by decide, by decide, fun parentNull st r merged => ?_⟩
  obtain rfl := Option.some.inj merged
  show ∀ v ∈ [(⟨0, kernStart, 1, false⟩ : AvlNode), ⟨1, kernStart + 4096, 2, false⟩],
    v.allocated = false → v.addr = kernStart + 4096 →
      removable v.addr (.node ⟨0, kernStart, 1, false⟩ 1 .nil
        (.node ⟨1, kernStart + 4096, 2, false⟩ 0 .nil .nil)) = true
  decide

/-- Three pages taken one by one leave a root with two leaves; the second release has to
take out that root. With a NULL in the unset word its successor stays in the tree twice,
otherwise the code writes through that word. -/
theorem mgr_run_keeps_successor :
    ∃ m st, createMgr counter kernStart 3 (0, blankPhys) = some (m, st) ∧
    ∃ vm, run (MgrCall.step counter) ⟨{ m with pml4t := 0x1000 }, st.1, st.2, []⟩
        [.malloc 1 true false true, .malloc 1 true false true, .malloc 1 true false true,
          .free kernStart (true, true)] = some vm ∧
      Tiled kernStart 3 vm ∧ vm.phys.misses = 0 ∧
      vm.held = [(kernStart + 0x2000, 1), (kernStart + 0x1000, 1)] ∧
      (∀ b, (MgrCall.free (kernStart + 0x1000) (false, b)).step counter vm = none) ∧
      ∀ b, ∃ vm', (MgrCall.free (kernStart + 0x1000) (true, b)).step counter vm = some vm' ∧
        vm'.mgr.tree.toList.map (fun v => (v.addr, v.pageCount)) =
          [(kernStart, 2), (kernStart + 0x2000, 1), (kernStart + 0x2000, 1)] ∧
        ¬ Tiled kernStart 3 vm' := by
  refine ⟨_, _, rfl, _, rfl, ⟨by decide, ?_⟩, ?_, rfl, fun b => rfl, fun b => ⟨_, rfl, rfl, ?_⟩⟩
  · decide
  · decide
  · exact fun tiled => absurd tiled.tiles (by decide)

end Gapxos
