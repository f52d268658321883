import Gapxos.Lib.Runs
import Gapxos.Vmm.NodePages

/-! Runs of create_node and free_node. free_node takes the index of a node the wrong way
round, so it clears the right bit for the first node of a page only; where that happens
to do no harm, no node is handed out twice. -/
namespace Gapxos
open Radix Linked Runs

section Release

variable {head : Nat} {phys : Phys} {live pages : List Nat}

theorem NodeInv.forget (inv : NodeInv head phys live pages) (n : Nat) :
    NodeInv head phys (live.erase n) pages := by
  have old : ∀ k ∈ live.erase n, k ∈ live := fun k inside => List.mem_of_mem_erase inside
  exact ⟨inv.chain, inv.back, inv.ptrs, inv.distinct, fun k inside => inv.slots k (old k inside),
    inv.nodup.erase n, fun page within k less inside => inv.bits page within k less (old _ inside),
    fun page within k less above inside => inv.high page within k less above (old _ inside),
    inv.stack, inv.entries, inv.once, inv.apart⟩

theorem keep_bit {b : Nat} (less : b < 64) (ne : b ≠ 0) : (~~~(1#64)).getLsbD b = true := by
  revert b
  decide

theorem clear_or (w : Word) : w &&& ~~~1#64 ||| 1 = w ||| 1 := by
  apply BitVec.eq_of_getLsbD_eq
  intro b less
  rw [BitVec.getLsbD_or, BitVec.getLsbD_or, BitVec.getLsbD_and]
  by_cases zero : b = 0
  · subst zero
    simp
  · rw [keep_bit less zero, Bool.and_true]

theorem NodeInv.clear_first (inv : NodeInv head phys live pages) {page : Nat}
    (within : page ∈ pages) :
    NodeInv head (phys.write (frameNo page) 2 (phys.mem (frameNo page) 2 &&& ~~~1#64))
      (live.erase (nodeSlot page 0)) pages := by
  have inv' := inv.forget (nodeSlot page 0)
  refine inv'.rewrite _ (by decide) inv'.slots inv'.nodup ?_ ?_
  · intro q there k less inside
    have set := inv'.bits q there k less inside
    rw [slotBit] at set ⊢
    by_cases hit : frameNo q = frameNo page ∧ slotWord k = 2
    · -- another node of the page, so another bit
      have same := frameNo_inj (inv.ptrs q there) (inv.ptrs page within) hit.1
      have other : k ≠ 0 := by
        rintro rfl
        rw [same] at inside
        exact absurd inside (List.Nodup.not_mem_erase inv.nodup)
      rw [hit.2] at set ⊢
      rw [Phys.write_mem, hit.1, store_same, BitVec.getLsbD_and, ← hit.1, set, Bool.true_and]
      have small : k < 64 := by
        rcases (slotWord_index less).2.2 with ⟨_, small⟩ | ⟨three, _⟩
        · exact small
        · rw [hit.2] at three
          exact absurd three (by decide)
      exact keep_bit (Nat.mod_lt _ (by decide)) (by omega)
    · rw [Phys.write_mem, store_other hit]
      exact set
  · intro q there k less above inside
    have full := inv'.high q there k less above inside
    rw [Phys.write_mem]
    by_cases hit : frameNo q = frameNo page
    · rw [hit, store_same, clear_or, ← hit]
      exact full
    · rw [store_other_frame hit]
      exact full

theorem NodeInv.pushed (inv : NodeInv head phys live pages) (page : Nat) (within : page ∈ pages) :
    (phys.freePages ++ [page]).Nodup ∧
    (∀ e ∈ phys.freePages ++ [page], e % 4096 = 0 ∧ e < 2 ^ 64) ∧
    (∀ e ∈ phys.freePages ++ [page], physicalMapOffset + e ∉ phys.freePages ++ [page]) ∧
    ∀ q ∈ pages, q ≠ page →
      q ∉ phys.freePages ++ [page] ∧ q - physicalMapOffset ∉ phys.freePages ++ [page] := by
  have ptr := inv.ptrs page within
  have apart := inv.apart page within
  have off : physicalMapOffset = 0xffffc00000000000 := rfl
  refine ⟨?_, ?_, ?_, ?_⟩
  · refine List.nodup_append.mpr ⟨inv.stack, by simp, fun e inside q new same => ?_⟩
    rw [List.mem_singleton.mp new] at same
    exact apart.1 (same ▸ inside)
  · intro e inside
    rcases List.mem_append.mp inside with old | new
    · exact inv.entries e old
    · rw [List.mem_singleton.mp new]
      exact ⟨ptr.2.2, ptr.2.1⟩
  · intro e inside twice
    have bound := ptr.1
    rcases List.mem_append.mp inside with old | new <;>
      rcases List.mem_append.mp twice with old' | new'
    · exact inv.once e old old'
    · rw [← List.mem_singleton.mp new', Nat.add_sub_cancel_left] at apart
      exact apart.2 old
    · rw [List.mem_singleton.mp new] at old'
      have := (inv.entries _ old').2
      omega
    · rw [List.mem_singleton.mp new] at new'
      have := List.mem_singleton.mp new'
      omega
  · intro q there ne
    have qtr := inv.ptrs q there
    have apart' := inv.apart q there
    have bound := ptr.1
    have := qtr.2.1
    refine ⟨fun inside => ?_, fun inside => ?_⟩
    · rcases List.mem_append.mp inside with old | new
      · exact apart'.1 old
      · exact ne (List.mem_singleton.mp new)
    · rcases List.mem_append.mp inside with old | new
      · exact apart'.2 old
      · have := List.mem_singleton.mp new
        omega

theorem oneShl_zero (wild : Int → Word) : oneShl wild 0 = 1#64 := by
  rw [oneShl, if_pos (by decide)]
  decide

theorem freeNode_slot (wild : Int → Word) {page k : Nat} (ptr : NodePtr page)
    (less : k < nodesPerPage) (st : Nat × Phys) :
    freeNode wild (nodeSlot page k) st =
      (setHeaderBit wild page (-(k : Int)) false st.2).bind fun phys =>
        if pageEmpty (phys.mem (frameNo page)) then dropPage page (frameNo page) (st.1, phys)
        else some (st.1, phys) := by
  have own := getNodePage_slot ptr.2.2 less
  have diff : (page + 32 : Int) - nodeSlot page k = -(48 * k) := by
    rw [nodeSlot]
    omega
  have idx : ((page + 32 : Int) - nodeSlot page k).tdiv 48 = -k := by
    rw [diff, Int.neg_tdiv, Int.mul_tdiv_cancel_left _ (by decide)]
  simp only [freeNode, own, idx, ptrFrame_eq ptr, Option.bind_some]

/-- The word of the page that free_node changes, and the bits it clears there. -/
def freedWord (k : Nat) : Fin 512 := if k < 64 then 2 else 1

def freedMask (wild : Int → Word) (k : Nat) : Word := oneShl wild (-((k % 64 : Nat) : Int))

/-- The state free_node looks at when it decides about the page. -/
def freed (wild : Int → Word) (page k : Nat) (phys : Phys) : Phys :=
  phys.write (frameNo page) (freedWord k)
    (phys.mem (frameNo page) (freedWord k) &&& ~~~freedMask wild k)

theorem freeNode_freed (wild : Int → Word) {page k : Nat} (ptr : NodePtr page)
    (less : k < nodesPerPage) (head : Nat) (phys : Phys) :
    freeNode wild (nodeSlot page k) (head, phys) =
      if pageEmpty ((freed wild page k phys).mem (frameNo page)) then
        dropPage page (frameNo page) (head, freed wild page k phys)
      else some (head, freed wild page k phys) := by
  have index : Fin.ofNat 512 (2 + (-(k : Int)).tdiv 64).toNat = freedWord k ∧
      (-(k : Int)).tmod 64 = -((k % 64 : Nat) : Int) := by
    -- both truncate towards 0, and there are only as many nodes as fit on a page
    revert k
    decide
  rw [freeNode_slot wild ptr less]
  have set : setHeaderBit wild page (-(k : Int)) false phys = some (freed wild page k phys) := by
    simp only [setHeaderBit, ptrFrame_eq ptr, Option.map_some, index.1, index.2,
      Bool.false_eq_true, if_false, freed, freedMask]
  rw [set, Option.bind_some]

theorem freedMask_first {wild : Int → Word} {k : Nat} (first : k % 64 = 0) :
    freedMask wild k = 1#64 := by
  rw [freedMask, first]
  exact oneShl_zero wild

theorem NodeInv.unused (inv : NodeInv head phys live pages) {page : Nat} (within : page ∈ pages)
    (empty : pageEmpty (phys.mem (frameNo page)) = true) :
    ∀ k < nodesPerPage, nodeSlot page k ∉ live := by
  intro k less inside
  have zero : phys.mem (frameNo page) 2 = 0 := by
    simp only [pageEmpty, Bool.and_eq_true, beq_iff_eq] at empty
    exact empty.1
  rcases (slotWord_index less).2.2 with ⟨word, _⟩ | ⟨_, above⟩
  · have set := inv.bits page within k less inside
    rw [slotBit, word, zero] at set
    simp at set
  · have full := inv.high page within k less above inside
    rw [zero] at full
    exact absurd full (by decide)

theorem dropPage_step (inv : NodeInv head phys live pages) {page : Nat} (within : page ∈ pages)
    (unused : ∀ k < nodesPerPage, nodeSlot page k ∉ live)
    (linked : head = page ∨ nextPtr phys.mem page ≠ 0) :
    ∃ head' phys' pages', dropPage page (frameNo page) (head, phys) = some (head', phys') ∧
      NodeInv head' phys' live pages' := by
  obtain ⟨stack, entries, once, apart⟩ := inv.pushed page within
  obtain ⟨xs, ys, rfl⟩ := List.append_of_mem within
  obtain ⟨head', phys', eq, list, dropped⟩ := inv.list.drop linked
  have out : page ∉ xs ++ ys := (List.nodup_cons.mp (List.nodup_middle.mp inv.distinct)).1
  have rest : ∀ q ∈ xs ++ page :: ys, q ≠ page → q ∈ xs ++ ys := by
    intro q there ne
    simp only [List.mem_append, List.mem_cons] at there ⊢
    tauto
  have old : ∀ q ∈ xs ++ ys, q ∈ xs ++ page :: ys := by
    intro q there
    simp only [List.mem_append, List.mem_cons] at there ⊢
    tauto
  refine ⟨head', phys', xs ++ ys, eq, inv.relink list (fun q there k less inside => ?_)
    (fun f => ⟨dropped.behind f 2 (by decide) (by decide),
      dropped.behind f 3 (by decide) (by decide)⟩) ?_ ?_ ?_ ?_⟩
  · exact rest q there fun same => unused k less (same ▸ inside)
  · exact dropped.pushed ▸ stack
  · exact dropped.pushed ▸ entries
  · exact dropped.pushed ▸ once
  · intro q there
    rw [dropped.pushed]
    exact apart q (old q there) fun same => out (same ▸ there)

theorem clear_even {w : Word} (even : w.toNat % 2 = 0) : w &&& ~~~1#64 = w := by
  apply BitVec.eq_of_getLsbD_eq
  intro b less
  rw [BitVec.getLsbD_and]
  by_cases zero : b = 0
  · subst zero
    have bit : w.getLsbD 0 = false := by simp [BitVec.getLsbD, Nat.testBit_zero, even]
    rw [bit, Bool.false_and]
  · rw [keep_bit less zero, Bool.and_true]

structure FreeNodeOk (head : Nat) (m : Mem) (node : Nat) : Prop where
  slot : node = nodeSlot (getNodePage node) 0 ∨ node = nodeSlot (getNodePage node) 64
  /-- a page that is given back is the first of the list or not the last -/
  linked : node = nodeSlot (getNodePage node) 0 →
    pageEmpty (store m (frameNo (getNodePage node)) 2 (m (frameNo (getNodePage node)) 2 &&& ~~~1#64)
      (frameNo (getNodePage node))) = true →
    head = getNodePage node ∨ nextPtr m (getNodePage node) ≠ 0

theorem freeNode_step (inv : NodeInv head phys live pages) (wild : Int → Word) {node : Nat}
    (inside : node ∈ live) (ok : FreeNodeOk head phys.mem node) :
    ∃ head' phys' pages', freeNode wild node (head, phys) = some (head', phys') ∧
      NodeInv head' phys' (live.erase node) pages' := by
  obtain ⟨page, within, k, less, rfl⟩ := inv.slots node inside
  have ptr := inv.ptrs page within
  have own := getNodePage_slot ptr.2.2 less
  obtain ⟨slot, linked⟩ := ok
  rw [own] at slot linked
  rcases slot with first | later
  · obtain rfl := (nodeSlot_inj ptr.2.2 ptr.2.2 less (by decide) first).2
    have inv' := inv.clear_first within
    have cleared : freed wild page 0 phys =
        phys.write (frameNo page) 2 (phys.mem (frameNo page) 2 &&& ~~~1#64) := by
      rw [freed, freedMask_first rfl]
      rfl
    rw [freeNode_freed wild ptr less, cleared]
    split
    · rename_i empty
      refine dropPage_step inv' within (inv'.unused within empty) ?_
      rw [Phys.write_mem, nextPtr_store (.inr (by decide))]
      exact linked first empty
    · exact ⟨head, _, pages, rfl, inv'⟩
  · obtain rfl := (nodeSlot_inj ptr.2.2 ptr.2.2 less (by decide) later).2
    have aligned := inv.list.next_aligned within
    have kept : phys.mem (frameNo page) 1 &&& ~~~1#64 = phys.mem (frameNo page) 1 :=
      clear_even (by rw [nextPtr] at aligned; omega)
    -- the word before the header is the pointer to the next page
    have same : freed wild page 64 phys = phys := by
      rw [freed, freedMask_first rfl]
      simp only [freedWord, Nat.lt_irrefl, if_false, kept, Phys.write, store_self]
    rw [freeNode_freed wild ptr less, same]
    have busy : ¬ pageEmpty (phys.mem (frameNo page)) = true :=
      fun empty => inv.unused within empty 64 less inside
    rw [if_neg busy]
    exact ⟨head, phys, pages, rfl, inv.forget _⟩

end Release

/-- The allocator and its users: `live` are the nodes that were handed out and not given
back. -/
structure NodeVm where
  head : Nat
  phys : Phys
  live : List Nat

/- The users also write to their nodes. -/
inductive NodeCall
  | create
  | free (node : Nat)
  | store (node : Nat) (j : Fin 6) (w : Word)

def NodeCall.step (wild : Int → Word) (vm : NodeVm) : NodeCall → Option NodeVm
  | create => (createNode wild (vm.head, vm.phys)).map fun r => ⟨r.2.1, r.2.2, r.1 :: vm.live⟩
  | free node =>
    (freeNode wild node (vm.head, vm.phys)).map fun r => ⟨r.1, r.2, vm.live.erase node⟩
  | store node j w => (ptrFrame (getNodePage node)).map fun f =>
    { vm with phys := vm.phys.write f (Fin.ofNat 512 (node % 4096 / 8 + j)) w }

def NodeCall.Clear (vm : NodeVm) : NodeCall → Prop
  | create => ∀ pages, Seg 0 (nextPtr vm.phys.mem) vm.head pages 0 →
    SearchOk vm.phys.mem vm.phys.freePages pages
  | free node => node ∈ vm.live ∧ FreeNodeOk vm.head vm.phys.mem node
  | store node _ _ => node ∈ vm.live

/-- The nodes in use are distinct nodes of pages on the list, and none of these pages is
with the PMM, by its address or by its pointer. -/
structure NodesSound (vm : NodeVm) (pages : List Nat) : Prop where
  list : Seg 0 (nextPtr vm.phys.mem) vm.head pages 0
  distinct : vm.live.Nodup
  placed : ∀ n ∈ vm.live, ∃ page ∈ pages, ∃ k < nodesPerPage, n = nodeSlot page k
  kept : ∀ n ∈ vm.live, getNodePage n ∉ vm.phys.freePages ∧
    getNodePage n - physicalMapOffset ∉ vm.phys.freePages

theorem NodeInv.sound {vm : NodeVm} {pages : List Nat}
    (inv : NodeInv vm.head vm.phys vm.live pages) : NodesSound vm pages := by
  refine ⟨inv.chain, inv.nodup, inv.slots, fun n inside => ?_⟩
  obtain ⟨page, within, k, less, rfl⟩ := inv.slots n inside
  rw [getNodePage_slot (inv.ptrs page within).2.2 less]
  exact inv.apart page within

theorem NodeCall.step_inv (wild : Int → Word) (vm : NodeVm) (c : NodeCall)
    (inv : ∃ pages, NodeInv vm.head vm.phys vm.live pages) (clear : c.Clear vm) :
    ∃ vm', c.step wild vm = some vm' ∧ ∃ pages, NodeInv vm'.head vm'.phys vm'.live pages := by
  obtain ⟨pages, inv⟩ := inv
  cases c with
  | create =>
    obtain ⟨n, head, phys, pages', eq, inv'⟩ := createNode_step inv wild (clear pages inv.chain)
    exact ⟨⟨head, phys, n :: vm.live⟩, by simp [NodeCall.step, eq], pages', inv'⟩
  | free node =>
    obtain ⟨head, phys, pages', eq, inv'⟩ := freeNode_step inv wild clear.1 clear.2
    exact ⟨⟨head, phys, vm.live.erase node⟩, by simp [NodeCall.step, eq], pages', inv'⟩
  | store node j w =>
    obtain ⟨page, within, k, less, rfl⟩ := inv.slots node clear
    have ptr := inv.ptrs page within
    have own := getNodePage_slot ptr.2.2 less
    -- the six words of a node lie behind the header
    have index : ∀ i < 4, Fin.ofNat 512 (nodeSlot page k % 4096 / 8 + j) ≠ Fin.ofNat 512 i := by
      intro i small same
      have place : nodeSlot page k % 4096 = 32 + 48 * k := by
        have aligned := ptr.2.2
        simp only [nodeSlot, nodesPerPage] at less ⊢
        omega
      have bound := j.isLt
      simp only [Fin.ext_iff, Fin.ofNat, place, nodesPerPage] at same less
      rw [Nat.mod_eq_of_lt (by omega), Nat.mod_eq_of_lt (by omega)] at same
      omega
    have header : ∀ f i, i < 4 → (vm.phys.write (frameNo page)
        (Fin.ofNat 512 (nodeSlot page k % 4096 / 8 + j)) w).mem f (Fin.ofNat 512 i) =
        vm.phys.mem f (Fin.ofNat 512 i) :=
      fun f i small => store_other_index (index i small).symm
    refine ⟨_, by rw [NodeCall.step, own, ptrFrame_eq ptr, Option.map_some], pages, ?_⟩
    refine inv.rewrite w ⟨index 0 (by decide), index 1 (by decide)⟩ inv.slots inv.nodup ?_ ?_
    · intro q there i less' inside
      have set := inv.bits q there i less' inside
      rw [slotBit] at set ⊢
      rcases (slotWord_index less').2.2 with ⟨word, _⟩ | ⟨word, _⟩
      · rw [word] at set ⊢
        rw [← set]
        exact congrArg (BitVec.getLsbD · _) (header _ 2 (by decide))
      · rw [word] at set ⊢
        rw [← set]
        exact congrArg (BitVec.getLsbD · _) (header _ 3 (by decide))
    · intro q there i less' above inside
      rw [← inv.high q there i less' above inside]
      exact congrArg (· ||| 1) (header _ 2 (by decide))

/-- A stack of distinct page addresses, as the PMM keeps it. -/
def PageStack (stack : List Nat) : Prop :=
  stack.Nodup ∧ ∀ e ∈ stack, e % 4096 = 0 ∧ e < 2 ^ 46

theorem initial_inv {phys : Phys} (pages : PageStack phys.freePages) :
    NodeInv 0 phys [] [] := by
  refine ⟨rfl, trivial, by simp, List.nodup_nil, by simp, List.nodup_nil, by simp, by simp, pages.1,
    fun e inside => ?_, fun e inside twice => ?_, by simp⟩
  · have := pages.2 e inside
    omega
  · have := (pages.2 _ twice).2
    simp only [physicalMapOffset] at this
    omega

/-- Whatever the free pages hold and whatever an undefined shift yields. -/
theorem node_run_sound (wild : Int → Word) (phys : Phys) (stack : PageStack phys.freePages)
    (calls : List NodeCall) (clear : All (NodeCall.step wild) NodeCall.Clear ⟨0, phys, []⟩ calls)
    (before : List NodeCall) (part : before <+: calls) :
    ∃ vm pages, run (NodeCall.step wild) ⟨0, phys, []⟩ before = some vm ∧ NodesSound vm pages := by
  obtain ⟨vm, eq, pages, inv⟩ := run_keeps (NodeCall.step_inv wild) part
    ⟨[], initial_inv stack⟩ clear
  exact ⟨vm, pages, eq, inv.sound⟩

/- One free page, at 0x5000, and its pointer. -/
def onePage (header : Word) : Phys := ⟨fun f i => if f = 5 ∧ i = 2 then header else 0, [0x5000], 0⟩

def onePtr : Nat := physicalMapOffset + 0x5000

theorem node_run_sound_two : ∃ vm pages,
    run (NodeCall.step fun _ => 0) ⟨0, onePage 0, []⟩ [.create, .free (nodeSlot onePtr 0)] =
      some vm ∧ NodesSound vm pages := by
  refine node_run_sound _ (onePage 0) ⟨by decide, by decide⟩ _ ?_ _ (List.prefix_refl _)
  refine ⟨fun pages list => ?_, fun vm eq => ⟨?_, fun _ _ => trivial⟩⟩
  · obtain rfl : pages = [] := seg_unique list rfl
    refine ⟨by decide, ?_⟩
    rw [show find0Bit ((onePage 0).mem (0x5000 / 4096)) = some 0 by decide]
    decide
  · have made : (NodeCall.step (fun _ => 0) ⟨0, onePage 0, []⟩ .create).map
        (fun vm => (vm.head, vm.live)) = some (onePtr, [nodeSlot onePtr 0]) := by decide
    rw [eq, Option.map_some, Option.some.injEq, Prod.mk.injEq] at made
    refine ⟨by rw [made.2]; decide, .inl (by decide), fun _ _ => .inl ?_⟩
    rw [made.1]
    decide

/-- The shift the machine makes: the count is taken modulo 32. -/
def shll (bit : Int) : Word := ((1#32) <<< (bit.emod 32).toNat).signExtend 64

/-- A page whose header is left with the lower 32 bits set: node 32 is handed out, its bit is
not set, and it is handed out again. And on an empty page, with no shift beyond an int: the
page given back stands on the stack by its pointer, and the next create_node takes that for
an address. -/
theorem node_run_hands_out_twice :
    (∃ vm, run (NodeCall.step shll) ⟨0, onePage 0xffffffff, []⟩ [.create, .create] = some vm ∧
      vm.live = [nodeSlot onePtr 32, nodeSlot onePtr 32] ∧ ∀ pages, ¬ NodesSound vm pages) ∧
    ((run (NodeCall.step shll) ⟨0, onePage 0, []⟩ [.create, .free (nodeSlot onePtr 0)]).map
      (fun vm => (vm.live, vm.phys.freePages)) = some ([], [onePtr])) ∧
    (run (NodeCall.step shll) ⟨0, onePage 0, []⟩
      [.create, .free (nodeSlot onePtr 0), .create]).isNone = true := by
  refine ⟨?_, by decide, by decide⟩
  have twice : (run (NodeCall.step shll) ⟨0, onePage 0xffffffff, []⟩ [.create, .create]).map
      NodeVm.live = some [nodeSlot onePtr 32, nodeSlot onePtr 32] := by decide
  obtain ⟨vm, eq, live⟩ := Option.map_eq_some_iff.mp twice
  refine ⟨vm, eq, live, fun pages sound => ?_⟩
  have distinct := sound.distinct
  rw [live] at distinct
  simp at distinct

end Gapxos
