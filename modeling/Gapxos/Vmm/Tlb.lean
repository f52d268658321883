import Gapxos.Vmm.Exhausted
import Gapxos.Vmm.Owners

/-! The TLB beside the page tables. set_page ends with an invlpg of its page, free_page does
not: the page it gives back to the PMM can still be reached. -/
namespace Gapxos
open Radix Runs SearchTree

/-- What the TLB may hold: a frame for a page, both by their numbers. -/
abbrev Tlb := Nat → Nat → Prop

/-- Every translation that is present at some moment may be taken in. -/
def Tlb.see (cr3 : Nat) (t : Tlb) (m : Mem) : Tlb :=
  fun page f => t page f ∨ ∃ w, pageOf w = page ∧ walk m cr3 w = some f

/-- Afterwards only what is present is held for the page of `v`. -/
def Tlb.invlpg (cr3 : Nat) (t : Tlb) (m : Mem) (v : Nat) : Tlb :=
  fun page f => if page = pageOf v then walk m cr3 v = some f else t page f

/-- The memories that get_page_table_entry goes through, one for each level. -/
def openMems (s : Phys) (cr3 v : Nat) (fl : Word) : List Mem :=
  [1, 2, 3].map fun k => (openPath s cr3 fl ((path v).take k)).1.mem

/- Memory and TLB of the processor. -/
structure Core where
  phys : Phys
  tlb : Tlb

def Core.setPage (x : Core) (pml4t v paddr : Nat) (flags : PageFlags) : Core :=
  let after := Gapxos.setPage x.phys pml4t v paddr flags
  let cr3 := pml4t / 4096
  let seen := (openMems x.phys cr3 v (tableFlags flags) ++ [after.mem]).foldl (Tlb.see cr3) x.tlb
  ⟨after, seen.invlpg cr3 after.mem v⟩

def Core.freePage (x : Core) (pml4t v : Nat) : Core :=
  let after := Gapxos.freePage x.phys pml4t v
  let cr3 := pml4t / 4096
  ⟨after, (openMems x.phys cr3 v 0 ++ [after.mem]).foldl (Tlb.see cr3) x.tlb⟩

/- The loops of malloc_pages, map_memory and free_pages. -/
def Core.mapFreshPage (pml4t addr : Nat) (flags : PageFlags) (x : Core) (i : Nat) : Core :=
  let (page, phys) := pmmAllocPage x.phys
  Core.setPage ⟨phys, x.tlb⟩ pml4t ((addr + i * 0x1000) % 2 ^ 64) page flags

def Core.mapRangePage (pml4t addr mapAddr : Nat) (flags : PageFlags) (x : Core) (i : Nat) : Core :=
  x.setPage pml4t ((addr + i * 0x1000) % 2 ^ 64) ((mapAddr + i * 0x1000) % 2 ^ 64) flags

def Core.unmapPage (pml4t addr : Nat) (x : Core) (i : Nat) : Core :=
  x.freePage pml4t ((addr + i * 0x1000) % 2 ^ 64)

/-- A manager and the TLB of the processor that calls it. -/
structure TlbVm (σ : Type) where
  vm : Vm σ
  tlb : Tlb

section Calls

variable {σ : Type} (src : NodeSource σ)

/-- The TLB behind the loop of a call, which follows the search in the tree or comes before
the blocks are joined. -/
def MgrCall.loopTlb (x : TlbVm σ) : MgrCall → Tlb
  | malloc pageCount write exec kernel =>
    if pageCount = 0 then x.tlb
    else match allocVirt src { x.vm.mgr with lock := true } pageCount (x.vm.nodes, x.vm.phys) with
      | none => x.tlb
      | some r => ((List.range pageCount).foldl
          (Core.mapFreshPage x.vm.mgr.pml4t r.1 (mallocFlags write exec kernel))
          ⟨r.2.2.2, x.tlb.see (x.vm.mgr.pml4t / 4096) r.2.2.2.mem⟩).tlb
  | map mapAddr pageCount kernel =>
    if pageCount = 0 ∨ mapAddr % 0x1000 ≠ 0 then x.tlb
    else match allocVirt src { x.vm.mgr with lock := true } pageCount (x.vm.nodes, x.vm.phys) with
      | none => x.tlb
      | some r => ((List.range pageCount).foldl
          (Core.mapRangePage x.vm.mgr.pml4t r.1 mapAddr (mapFlags kernel))
          ⟨r.2.2.2, x.tlb.see (x.vm.mgr.pml4t / 4096) r.2.2.2.mem⟩).tlb
  | free addr _ =>
    match avlFind addr x.vm.mgr.tree with
    | none => x.tlb
    | some n =>
      if n.allocated then ((List.range n.pageCount).foldl (Core.unmapPage x.vm.mgr.pml4t addr)
        ⟨x.vm.phys, x.tlb⟩).tlb
      else x.tlb

def MgrCall.tlbStep (x : TlbVm σ) (c : MgrCall) : Option (TlbVm σ) :=
  (c.step src x.vm).map fun vm =>
    ⟨vm, (c.loopTlb src x).see (x.vm.mgr.pml4t / 4096) vm.phys.mem⟩

end Calls

/-- No translation for a page of the range leads to a frame on the stack of free pages. -/
def Flushed (start n : Nat) (phys : Phys) (t : Tlb) : Prop :=
  ∀ v, start ≤ v → v < start + 4096 * n → ∀ f, t (pageOf v) f → ∀ a ∈ phys.freePages, a / 4096 ≠ f

/- The stack has distinct pages below 2^48, and the TLB at least what is present. -/
structure TlbInv (cr3 start n : Nat) (phys : Phys) (t : Tlb) : Prop where
  tables : TableTree phys.mem cr3
  holds : ∀ w f, walk phys.mem cr3 w = some f → t (pageOf w) f
  flushed : Flushed start n phys t
  distinct : (phys.freePages.map (· / 4096)).Nodup
  low : ∀ a ∈ phys.freePages, a < 2 ^ 48

section Steps

variable {cr3 start n v : Nat} {s s' : Phys} {t : Tlb}

theorem see_all (ms : List Mem) (page f : Nat) :
    ms.foldl (Tlb.see cr3) t page f ↔
      t page f ∨ ∃ m ∈ ms, ∃ w, pageOf w = page ∧ walk m cr3 w = some f := by
  induction ms generalizing t with
  | nil => simp
  | cons m ms ih =>
    rw [List.foldl_cons, ih, List.exists_mem_cons_iff, ← or_assoc]
    rfl

theorem TlbInv.quiet (inv : TlbInv cr3 start n s t) (tables : TableTree s'.mem cr3)
    (walks : ∀ w, walk s'.mem cr3 w = walk s.mem cr3 w) (stack : s'.freePages <+: s.freePages) :
    TlbInv cr3 start n s' t where
  tables := tables
  holds w f at_w := inv.holds w f ((walks w).symm.trans at_w)
  flushed v low high f held a inside := inv.flushed v low high f held a (stack.subset inside)
  distinct := inv.distinct.sublist (stack.sublist.map _)
  low a inside := inv.low a (stack.subset inside)

theorem TlbInv.see (inv : TlbInv cr3 start n s t) (ms : List Mem)
    (walks : ∀ m ∈ ms, ∀ w f, walk m cr3 w = some f → walk s.mem cr3 w = some f) :
    TlbInv cr3 start n s (ms.foldl (Tlb.see cr3) t) := by
  have old : ∀ page f, ms.foldl (Tlb.see cr3) t page f ↔ t page f := by
    intro page f
    rw [see_all]
    constructor
    · rintro (held | ⟨m, inside, w, rfl, at_w⟩)
      · exact held
      · exact inv.holds w f (walks m inside w f at_w)
    · exact .inl
  constructor
  · exact inv.tables
  · intro w f at_w
    rw [old]
    exact inv.holds w f at_w
  · intro v low high f held
    exact inv.flushed v low high f ((old _ _).mp held)
  · exact inv.distinct
  · exact inv.low

theorem pmmAllocPage_drops (s : Phys) : (pmmAllocPage s).2.freePages <+: s.freePages := by
  unfold pmmAllocPage
  split
  · exact List.dropLast_prefix _
  · exact List.prefix_refl _

theorem nextTable_stack (s : Phys) (f : Nat) (i : Fin 512) (fl : Word) :
    (nextTable s f i fl).1.freePages <+: s.freePages := by
  unfold nextTable
  split
  · exact List.prefix_refl _
  · exact pmmAllocPage_drops s

theorem openPath_stack (s : Phys) (f : Nat) (fl : Word) (p : List (Fin 512)) :
    (openPath s f fl p).1.freePages <+: s.freePages := by
  induction p generalizing s f with
  | nil => exact List.prefix_refl _
  | cons i p ih => exact (ih _ _).trans (nextTable_stack s f i fl)

theorem walk_observes : Observes (fun e => e = 0) translate none where
  absent e blank := by rw [blank]; rfl
  congr := translate_observes.congr
  empty w t e last blank := translate_observes.empty w t e last (by rw [blank]; rfl)
  missing := translate_observes.missing

theorem TablesReady.mems {fl : Word} (ready : TablesReady s cr3 v) (tables : TableTree s.mem cr3)
    (flag : FlagWord fl) : ∀ m ∈ openMems s cr3 v fl, ∀ w, walk m cr3 w = walk s.mem cr3 w := by
  intro m inside w
  obtain ⟨k, few, rfl⟩ := List.mem_map.mp inside
  have le : k ≤ 3 := by
    simp only [List.mem_cons, List.not_mem_nil, or_false] at few
    omega
  obtain ⟨s', pt, eq, _, _, same⟩ := ready.opened walk_observes tables flag le
  rw [eq]
  exact same w

variable {pml4t : Nat}

theorem TlbInv.setPage {x : Core} (inv : TlbInv (pml4t / 4096) start n x.phys x.tlb)
    (ready : TablesReady x.phys (pml4t / 4096) v) {paddr : Nat} {flags : PageFlags}
    (mapped : flags.present = true)
    (off : ∀ a ∈ x.phys.freePages, a / 4096 ≠ paddr / 4096 % 2 ^ 36) :
    TlbInv (pml4t / 4096) start n (x.setPage pml4t v paddr flags).phys
      (x.setPage pml4t v paddr flags).tlb := by
  have flag := tableFlags_flagWord flags
  have mems := ready.mems inv.tables flag
  obtain ⟨s', pt, eq, tree, upper, same⟩ :=
    ready.opened walk_observes inv.tables flag (Nat.le_refl 3)
  have mem : (x.setPage pml4t v paddr flags).phys.mem =
      store s'.mem pt (Fin.ofNat 512 (v / 2 ^ 12)) (leafEntry paddr flags) := by
    simp only [Core.setPage, setPage_mem, eq]
  have stack : (x.setPage pml4t v paddr flags).phys.freePages <+: x.phys.freePages := by
    simp only [Core.setPage, Gapxos.setPage, getPageTableEntry_masked]
    exact openPath_stack _ _ _ _
  obtain ⟨own, others⟩ := leaf_walk tree upper paddr mapped
  rw [← mem] at own others
  have kept : ∀ w, pageOf w ≠ pageOf v → walk (x.setPage pml4t v paddr flags).phys.mem
      (pml4t / 4096) w = walk x.phys.mem (pml4t / 4096) w :=
    fun w other => (others w other).trans (same w)
  have held : ∀ page f, (x.setPage pml4t v paddr flags).tlb page f →
      if page = pageOf v then f = paddr / 4096 % 2 ^ 36 else x.tlb page f := by
    intro page f held
    by_cases here : page = pageOf v
    · rw [if_pos here]
      have now : walk (x.setPage pml4t v paddr flags).phys.mem (pml4t / 4096) v = some f := by
        simpa only [Core.setPage, Tlb.invlpg, if_pos here] using held
      rw [own, Option.some.injEq] at now
      exact now.symm
    · rw [if_neg here]
      have seen := held
      simp only [Core.setPage, Tlb.invlpg, if_neg here] at seen
      rw [see_all] at seen
      rcases seen with old | ⟨m, inside, w, rfl, at_w⟩
      · exact old
      · refine inv.holds w f ?_
        rcases List.mem_append.mp inside with inside | last
        · rw [← mems m inside w]
          exact at_w
        · rw [List.mem_singleton.mp last] at at_w
          rw [← kept w here]
          exact at_w
  constructor
  · rw [mem]
    exact tree_store_leaf _ tree upper rfl
  · intro w f at_w
    by_cases here : pageOf w = pageOf v
    · rw [walk_samePage here] at at_w
      simpa only [Core.setPage, Tlb.invlpg, if_pos here] using at_w
    · have old := inv.holds w f ((kept w here).symm.trans at_w)
      simp only [Core.setPage, Tlb.invlpg, if_neg here]
      rw [see_all]
      exact .inl old
  · intro u low high f now a inside
    have given := held _ _ now
    split at given
    · rw [given]
      exact off a (stack.subset inside)
    · exact inv.flushed u low high f given a (stack.subset inside)
  · exact inv.distinct.sublist (stack.sublist.map _)
  · exact fun a inside => inv.low a (stack.subset inside)

theorem TlbInv.freePage {x : Core} (inv : TlbInv (pml4t / 4096) start n x.phys x.tlb)
    (ready : TablesReady x.phys (pml4t / 4096) v)
    (none : ownerAt x.phys.mem (pml4t / 4096) v = none) :
    TlbInv (pml4t / 4096) start n (x.freePage pml4t v).phys (x.freePage pml4t v).tlb := by
  have mems := ready.mems inv.tables zero_flagWord
  obtain ⟨tree, _, passes⟩ := PageCall.step_owner (c := .free v) inv.tables ready
  obtain ⟨s', pt, eq, tables, upper, same⟩ :=
    ready.opened walk_observes inv.tables zero_flagWord (Nat.le_refl 3)
  have mem : (x.freePage pml4t v).phys.mem = store s'.mem pt (Fin.ofNat 512 (v / 2 ^ 12)) 0 := by
    simp only [Core.freePage, Gapxos.freePage, getPageTableEntry_masked, eq, Phys.write_mem]
    split <;> rfl
  have stack : (x.freePage pml4t v).phys.freePages <+: x.phys.freePages := by
    have pushed := PageCall.step_stack pml4t x.phys (.free v)
    rw [passes v rfl, none, Option.toList_none, List.append_nil, getPageTableEntry_masked] at pushed
    rw [show (x.freePage pml4t v).phys.freePages = _ from pushed]
    exact openPath_stack _ _ _ _
  -- the page has no translation any more, the others keep theirs
  have walks : ∀ w f, walk (x.freePage pml4t v).phys.mem (pml4t / 4096) w = some f →
      walk x.phys.mem (pml4t / 4096) w = some f := by
    intro w f at_w
    obtain ⟨others, own⟩ := leaf_store (e := 0) tables upper
    by_cases here : pageOf w = pageOf v
    · rw [walk_samePage here, mem, walk, own,
        translate_absent (e := 0) (by simp) (by decide)] at at_w
      cases at_w
    · rw [mem, walk, others w here] at at_w
      rw [← at_w]
      exact (same w).symm
  have seen := inv.see (openMems x.phys (pml4t / 4096) v 0 ++ [(x.freePage pml4t v).phys.mem]) (by
    intro m inside w f at_w
    rcases List.mem_append.mp inside with inside | last
    · rw [← mems m inside w]
      exact at_w
    · rw [List.mem_singleton.mp last] at at_w
      exact walks w f at_w)
  constructor
  · exact tree
  · exact fun w f at_w => seen.holds w f (walks w f at_w)
  · exact fun u low high f held a inside => seen.flushed u low high f held a (stack.subset inside)
  · exact inv.distinct.sublist (stack.sublist.map _)
  · exact fun a inside => inv.low a (stack.subset inside)

theorem pmmAllocPage_off {t : Tlb} (inv : TlbInv cr3 start n s t) :
    ∀ a ∈ (pmmAllocPage s).2.freePages, a / 4096 ≠ (pmmAllocPage s).1 / 4096 % 2 ^ 36 := by
  rcases List.eq_nil_or_concat s.freePages with empty | ⟨rest, page, stack⟩
  · rw [pmmAllocPage_empty empty]
    simp [empty]
  · rw [List.concat_eq_append] at stack
    have draw : pmmAllocPage s = (page, { s with freePages := rest }) := by
      rw [pmmAllocPage, stack]
      simp
    have low := inv.low page (by simp [stack])
    have distinct := inv.distinct
    rw [stack, List.map_append, List.nodup_append] at distinct
    rw [draw]
    intro a inside
    rw [Nat.mod_eq_of_lt (by show page / 4096 < 2 ^ 36; omega)]
    exact distinct.2.2 _ (List.mem_map_of_mem inside) _ (by simp)

end Steps

/- What the passes of the loops have to find. -/
def FreshReady (pml4t addr : Nat) (s : Phys) (i : Nat) : Prop :=
  TablesReady (pmmAllocPage s).2 (pml4t / 4096) ((addr + i * 0x1000) % 2 ^ 64)

def RangeReady (pml4t addr mapAddr : Nat) (s : Phys) (i : Nat) : Prop :=
  TablesReady s (pml4t / 4096) ((addr + i * 0x1000) % 2 ^ 64) ∧
    ∀ a ∈ s.freePages, a / 4096 ≠ (mapAddr + i * 0x1000) % 2 ^ 64 / 4096 % 2 ^ 36

/-- What is unmapped has no owner, so that it does not go back to the PMM. -/
def UnmapReady (pml4t addr : Nat) (s : Phys) (i : Nat) : Prop :=
  TablesReady s (pml4t / 4096) ((addr + i * 0x1000) % 2 ^ 64) ∧
    ownerAt s.mem (pml4t / 4096) ((addr + i * 0x1000) % 2 ^ 64) = none

section Loops

variable {pml4t start n : Nat} {x : Core}

theorem TlbInv.mapFresh (inv : TlbInv (pml4t / 4096) start n x.phys x.tlb) {addr pageCount : Nat}
    {flags : PageFlags} (mapped : flags.present = true)
    (ready : All (fun s i => some (mapFreshPage pml4t addr flags s i)) (FreshReady pml4t addr)
      x.phys (List.range pageCount)) :
    let y := (List.range pageCount).foldl (Core.mapFreshPage pml4t addr flags) x
    TlbInv (pml4t / 4096) start n y.phys y.tlb ∧
      y.phys = Gapxos.mapFresh x.phys pml4t addr pageCount flags := by
  refine loop_keeps (fun x : Core => TlbInv (pml4t / 4096) start n x.phys x.tlb) Core.phys
    (f := Core.mapFreshPage pml4t addr flags) (fun _ _ => rfl) (fun x i inv ready => ?_) inv ready
  have drawn : TlbInv (pml4t / 4096) start n (pmmAllocPage x.phys).2 x.tlb := by
    have mem : (pmmAllocPage x.phys).2.mem = x.phys.mem := by
      unfold pmmAllocPage
      split <;> rfl
    refine inv.quiet ?_ (fun w => ?_) (pmmAllocPage_drops _)
    · rw [mem]
      exact inv.tables
    · rw [mem]
  exact TlbInv.setPage (x := ⟨(pmmAllocPage x.phys).2, x.tlb⟩) drawn ready mapped
    (pmmAllocPage_off inv)

theorem TlbInv.mapRange (inv : TlbInv (pml4t / 4096) start n x.phys x.tlb)
    {addr mapAddr pageCount : Nat} {flags : PageFlags} (mapped : flags.present = true)
    (ready : All (fun s i => some (Gapxos.setPage s pml4t ((addr + i * 0x1000) % 2 ^ 64)
        ((mapAddr + i * 0x1000) % 2 ^ 64) flags)) (RangeReady pml4t addr mapAddr)
      x.phys (List.range pageCount)) :
    let y := (List.range pageCount).foldl (Core.mapRangePage pml4t addr mapAddr flags) x
    TlbInv (pml4t / 4096) start n y.phys y.tlb ∧
      y.phys = Gapxos.mapRange x.phys pml4t addr mapAddr pageCount flags :=
  loop_keeps (fun x : Core => TlbInv (pml4t / 4096) start n x.phys x.tlb) Core.phys
    (fun _ _ => rfl) (fun _ _ inv ready => inv.setPage ready.1 mapped ready.2) inv ready

theorem TlbInv.unmapRange (inv : TlbInv (pml4t / 4096) start n x.phys x.tlb) {addr pageCount : Nat}
    (ready : All (fun s i => some (Gapxos.freePage s pml4t ((addr + i * 0x1000) % 2 ^ 64)))
      (UnmapReady pml4t addr) x.phys (List.range pageCount)) :
    let y := (List.range pageCount).foldl (Core.unmapPage pml4t addr) x
    TlbInv (pml4t / 4096) start n y.phys y.tlb ∧
      y.phys = Gapxos.unmapRange x.phys pml4t addr pageCount :=
  loop_keeps (fun x : Core => TlbInv (pml4t / 4096) start n x.phys x.tlb) Core.phys
    (fun _ _ => rfl) (fun _ _ inv ready => inv.freePage ready.1 ready.2) inv ready

end Loops

/- What making or freeing a node may do beside the page tables: no table is written, and no
page goes back to the stack. -/
structure Quiet (cr3 : Nat) (s s' : Phys) : Prop where
  tables : ∀ p f, p.length ≤ 3 → tableAt child s.mem cr3 p = some f → s.mem f = s'.mem f
  stack : s'.freePages <+: s.freePages

theorem Quiet.refl (cr3 : Nat) (s : Phys) : Quiet cr3 s s :=
  ⟨fun _ _ _ _ => rfl, List.prefix_refl _⟩

theorem TlbInv.beside {cr3 start n : Nat} {s s' : Phys} {t : Tlb} (inv : TlbInv cr3 start n s t)
    (quiet : Quiet cr3 s s') : TlbInv cr3 start n s' t := by
  refine inv.quiet (tree_agree quiet.tables inv.tables) (fun w => ?_) quiet.stack
  rw [walk, trace_agree quiet.tables (by simp [path_length]), walk]

section Nodes

variable {σ : Type} (src : NodeSource σ)

def Frees (t : AvlTree) (st st' : σ × Phys) : Prop :=
  st' = st ∨ ∃ p ∈ nodePtrs t, src.freeNode p st = some st'

variable {src}

theorem AvlNode.addPages_ptr (count : Nat) (v : AvlNode) : (v.addPages count).ptr = v.ptr := rfl

theorem rebalance_ptrs {v : AvlNode} {h : Nat} {l r t : AvlTree}
    (done : rebalance v h l r = some t) :
    nodePtrs t = nodePtrs l ++ v.ptr :: nodePtrs r := by
  rw [nodePtrs, rebalance_toList done, List.map_append, List.map_cons, nodePtrs, nodePtrs]

theorem rebalanceRoot_ptrs {t t' : AvlTree} (done : rebalanceRoot t = some t') :
    nodePtrs t' = nodePtrs t := by
  cases t with
  | nil => cases done
  | node v h l r => simpa [nodePtrs] using rebalance_ptrs done

theorem removeInner_ptrs {parentNull : Bool} {v moved : AvlNode} {freed : Nat} {r r' : AvlTree}
    (h : removeInner parentNull v r = some (moved, freed, r')) :
    moved.ptr = v.ptr ∧ freed ∈ nodePtrs r ∧ nodePtrs r' ⊆ nodePtrs r := by
  unfold removeInner at h
  split at h
  · cases h
  · split at h
    · split at h <;> cases h
      · exact ⟨rfl, by simp [nodePtrs], by simp [nodePtrs]⟩
      · exact ⟨rfl, by simp [nodePtrs], by simp [nodePtrs]⟩
    · cases h
  · obtain ⟨⟨m, rest⟩, least, eq⟩ := Option.map_eq_some_iff.mp h
    cases eq
    rw [nodePtrs, takeMin_toList least]
    exact ⟨rfl, List.mem_cons_self, List.subset_cons_self _ _⟩

theorem deleteNode_frees {parentNull : Bool} {addr : Nat} {t t' : AvlTree} {st st' : σ × Phys}
    (h : deleteNode src parentNull addr t st = some (t', st')) :
    nodePtrs t' ⊆ nodePtrs t ∧ Frees src t st st' := by
  induction t generalizing t' with
  | nil =>
    cases h
    exact ⟨List.Subset.refl _, .inl rfl⟩
  | node v i l r left right =>
    have parts : nodePtrs (.node v i l r) = nodePtrs l ++ v.ptr :: nodePtrs r := by
      simp [nodePtrs]
    unfold deleteNode at h
    split at h
    · simp only [Option.bind_eq_bind, Option.bind_eq_some_iff, Option.some.injEq,
        Prod.mk.injEq] at h
      obtain ⟨⟨l', st₁⟩, step, t₁, done, rfl, rfl⟩ := h
      obtain ⟨fewer, freed⟩ := left step
      rw [rebalance_ptrs done, Frees, parts]
      refine ⟨List.append_subset.mpr ⟨List.subset_append_of_subset_left _ fewer,
        List.subset_append_right _ _⟩, freed.imp id ?_⟩
      rintro ⟨p, inside, eq⟩
      exact ⟨p, List.mem_append_left _ inside, eq⟩
    · split at h
      · simp only [Option.bind_eq_bind, Option.bind_eq_some_iff, Option.some.injEq,
          Prod.mk.injEq] at h
        obtain ⟨⟨r', st₁⟩, step, t₁, done, rfl, rfl⟩ := h
        obtain ⟨fewer, freed⟩ := right step
        rw [rebalance_ptrs done, Frees, parts]
        refine ⟨?_, freed.imp id ?_⟩
        · exact List.append_subset.mpr ⟨List.subset_append_left _ _,
            List.subset_append_of_subset_right _ (List.cons_subset_cons _ fewer)⟩
        · rintro ⟨p, inside, eq⟩
          exact ⟨p, List.mem_append_right _ (List.mem_cons_of_mem _ inside), eq⟩
      · -- the node itself: one of its own children or its successor takes its place
        have own : ∀ p, p = v.ptr → p ∈ nodePtrs l ++ v.ptr :: nodePtrs r :=
          fun p same => by simp [same]
        rw [Frees, parts]
        split at h <;> simp only [Option.bind_eq_bind, Option.bind_eq_some_iff, Option.some.injEq,
          Prod.mk.injEq] at h
        · obtain ⟨st₁, free, rfl, rfl⟩ := h
          exact ⟨List.nil_subset _, .inr ⟨_, own _ rfl, free⟩⟩
        · obtain ⟨st₁, free, t₁, done, rfl, rfl⟩ := h
          rw [rebalanceRoot_ptrs done]
          exact ⟨List.subset_append_left _ _, .inr ⟨_, own _ rfl, free⟩⟩
        · obtain ⟨st₁, free, t₁, done, rfl, rfl⟩ := h
          rw [rebalanceRoot_ptrs done]
          exact ⟨fun p inside => by simp [inside], .inr ⟨_, own _ rfl, free⟩⟩
        · obtain ⟨⟨moved, freed, r'⟩, inner, st₁, free, t₁, done, rfl, rfl⟩ := h
          obtain ⟨same, inside, fewer⟩ := removeInner_ptrs inner
          rw [rebalance_ptrs done, same]
          refine ⟨?_, .inr ⟨freed, ?_, free⟩⟩
          · exact List.append_subset.mpr ⟨List.subset_append_left _ _,
            List.subset_append_of_subset_right _ (List.cons_subset_cons _ fewer)⟩
          · exact List.mem_append_right _ (List.mem_cons_of_mem _ inside)

theorem allocVirt_quiet {cr3 pageCount : Nat} {m : MemoryManager} {st : σ × Phys}
    {r : Nat × MemoryManager × σ × Phys} (h : allocVirt src m pageCount st = some r)
    (quiet : ∀ k st', src.createNode st = some (k, st') → Quiet cr3 st.2 st'.2) :
    r.2.1.pml4t = m.pml4t ∧ Quiet cr3 st.2 r.2.2.2 := by
  unfold allocVirt at h
  split at h
  · cases h
  split at h
  · cases h
    exact ⟨rfl, .refl _ _⟩
  · obtain ⟨⟨t, st₁⟩, rest, rfl⟩ := Option.map_eq_some_iff.mp h
    refine ⟨rfl, ?_⟩
    simp only [insertRest] at rest
    split at rest
    · rcases insertNode_ptrs rest with rfl | ⟨k, made, _⟩
      · exact .refl _ _
      · exact quiet k st₁ made
    · cases rest
      exact .refl _ _

theorem Frees.mono {t t' : AvlTree} {st st' : σ × Phys} (fewer : nodePtrs t ⊆ nodePtrs t')
    (frees : Frees src t st st') : Frees src t' st st' :=
  frees.imp id fun ⟨p, inside, eq⟩ => ⟨p, fewer inside, eq⟩

theorem mergeBelow_frees {parentNull : Bool} {addr : Nat} {n : AvlNode} {t : AvlTree}
    {st : σ × Phys} {r : Nat × AvlTree × σ × Phys}
    (h : mergeBelow src parentNull addr n t st = some r) :
    nodePtrs r.2.1 ⊆ nodePtrs t ∧ Frees src t st r.2.2 := by
  unfold mergeBelow at h
  split at h
  · cases h
    exact ⟨List.Subset.refl _, .inl rfl⟩
  split at h
  · cases h
    exact ⟨List.Subset.refl _, .inl rfl⟩
  · obtain ⟨⟨t', st'⟩, done, rfl⟩ := Option.map_eq_some_iff.mp h
    show nodePtrs (writeNode _ _ t') ⊆ _ ∧ _
    rw [nodePtrs_write _ _ _ (AvlNode.addPages_ptr _)]
    exact deleteNode_frees done

theorem mergeAfter_frees {parentNull : Bool} {ptr : Nat} {t : AvlTree} {st : σ × Phys}
    {r : AvlTree × σ × Phys} (h : mergeAfter src parentNull ptr t st = some r) :
    Frees src t st r.2 := by
  obtain ⟨n, _, h⟩ := Option.bind_eq_some_iff.mp h
  split at h
  · cases h
    exact .inl rfl
  split at h
  · cases h
    exact .inl rfl
  · have frees := (deleteNode_frees h).2
    rw [Frees, nodePtrs_write _ _ _ (AvlNode.addPages_ptr _)] at frees
    exact frees

theorem freePages_idle {parentNull : Bool × Bool} {m m' : MemoryManager} {st st' : σ × Phys}
    {addr : Nat} (idle : ∀ n, avlFind addr m.tree = some n → n.allocated ≠ true)
    (h : freePages src parentNull m st addr = some (m', st')) : m' = m ∧ st' = st := by
  unfold freePages at h
  split at h
  · cases h
  split at h
  · cases h
  split at h
  · cases h
    exact ⟨rfl, rfl⟩
  · rename_i n found
    rw [if_neg (idle n found)] at h
    cases h
    exact ⟨rfl, rfl⟩

theorem freePages_frees {parentNull : Bool × Bool} {m m' : MemoryManager} {st st' : σ × Phys}
    {addr : Nat} {n : AvlNode} (found : avlFind addr m.tree = some n) (used : n.allocated = true)
    (h : freePages src parentNull m st addr = some (m', st')) :
    m'.pml4t = m.pml4t ∧ ∃ st₁,
      Frees src m.tree (st.1, unmapRange st.2 m.pml4t addr n.pageCount) st₁ ∧
      Frees src m.tree st₁ st' := by
  simp only [freePages, found, used, if_true] at h
  split at h
  · cases h
  split at h
  · cases h
  obtain ⟨r, below, h⟩ := Option.bind_eq_some_iff.mp h
  obtain ⟨q, after, eq⟩ := Option.map_eq_some_iff.mp h
  cases eq
  obtain ⟨fewer, first⟩ := mergeBelow_frees below
  have same : nodePtrs (released n m.tree) = nodePtrs m.tree := nodePtrs_write _ _ _ fun _ => rfl
  rw [same] at fewer
  rw [Frees, same] at first
  exact ⟨rfl, r.2.2, first, (mergeAfter_frees after).mono fewer⟩

end Nodes

section Calls

variable {σ : Type} (src : NodeSource σ)

/- When a call leaves the free pages out of reach: the tables its passes need are ready, no
table is used for nodes, map_memory is given no free page, and what free_pages unmaps has
no owner, so that nothing goes back to the PMM behind the TLB. -/
def MgrCall.Keeps (vm : Vm σ) : MgrCall → Prop
  | malloc pageCount write exec kernel => pageCount ≠ 0 →
    (∀ k st, src.createNode (vm.nodes, vm.phys) = some (k, st) →
      Quiet (vm.mgr.pml4t / 4096) vm.phys st.2) ∧
    ∀ r, allocVirt src { vm.mgr with lock := true } pageCount (vm.nodes, vm.phys) = some r →
      All (fun s i => some (mapFreshPage vm.mgr.pml4t r.1 (mallocFlags write exec kernel) s i))
        (FreshReady vm.mgr.pml4t r.1) r.2.2.2 (List.range pageCount)
  | map mapAddr pageCount kernel => ¬ (pageCount = 0 ∨ mapAddr % 0x1000 ≠ 0) →
    (∀ k st, src.createNode (vm.nodes, vm.phys) = some (k, st) →
      Quiet (vm.mgr.pml4t / 4096) vm.phys st.2) ∧
    ∀ r, allocVirt src { vm.mgr with lock := true } pageCount (vm.nodes, vm.phys) = some r →
      All (fun s i => some (setPage s vm.mgr.pml4t ((r.1 + i * 0x1000) % 2 ^ 64)
          ((mapAddr + i * 0x1000) % 2 ^ 64) (mapFlags kernel)))
        (RangeReady vm.mgr.pml4t r.1 mapAddr) r.2.2.2 (List.range pageCount)
  | free addr _ => ∀ n, avlFind addr vm.mgr.tree = some n → n.allocated = true →
    All (fun s i => some (freePage s vm.mgr.pml4t ((addr + i * 0x1000) % 2 ^ 64)))
      (UnmapReady vm.mgr.pml4t addr) vm.phys (List.range n.pageCount) ∧
    ∀ st st', Frees src vm.mgr.tree
        (vm.nodes, unmapRange vm.phys vm.mgr.pml4t addr n.pageCount) st →
      Frees src vm.mgr.tree st st' →
        Quiet (vm.mgr.pml4t / 4096) (unmapRange vm.phys vm.mgr.pml4t addr n.pageCount) st'.2

variable {src} {start n : Nat} {x y : TlbVm σ} {c : MgrCall}

theorem TlbInv.last {cr3 : Nat} {s : Phys} {t : Tlb} (inv : TlbInv cr3 start n s t) :
    TlbInv cr3 start n s (t.see cr3 s.mem) :=
  inv.see [s.mem] fun m inside w f at_w => by rwa [List.mem_singleton.mp inside] at at_w

theorem MgrCall.tlbStep_inv
    (inv : TlbInv (x.vm.mgr.pml4t / 4096) start n x.vm.phys x.tlb) (keeps : c.Keeps src x.vm)
    (whole : c.tlbStep src x = some y) :
    TlbInv (y.vm.mgr.pml4t / 4096) start n y.vm.phys y.tlb := by
  obtain ⟨vm, step, rfl⟩ := Option.map_eq_some_iff.mp whole
  clear whole
  cases c with
  | malloc pageCount write exec kernel =>
    obtain ⟨r, done, rfl⟩ := Option.map_eq_some_iff.mp step
    unfold mallocPages at done
    split at done
    · rename_i zero
      cases done
      simp only [loopTlb, if_pos zero]
      exact inv.last
    split at done
    · cases done
    · rename_i some _
      obtain ⟨quiet, ready⟩ := keeps some
      obtain ⟨r, found, rfl⟩ := Option.map_eq_some_iff.mp done
      obtain ⟨same, beside⟩ := allocVirt_quiet found quiet
      obtain ⟨after, phys⟩ := TlbInv.mapFresh
        (x := ⟨r.2.2.2, x.tlb.see _ r.2.2.2.mem⟩) (inv.beside beside).last
        (show (mallocFlags write exec kernel).present = true from rfl) (ready r found)
      simp only [loopTlb, if_neg some, found, Vm.give]
      rw [same]
      rw [phys] at after
      exact after.last
  | map mapAddr pageCount kernel =>
    obtain ⟨r, done, rfl⟩ := Option.map_eq_some_iff.mp step
    unfold mapMemory at done
    split at done
    · rename_i refused
      cases done
      simp only [loopTlb, if_pos refused]
      exact inv.last
    split at done
    · cases done
    · rename_i some _
      obtain ⟨quiet, ready⟩ := keeps some
      obtain ⟨r, found, rfl⟩ := Option.map_eq_some_iff.mp done
      obtain ⟨same, beside⟩ := allocVirt_quiet found quiet
      obtain ⟨after, phys⟩ := TlbInv.mapRange
        (x := ⟨r.2.2.2, x.tlb.see _ r.2.2.2.mem⟩) (inv.beside beside).last
        (show (mapFlags kernel).present = true from rfl) (ready r found)
      simp only [loopTlb, if_neg some, found, Vm.give]
      rw [same]
      rw [phys] at after
      exact after.last
  | free addr parentNull =>
    obtain ⟨⟨m, st⟩, done, rfl⟩ := Option.map_eq_some_iff.mp step
    by_cases held : ∃ k, avlFind addr x.vm.mgr.tree = some k ∧ k.allocated = true
    · obtain ⟨k, found, used⟩ := held
      obtain ⟨ready, beside⟩ := keeps k found used
      obtain ⟨same, st₁, first, second⟩ := freePages_frees found used done
      obtain ⟨after, phys⟩ := TlbInv.unmapRange (x := ⟨x.vm.phys, x.tlb⟩) inv ready
      simp only [loopTlb, found, used, if_true]
      rw [same]
      rw [phys] at after
      exact (after.beside (beside st₁ st first second)).last
    · obtain ⟨rfl, rfl⟩ := freePages_idle (fun k found used => held ⟨k, found, used⟩) done
      have idle : loopTlb src x (.free addr parentNull) = x.tlb := by
        simp only [loopTlb]
        split
        · rfl
        · rename_i k found
          exact if_neg fun used => held ⟨k, found, used⟩
      rw [idle]
      exact inv.last

/-- In a run of such calls no free page can be reached through the TLB from the range. -/
theorem free_pages_flushed (src : NodeSource σ) (start n : Nat) (x : TlbVm σ)
    (inv : TlbInv (x.vm.mgr.pml4t / 4096) start n x.vm.phys x.tlb) (calls before : List MgrCall)
    (part : before <+: calls)
    (keeps : All (fun x c => MgrCall.tlbStep src x c) (fun x c => c.Keeps src x.vm) x calls)
    (y : TlbVm σ) (back : run (fun x c => MgrCall.tlbStep src x c) x before = some y) :
    Flushed start n y.vm.phys y.tlb := by
  have final := run_holds (fun x c y (inv : TlbInv (x.vm.mgr.pml4t / 4096) start n x.vm.phys x.tlb)
    (keeps : c.Keeps src x.vm) step => MgrCall.tlbStep_inv inv keeps step) part inv keeps back
  exact final.flushed

end Calls

section Unflushed

variable {σ : Type} {src : NodeSource σ}

theorem MgrCall.free_keeps_seen {x y : TlbVm σ} {addr page f : Nat} {parentNull : Bool × Bool}
    (done : (MgrCall.free addr parentNull).tlbStep src x = some y) (seen : x.tlb page f) :
    y.tlb page f := by
  have passes : ∀ (is : List Nat) (z : Core), z.tlb page f →
      (is.foldl (Core.unmapPage x.vm.mgr.pml4t addr) z).tlb page f := by
    intro is
    induction is with
    | nil => exact fun _ seen => seen
    | cons i is ih => exact fun z seen => ih _ ((see_all _ _ _).mpr (.inl seen))
  obtain ⟨vm, _, rfl⟩ := Option.map_eq_some_iff.mp done
  refine .inl ?_
  cases found : avlFind addr x.vm.mgr.tree with
  | none => simpa only [loopTlb, found] using seen
  | some n =>
    cases used : n.allocated with
    | false => simpa [loopTlb, found, used] using seen
    | true =>
      simp only [loopTlb, found, used, if_true]
      exact passes _ _ seen

end Unflushed

/- A manager of three pages and a TLB that has seen nothing. -/
def threePages : TlbVm Nat :=
  ⟨⟨⟨.node ⟨0, kernStart, 3, false⟩ 0 .nil .nil, 0x1000, false⟩, 1, blankPhys, []⟩,
    fun _ _ => False⟩

theorem blank_root {p : List (Fin 512)} {f : Nat}
    (at_p : tableAt child blankPhys.mem 1 p = some f) : p = [] ∧ f = 1 :=
  only_root (fun _ => by simp [blankPhys, child, present]) at_p

theorem blank_walk (w : Nat) : walk blankPhys.mem 1 w = none := by
  have first : trace child blankPhys.mem 1 (path w) = [0] := by
    simp [path, trace, blankPhys, child, present]
  rw [walk, first]
  exact translate_absent rfl (by decide)

theorem threePages_inv : TlbInv 1 kernStart 3 blankPhys fun _ _ => False := by
  constructor
  · intro p q f _ _ at_p at_q
    rw [(blank_root at_p).1, (blank_root at_q).1]
  · intro w f at_w
    rw [blank_walk] at at_w
    cases at_w
  · exact fun _ _ _ _ held => held.elim
  · decide
  · decide

theorem free_pages_flushed_map :
    ∃ y, run (fun x c => MgrCall.tlbStep counter x c) threePages
        [.map 0x40000000 1 true, .free kernStart (true, true)] = some y ∧
      Flushed kernStart 3 y.vm.phys y.tlb := by
  refine ⟨_, rfl, free_pages_flushed counter kernStart 3 threePages threePages_inv
    [.map 0x40000000 1 true, .free kernStart (true, true)] _ (List.prefix_refl _) ?_ _ rfl⟩
  have quiet : ∀ k st, counter.createNode (1, blankPhys) = some (k, st) →
      Quiet 1 blankPhys st.2 := by
    rintro k st ⟨⟩
    exact .refl _ _
  refine ⟨fun _ => ⟨quiet, ?_⟩, ?_⟩
  · rintro r ⟨⟩
    refine ⟨⟨.inr ⟨?_, [], (List.range 16).map (2 + ·), ⟨rfl, by decide, fun k inside => ⟨?_, ?_⟩⟩,
      by decide, fun _ _ _ => rfl⟩, by decide⟩, fun _ _ => trivial⟩
    · show SmallWalk [0]
      exact fun e inside there => absurd there (by rw [List.mem_singleton.mp inside]; decide)
    · obtain ⟨i, low, rfl⟩ := List.mem_map.mp inside
      have := List.mem_range.mp low
      omega
    · intro p _ at_p
      obtain ⟨i, _, two⟩ := List.mem_map.mp inside
      have root := (blank_root at_p).2
      omega
  · rintro x ⟨⟩
    refine ⟨?_, fun _ _ => trivial⟩
    rintro n ⟨⟩ _
    refine ⟨⟨⟨.inl ⟨⟨_, rfl⟩, ?_⟩, by decide⟩, fun _ _ => trivial⟩, ?_⟩
    · have tables : LowWalk (trace child (mapRange blankPhys 0x1000 kernStart 0x40000000 1
          (mapFlags true)).mem 1 ((path kernStart).take 3)) := by
        rw [show trace child (mapRange blankPhys 0x1000 kernStart 0x40000000 1 (mapFlags true)).mem
          1 ((path kernStart).take 3) = [0x11101, 0x10101, 0xf101] by decide, LowWalk]
        simp [hwFrame]
      exact tables
    · intro st st' first second
      have same : ∀ u u' : Nat × Phys, Frees counter (.node ⟨0, kernStart, 1, true⟩ 1 .nil
          (.node ⟨1, kernStart + 4096, 2, false⟩ 0 .nil .nil)) u u' → u' = u := by
        rintro u u' (eq | ⟨p, _, ⟨⟩⟩)
        · exact eq
        · rfl
      rw [same _ _ second, same _ _ first]
      exact .refl _ _

/-- malloc_pages and free_pages of one page: its frame is free, and the TLB still has it. -/
theorem freed_page_reachable :
    ∃ y, run (fun x c => MgrCall.tlbStep counter x c) threePages
        [.malloc 1 true false true, .free kernStart (true, true)] = some y ∧
      0x11000 ∈ y.vm.phys.freePages ∧ y.tlb (pageOf kernStart) 0x11 ∧
      ¬ Flushed kernStart 3 y.vm.phys y.tlb := by
  obtain ⟨x, first, seen⟩ : ∃ x, MgrCall.tlbStep counter threePages (.malloc 1 true false true) =
      some x ∧ x.tlb (pageOf kernStart) 0x11 := ⟨_, rfl, .inr ⟨kernStart, rfl, by decide⟩⟩
  obtain ⟨y, back, freed⟩ : ∃ y, run (fun x c => MgrCall.tlbStep counter x c) threePages
      [.malloc 1 true false true, .free kernStart (true, true)] = some y ∧
        0x11000 ∈ y.vm.phys.freePages := ⟨_, rfl, by decide⟩
  have last : MgrCall.tlbStep counter x (.free kernStart (true, true)) = some y := by
    simpa [run, first] using back
  have held := MgrCall.free_keeps_seen last seen
  refine ⟨y, back, freed, held, fun flushed => ?_⟩
  exact flushed kernStart (Nat.le_refl _) (by decide) 0x11 held 0x11000 freed rfl

end Gapxos
