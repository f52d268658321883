import Mathlib.Algebra.Order.BigOperators.Group.List
import Mathlib.Algebra.Order.Group.Nat
import Mathlib.Data.List.Nodup
import Gapxos.Pmm.DirectMap
import Gapxos.Pmm.Ledger

/-! The room that kernel_main reserves for the stack of free pages, against what the scan
and any later calls put there. One formula counts `length / 4096` pages for each usable
entry; the other rounds the start up and the end down. -/
namespace Gapxos
open Radix

/- The index is an int, so the loop can only count fewer than 2^31 entries. -/
def getStackSize (mmap : List MmapEntry) : Option Nat :=
  if mmap.length < 2 ^ 31 then
    some (mmap.foldl (fun size e =>
      if e.usable then (size + e.length.toNat / 4096 * 8) % 2 ^ 64 else size) 0)
  else none

def MmapEntry.Covers (e : MmapEntry) (b : Nat) : Prop :=
  e.baseAddr.toNat ≤ b ∧ b < e.baseAddr.toNat + e.length.toNat

/-- Usable entries that share no byte and end within the physical address width. -/
structure UsableMap (mmap : List MmapEntry) : Prop where
  disjoint : (mmap.filter (·.usable)).Pairwise fun e e' => ∀ b, ¬ (e.Covers b ∧ e'.Covers b)
  width : ∀ e ∈ mmap.filter (·.usable), e.baseAddr.toNat + e.length.toNat ≤ 2 ^ 52

/-- The pages that the reserved room was counted for. -/
def capacity (mmap : List MmapEntry) : Nat :=
  ((mmap.filter (·.usable)).map fun e => e.length.toNat / 4096).sum

theorem scanPages_iff {e : MmapEntry} (width : e.baseAddr.toNat + e.length.toNat ≤ 2 ^ 52)
    {page : Nat} : page ∈ scanPages e ↔ page % 4096 = 0 ∧ e.baseAddr.toNat ≤ page ∧
      page + 4096 ≤ e.baseAddr.toNat + e.length.toNat := by
  -- the first page is the first multiple of 4096 that is not before the base
  have first : scanStart e % 4096 = 0 ∧ e.baseAddr.toNat ≤ scanStart e ∧
      scanStart e < e.baseAddr.toNat + 4096 := by
    unfold scanStart
    dsimp only
    split <;> omega
  have last : scanEnd e % 4096 = 0 ∧ scanEnd e ≤ e.baseAddr.toNat + e.length.toNat ∧
      e.baseAddr.toNat + e.length.toNat < scanEnd e + 4096 := by
    unfold scanEnd MmapEntry.endAddr
    omega
  simp only [scanPages, List.mem_map, List.mem_range]
  constructor
  · rintro ⟨k, below, rfl⟩
    omega
  · rintro ⟨aligned, low, high⟩
    exact ⟨(page - scanStart e) / 4096, by omega, by omega⟩

theorem scanPages_nodup (e : MmapEntry) : (scanPages e).Nodup :=
  List.nodup_range.map fun a b same => by simpa using same

theorem scanPages_length {e : MmapEntry} (width : e.baseAddr.toNat + e.length.toNat ≤ 2 ^ 52) :
    (scanPages e).length ≤ e.length.toNat / 4096 := by
  simp only [scanPages, List.length_map, List.length_range, scanStart, scanEnd, MmapEntry.endAddr]
  split <;> omega

section Counting

variable {mmap : List MmapEntry} {unsafeRanges : List MemoryRange}

theorem candidates_nodup (usable : UsableMap mmap) : (candidates mmap unsafeRanges).Nodup := by
  rw [candidates, List.nodup_flatMap]
  refine ⟨fun e _ => (scanPages_nodup e).filter _, ?_⟩
  refine usable.disjoint.imp_of_mem fun {e e'} inside inside' apart page here here' => ?_
  have first := (scanPages_iff (usable.width e inside)).mp (List.mem_of_mem_filter here)
  have second := (scanPages_iff (usable.width e' inside')).mp (List.mem_of_mem_filter here')
  -- the first byte of a page that is in both entries is a byte of both
  exact apart page ⟨⟨first.2.1, by omega⟩, second.2.1, by omega⟩

theorem candidates_length (usable : UsableMap mmap) :
    (candidates mmap unsafeRanges).length ≤ capacity mmap := by
  rw [candidates, List.length_flatMap, capacity]
  apply List.sum_le_sum
  intro e inside
  exact (List.length_filter_le _ _).trans (scanPages_length (usable.width e inside))

theorem candidates_frame (usable : UsableMap mmap) {page : Nat}
    (h : page ∈ candidates mmap unsafeRanges) : ∃ k < 2 ^ 40, page = 4096 * k := by
  obtain ⟨e, inside, here⟩ := List.mem_flatMap.mp h
  have bound := (scanPages_iff (usable.width e inside)).mp (List.mem_of_mem_filter here)
  have width := usable.width e inside
  exact ⟨page / 4096, by omega, by omega⟩

theorem usable_total (usable : UsableMap mmap) :
    ((mmap.filter (·.usable)).map fun e => e.length.toNat).sum ≤ 2 ^ 52 := by
  have bytes : ((mmap.filter (·.usable)).flatMap fun e =>
      List.range' e.baseAddr.toNat e.length.toNat).Nodup := by
    rw [List.nodup_flatMap]
    refine ⟨fun e _ => List.nodup_range', usable.disjoint.imp fun {e e'} apart b here here' => ?_⟩
    rw [List.mem_range'_1] at here here'
    exact apart b ⟨here, here'⟩
  have within : ((mmap.filter (·.usable)).flatMap fun e =>
      List.range' e.baseAddr.toNat e.length.toNat) ⊆ List.range (2 ^ 52) := by
    intro b here
    obtain ⟨e, inside, here⟩ := List.mem_flatMap.mp here
    rw [List.mem_range'_1] at here
    have width := usable.width e inside
    rw [List.mem_range]
    omega
  have below := (List.subperm_of_subset bytes within).length_le
  simpa [List.length_flatMap] using below

theorem capacity_small (usable : UsableMap mmap) : capacity mmap ≤ 2 ^ 52 := by
  refine le_trans ?_ (usable_total usable)
  apply List.sum_le_sum
  intro e _
  exact Nat.div_le_self _ _

theorem getStackSize_eq (usable : UsableMap mmap) (few : mmap.length < 2 ^ 31) :
    getStackSize mmap = some (8 * capacity mmap) := by
  have fold : ∀ (l : List MmapEntry) (size : Nat), size + 8 * capacity l < 2 ^ 64 →
      l.foldl (fun size e =>
        if e.usable then (size + e.length.toNat / 4096 * 8) % 2 ^ 64 else size) size =
      size + 8 * capacity l := by
    intro l
    induction l with
    | nil => intro size _; simp [capacity]
    | cons e l ih =>
      intro size small
      rw [List.foldl_cons]
      by_cases used : e.usable = true
      · have more : capacity (e :: l) = e.length.toNat / 4096 + capacity l := by
          simp [capacity, used]
        rw [if_pos used, Nat.mod_eq_of_lt (by omega), ih _ (by omega)]
        omega
      · have same : capacity (e :: l) = capacity l := by simp [capacity, used]
        rw [if_neg used, ih size (by omega), same]
  have small := capacity_small usable
  rw [getStackSize, if_pos few, fold mmap 0 (by omega), Nat.zero_add]

theorem ledger_bound (usable : UsableMap mmap) {l : Ledger}
    (from_map : l.pages.Subperm (candidates mmap unsafeRanges)) :
    l.phys.freePages.length ≤ capacity mmap ∧ l.phys.freePages.Nodup ∧
      ∀ page ∈ l.held, page ∉ l.phys.freePages := by
  have distinct : l.pages.Nodup := by
    obtain ⟨part, perm, sub⟩ := from_map
    exact perm.nodup_iff.mp ((candidates_nodup usable).sublist sub)
  have few := from_map.length_le.trans (candidates_length usable)
  obtain ⟨-, stack, apart⟩ := List.nodup_append.mp distinct
  rw [Ledger.pages, List.length_append] at few
  exact ⟨by omega, stack, fun page held on_stack => apart page held page on_stack rfl⟩

theorem scanned_boot (usable : UsableMap mmap) {mem : Mem} {cr3 : Nat} {p : Pmm}
    (slots : ∀ i : Fin 512, 384 ≤ i.val → i.val ≤ 510 → present (mem cr3 i) = false)
    (tables : ∀ page ∈ candidates mmap unsafeRanges, Unused child 3 mem cr3 (page / 4096))
    (scan : scanMap mem mmap unsafeRanges = some p) : BootState p.phys cr3 := by
  obtain ⟨pages, same⟩ := scanMap_pages scan
  have stack := (ledger_bound usable pages).2.1
  refine ⟨by rw [same]; exact slots, stack, fun a inside => ?_⟩
  have candidate := pages.subset (List.mem_append_right p.ledger.held inside)
  obtain ⟨k, small, rfl⟩ := candidates_frame usable candidate
  have unused := tables _ candidate
  rw [Nat.mul_div_cancel_left k (by omega)] at unused
  exact ⟨k, small, rfl, by rw [same]; exact unused⟩

theorem pmmInit_returns (usable : UsableMap mmap) {mem : Mem} {pml4t : Nat} {q : Pmm}
    (scan : scanMap mem mmap unsafeRanges = some q)
    (slots : ∀ i : Fin 512, 384 ≤ i.val → i.val ≤ 510 → present (mem (pml4t / 4096) i) = false)
    (tables : ∀ page ∈ candidates mmap unsafeRanges,
      Unused child 3 mem (pml4t / 4096) (page / 4096))
    (height : maxAddr mmap ≤ 127 * 2 ^ 39)
    (enough : tableCount (maxAddr mmap) ≤ q.phys.freePages.length)
    (near : LowDraws q.phys.freePages (maxAddr mmap)) :
    ∃ phys, pmmInit mem pml4t mmap unsafeRanges = some { q with phys } := by
  have boot := scanned_boot usable slots tables scan
  have drawn := (initPaging_built height boot).1
  rw [drawLow_dropLow enough near, Option.map_eq_some_iff] at drawn
  obtain ⟨phys, paging, -⟩ := drawn
  refine ⟨phys, ?_⟩
  rw [pmmInit, scan, Option.bind_eq_bind, Option.bind_some, paging]
  rfl

end Counting

/- The conditions say when pmm_init itself gets through: the map fits its counters, and
the scan leaves the frames that the direct map needs. -/
theorem stack_within_capacity (mem : Mem) (pml4t : Nat) (mmap : List MmapEntry)
    (unsafeRanges : List MemoryRange) (usable : UsableMap mmap)
    (entries : mmap.length < 2 ^ 31) (reserved : (others mmap).length ≤ 32)
    (slots : ∀ i : Fin 512, 384 ≤ i.val → i.val ≤ 510 → present (mem (pml4t / 4096) i) = false)
    (tables : ∀ page ∈ candidates mmap unsafeRanges,
      Unused child 3 mem (pml4t / 4096) (page / 4096))
    (height : maxAddr mmap ≤ 127 * 2 ^ 39)
    (frames : ∀ p, scanMap mem mmap unsafeRanges = some p →
      tableCount (maxAddr mmap) ≤ p.phys.freePages.length ∧
        LowDraws p.phys.freePages (maxAddr mmap)) :
    ∃ q p size, scanMap mem mmap unsafeRanges = some q ∧
      pmmInit mem pml4t mmap unsafeRanges = some p ∧ getStackSize mmap = some size ∧
      q.phys.freePages.length ≤ size / 8 ∧
      ∀ calls l, p.ledger.run calls = some l →
        l.phys.freePages.length ≤ size / 8 ∧ l.phys.freePages.Nodup ∧
          ∀ page ∈ l.held, page ∉ l.phys.freePages := by
  have room : 8 * capacity mmap / 8 = capacity mmap := by omega
  obtain ⟨q, scan⟩ := scanMap_returns reserved mem unsafeRanges
  obtain ⟨enough, near⟩ := frames _ scan
  obtain ⟨phys, init⟩ := pmmInit_returns usable scan slots tables height enough near
  refine ⟨_, _, _, scan, init, getStackSize_eq usable entries, ?_, ?_⟩
  · rw [room]
    exact (ledger_bound usable (scanMap_pages scan).1).1
  · intro calls l run
    obtain ⟨_, scan', pages⟩ := pmmInit_pages init
    rw [room]
    exact ledger_bound usable ((run_pages run).trans (pages.trans (scanMap_pages scan').1))

/- Three usable pages at 1 MiB under the chain of tables: one is left after the two tables
of the first GiB. -/
theorem stack_within_capacity_chain :
    ∃ q p size, scanMap chainMem [⟨0x100000, 0x3000, 1⟩] [] = some q ∧
      pmmInit chainMem 4096 [⟨0x100000, 0x3000, 1⟩] [] = some p ∧
      getStackSize [⟨0x100000, 0x3000, 1⟩] = some size ∧
      q.phys.freePages.length ≤ size / 8 ∧
      ∀ calls l, p.ledger.run calls = some l →
        l.phys.freePages.length ≤ size / 8 ∧ l.phys.freePages.Nodup ∧
          ∀ page ∈ l.held, page ∉ l.phys.freePages := by
  refine stack_within_capacity chainMem 4096 [⟨0x100000, 0x3000, 1⟩] [] ⟨?_, by decide⟩
    (by decide) (by decide) ?_ ?_ (by decide) ?_
  · exact List.pairwise_singleton _ _
  · exact fun i high _ => chainMem_slots _ i high
  · intro page inside
    have far : ∀ page ∈ candidates [⟨0x100000, 0x3000, 1⟩] [], 5 ≤ page / 4096 := by decide
    exact chainMem_unused (.inr (far page inside))
  · intro p scan
    cases Option.some.inj (scan.symm.trans rfl)
    exact ⟨by decide, lowDraws_short (by decide) _⟩

theorem pmmInit_chain_none {mmap : List MmapEntry} {frames : List Nat} {apLowPage : Nat}
    {ranges : List PhysicalOtherRange} (distinct : frames.Nodup)
    (above : ∀ k ∈ frames, 5 ≤ k ∧ k < 2 ^ 40)
    (scan : scanMap chainMem mmap [] =
      some ⟨⟨chainMem, frames.map (4096 * ·), 0⟩, apLowPage, ranges⟩)
    (height : maxAddr mmap ≤ 127 * 2 ^ 39)
    (empty : drawLow (tableCount (maxAddr mmap)) (frames.map (4096 * ·)) = none) :
    pmmInit chainMem 4096 mmap [] = none := by
  have drawn : (initPaging ⟨chainMem, frames.map (4096 * ·), 0⟩ 4096 (maxAddr mmap)).map
      (·.freePages) = _ := (initPaging_built height (chainMem_boot distinct above)).1
  rw [empty, Option.map_eq_none_iff] at drawn
  rw [pmmInit, scan, Option.bind_eq_bind, Option.bind_some, drawn]
  rfl

/-- With one usable page the second draw finds the stack empty. -/
theorem pmmInit_draws_from_empty :
    UsableMap [⟨0x100000, 0x1000, 1⟩] ∧
    (∃ q, scanMap chainMem [⟨0x100000, 0x1000, 1⟩] [] = some q ∧ q.phys.freePages = [0x100000]) ∧
    pmmInit chainMem 4096 [⟨0x100000, 0x1000, 1⟩] [] = none := by
  refine ⟨⟨List.pairwise_singleton _ _, by decide⟩, ⟨_, rfl, rfl⟩, ?_⟩
  have scan : scanMap chainMem [⟨0x100000, 0x1000, 1⟩] [] =
      some ⟨⟨chainMem, [0x100].map (4096 * ·), 0⟩, 0, []⟩ := rfl
  exact pmmInit_chain_none (by decide) (by decide) scan (by decide) (by decide)

end Gapxos
