import Gapxos.Pmm.Capacity
import Gapxos.Pmm.Reserved

/-! What is on the stack of free pages after the scan, and page 0 on it later. The scan lays no
weight on page 0; it is _init_paging that takes it away, as the lowest page there is. -/
namespace Gapxos
open Radix

def WholePage (e : MmapEntry) (page : Nat) : Prop :=
  page % 4096 = 0 ∧ e.baseAddr.toNat ≤ page ∧
    page + 4096 ≤ e.baseAddr.toNat + e.length.toNat

/-- A page of usable memory whose start is in no unsafe range. -/
def FreePage (mmap : List MmapEntry) (unsafeRanges : List MemoryRange) (page : Nat) : Prop :=
  (∃ e ∈ mmap, e.usable = true ∧ WholePage e page) ∧
    ∀ range ∈ unsafeRanges, isInRange page range = false

/- All free pages but the low page; page 0 may be on the stack or not. -/
structure StackExact (mmap : List MmapEntry) (unsafeRanges : List MemoryRange) (p : Pmm) :
    Prop where
  distinct : p.phys.freePages.Nodup
  exact : ∀ page, page ≠ 0 →
    (page ∈ p.phys.freePages ↔ FreePage mmap unsafeRanges page ∧ page ≠ p.apLowPage)
  zero : 0 ∈ p.phys.freePages → FreePage mmap unsafeRanges 0

section Scanned

variable {mem : Mem} {mmap : List MmapEntry} {unsafeRanges : List MemoryRange} {p : Pmm}

theorem candidates_iff (usable : UsableMap mmap) {page : Nat} :
    page ∈ candidates mmap unsafeRanges ↔ FreePage mmap unsafeRanges page := by
  have free : isFree unsafeRanges page = true ↔
      ∀ range ∈ unsafeRanges, isInRange page range = false := by
    simp [isFree, List.all_eq_true]
  simp only [candidates, List.mem_flatMap, List.mem_filter, free, FreePage]
  constructor
  · rintro ⟨e, ⟨inside, used⟩, here, clear⟩
    have whole := (scanPages_iff (usable.width e (List.mem_filter.mpr ⟨inside, used⟩))).mp here
    exact ⟨⟨e, inside, used, whole⟩, clear⟩
  · rintro ⟨⟨e, inside, used, whole⟩, clear⟩
    have here := (scanPages_iff (usable.width e (List.mem_filter.mpr ⟨inside, used⟩))).mpr whole
    exact ⟨e, ⟨inside, used⟩, here, clear⟩

theorem taken_candidate {page : Nat} (taken : Taken mmap unsafeRanges page) :
    page ∈ candidates mmap unsafeRanges := by
  obtain ⟨before, after, split, -⟩ := taken
  rw [split]
  exact List.mem_append_right before List.mem_cons_self

theorem scan_stackExact (usable : UsableMap mmap)
    (scan : scanMap mem mmap unsafeRanges = some p) : StackExact mmap unsafeRanges p := by
  obtain ⟨-, stack, apart⟩ := ledger_bound usable (scanMap_pages scan).1
  have placed := fun page => scanMap_placed scan page
  constructor
  · exact stack
  · intro page some_page
    constructor
    · intro inside
      have taken := (placed page).mp (.inl inside)
      refine ⟨(candidates_iff usable).mp (taken_candidate taken), ?_⟩
      rintro rfl
      exact apart p.apLowPage (by simp [Pmm.ledger, some_page]) inside
    · rintro ⟨free, other⟩
      obtain ⟨before, after, split⟩ := List.append_of_mem ((candidates_iff usable).mpr free)
      rcases (placed page).mpr ⟨before, after, split, .inl some_page⟩ with inside | ⟨low, -⟩
      · exact inside
      · exact absurd low other
  · intro inside
    exact (candidates_iff usable).mp (taken_candidate ((placed 0).mp (.inl inside)))

end Scanned

/-- The scan does its work as long as `_ranges` has a place for every entry that is not
usable. -/
theorem scan_stack_iff (mem : Mem) (mmap : List MmapEntry) (unsafeRanges : List MemoryRange)
    (usable : UsableMap mmap) :
    (∃ p, scanMap mem mmap unsafeRanges = some p ∧ StackExact mmap unsafeRanges p) ↔
      (others mmap).length ≤ 32 := by
  constructor
  · rintro ⟨p, scan, -⟩
    exact (scanMap_ranges scan).1
  · intro room
    obtain ⟨p, scan⟩ := scanMap_returns room mem unsafeRanges
    exact ⟨p, scan, scan_stackExact usable scan⟩

theorem usable_of_ends {mmap : List MmapEntry}
    (ends : (mmap.filter (·.usable)).Pairwise fun e e' =>
      e.baseAddr.toNat + e.length.toNat ≤ e'.baseAddr.toNat ∨
        e'.baseAddr.toNat + e'.length.toNat ≤ e.baseAddr.toNat)
    (width : ∀ e ∈ mmap.filter (·.usable), e.baseAddr.toNat + e.length.toNat ≤ 2 ^ 52) :
    UsableMap mmap := by
  refine ⟨ends.imp ?_, width⟩
  rintro e e' off b ⟨⟨low, high⟩, low', high'⟩
  omega

def zeroListedLate : List MmapEntry :=
  [⟨0x50000, 0x1000, 1⟩, ⟨0, 0x1000, 1⟩, ⟨0x100000, 0x3000, 1⟩]

theorem zeroListedLate_usable : UsableMap zeroListedLate :=
  usable_of_ends (by decide) (by decide)

theorem scan_stack_late : ∃ p, scanMap chainMem zeroListedLate [] = some p ∧
    StackExact zeroListedLate [] p :=
  (scan_stack_iff chainMem zeroListedLate [] zeroListedLate_usable).mpr (by decide)

/-- As many reserved pages as `_ranges` has places, and one more. -/
def manyReserved : List MmapEntry :=
  (List.range 33).map fun i => ⟨UInt64.ofNat (4096 * i), 4096, 2⟩

/-- The usable entry behind them is not reached in a good state. -/
theorem scan_overruns :
    UsableMap (manyReserved ++ [⟨0x100000, 0x1000, 1⟩]) ∧
      FreePage (manyReserved ++ [⟨0x100000, 0x1000, 1⟩]) [] 0x100000 ∧
      scanMap (fun _ _ => 0) (manyReserved ++ [⟨0x100000, 0x1000, 1⟩]) [] = none := by
  refine ⟨usable_of_ends (by decide) (by decide), ⟨⟨⟨0x100000, 0x1000, 1⟩, ?_, rfl, ?_⟩, ?_⟩, rfl⟩
  · exact List.mem_append_right _ (List.mem_singleton_self _)
  · exact ⟨by decide, by decide, by decide⟩
  · exact fun _ no => nomatch no

/-- After pmm_init every entry that is not usable is in `_ranges`, if there are not too many. -/
theorem pmmInit_ranges_iff (mem : Mem) (pml4t : Nat) (mmap : List MmapEntry)
    (unsafeRanges : List MemoryRange) :
    ((∃ p, scanMap mem mmap unsafeRanges = some p ∧
        ∀ e ∈ mmap, e.usable = false → otherRange e ∈ p.ranges) ↔ (others mmap).length ≤ 32) ∧
      ∀ p, pmmInit mem pml4t mmap unsafeRanges = some p →
        ∀ e ∈ mmap, e.usable = false → otherRange e ∈ p.ranges := by
  have recorded : ∀ p, scanMap mem mmap unsafeRanges = some p →
      ∀ e ∈ mmap, e.usable = false → otherRange e ∈ p.ranges := by
    intro p scan e inside unused
    rw [(scanMap_ranges scan).2]
    exact List.mem_map_of_mem (List.mem_filter.mpr ⟨inside, by simp [unused]⟩)
  refine ⟨⟨?_, fun room => ?_⟩, fun p init => ?_⟩
  · rintro ⟨p, scan, -⟩
    exact (scanMap_ranges scan).1
  · obtain ⟨p, scan⟩ := scanMap_returns room mem unsafeRanges
    exact ⟨p, scan, recorded p scan⟩
  · simp only [pmmInit, Option.bind_eq_bind, Option.bind_eq_some_iff, Option.some.injEq] at init
    obtain ⟨q, scan, phys, -, rfl⟩ := init
    exact recorded q scan

theorem ranges_overrun :
    (∀ e ∈ manyReserved, e.usable = false) ∧ manyReserved.length = 33 ∧
      scanMap (fun _ _ => 0) manyReserved [] = none :=
  ⟨by decide, by decide, rfl⟩

section Zero

variable {mem : Mem} {pml4t : Nat} {mmap : List MmapEntry} {unsafeRanges : List MemoryRange}

theorem low_zero {pages : List Nat} (inside : 0 ∈ pages) : low pages = 0 := by
  have least : pages.min? = some 0 :=
    List.min?_eq_some_iff.mpr ⟨inside, fun x _ => Nat.zero_le x⟩
  rw [low, least, Option.getD_some]

theorem zeroedLowPage_zero {s s' : Phys} {page : Nat} (h : zeroedLowPage s = some (page, s'))
    (short : s.freePages.length ≤ 2 ^ 32) (distinct : s.freePages.Nodup) :
    0 ∉ s'.freePages := by
  by_cases inside : 0 ∈ s.freePages
  · have draw := zeroedLowPage_draw h
    obtain ⟨ne, near⟩ := getLowPage_near short draw
    rw [getLowPage_low ne near, low_zero inside, Option.some.injEq, Prod.mk.injEq] at draw
    rw [← draw.2]
    exact fun left => (distinct.mem_erase_iff.mp left).1 rfl
  · exact fun there => inside ((zeroedLowPage_stack h).subset there)

theorem initPaging_zero {s s' : Phys} {physMemLength : Nat}
    (h : initPaging s pml4t physMemLength = some s') (some_memory : 0 < physMemLength)
    (short : s.freePages.length ≤ 2 ^ 32) (distinct : s.freePages.Nodup) :
    0 ∉ s'.freePages := by
  obtain ⟨page, s₁, draw, upper⟩ := initPaging_draws h some_memory
  exact fun there => zeroedLowPage_zero draw short distinct (upper.subset there)

theorem le_foldl_endAddr (l : List MmapEntry) (highest : Nat) :
    let top := l.foldl (fun highest e => if e.endAddr > highest then e.endAddr else highest) highest
    highest ≤ top ∧ ∀ e ∈ l, e.endAddr ≤ top := by
  induction l generalizing highest with
  | nil => exact ⟨Nat.le_refl _, fun _ no => nomatch no⟩
  | cons e l ih =>
    obtain ⟨above, all⟩ := ih (if e.endAddr > highest then e.endAddr else highest)
    rw [List.foldl_cons]
    refine ⟨Nat.le_trans ?_ above, List.forall_mem_cons.mpr ⟨Nat.le_trans ?_ above, all⟩⟩
    · split <;> omega
    · split <;> omega

theorem endAddr_le_maxAddr {e : MmapEntry} (inside : e ∈ mmap) : e.endAddr ≤ maxAddr mmap :=
  (le_foldl_endAddr mmap 0).2 e inside

theorem maxAddr_pos (usable : UsableMap mmap) (zero : FreePage mmap unsafeRanges 0) :
    0 < maxAddr mmap := by
  obtain ⟨⟨e, inside, used, _, low, high⟩, -⟩ := zero
  have width := usable.width e (List.mem_filter.mpr ⟨inside, used⟩)
  have top := endAddr_le_maxAddr inside
  unfold MmapEntry.endAddr at top
  omega

theorem pmmInit_zero (usable : UsableMap mmap) {p : Pmm}
    (short : (candidates mmap unsafeRanges).length ≤ 2 ^ 32)
    (init : pmmInit mem pml4t mmap unsafeRanges = some p) : 0 ∉ p.phys.freePages := by
  simp only [pmmInit, Option.bind_eq_bind, Option.bind_eq_some_iff, Option.some.injEq] at init
  obtain ⟨q, scan, phys, paging, rfl⟩ := init
  have stack := scan_stackExact usable scan
  by_cases inside : 0 ∈ q.phys.freePages
  · have few : q.phys.freePages.length ≤ 2 ^ 32 := by
      have all := (scanMap_pages scan).1.length_le
      rw [Ledger.pages, List.length_append] at all
      exact Nat.le_trans (Nat.le_trans (Nat.le_add_left _ _) all) short
    exact initPaging_zero paging (maxAddr_pos usable (stack.zero inside)) few stack.distinct
  · exact fun there => inside ((initPaging_stack paging).subset there)

theorem step_zero {l l' : Ledger} {call : PmmCall} (h : call.step l = some l')
    (off : 0 ∉ l.phys.freePages) : 0 ∉ l'.phys.freePages := by
  cases call with
  | alloc =>
    simp only [PmmCall.step, Option.some.injEq] at h
    subst h
    intro there
    apply off
    unfold pmmAllocPage at there
    split at there
    · exact List.mem_of_mem_dropLast there
    · exact there
  | free addr =>
    simp only [PmmCall.step, Option.ite_none_right_eq_some, Option.some.injEq] at h
    obtain ⟨⟨some_page, -⟩, rfl⟩ := h
    simp only [pmmFreePage, List.mem_append, List.mem_singleton]
    rintro (there | zero)
    · exact off there
    · exact some_page zero.symm

theorem run_zero {calls : List PmmCall} {l l' : Ledger} (h : l.run calls = some l')
    (off : 0 ∉ l.phys.freePages) : 0 ∉ l'.phys.freePages := by
  induction calls generalizing l with
  | nil =>
    cases Option.some.inj h
    exact off
  | cons call calls ih =>
    simp only [Ledger.run, List.foldlM_cons, Option.bind_eq_bind, Option.bind_eq_some_iff] at h
    obtain ⟨next, step, rest⟩ := h
    exact ih rest (step_zero step off)

theorem pmmAllocPage_zero_iff {s : Phys} (off : 0 ∉ s.freePages) :
    (pmmAllocPage s).1 = 0 ↔ s.freePages = [] := by
  constructor
  · intro zero
    unfold pmmAllocPage at zero
    split at zero
    · rename_i page last
      have there := List.mem_of_getLast? last
      rw [show page = 0 from zero] at there
      exact absurd there off
    · rename_i last
      exact List.getLast?_eq_none_iff.mp last
  · intro empty
    rw [pmmAllocPage_empty empty]

end Zero

/- The second part says when pmm_init gets through. On a stack with more pages than an index
of 32 bits can count, _get_low_page may take another page than the lowest. -/
theorem page_zero_never_free (mem : Mem) (pml4t : Nat) (mmap : List MmapEntry)
    (unsafeRanges : List MemoryRange) (usable : UsableMap mmap)
    (short : (candidates mmap unsafeRanges).length ≤ 2 ^ 32) :
    (∀ p, pmmInit mem pml4t mmap unsafeRanges = some p →
      ∀ calls l, p.ledger.run calls = some l → 0 ∉ l.phys.freePages ∧
        ((pmmAllocPage l.phys).1 = 0 ↔ l.phys.freePages = [])) ∧
    ((others mmap).length ≤ 32 →
      (∀ i : Fin 512, 384 ≤ i.val → i.val ≤ 510 → present (mem (pml4t / 4096) i) = false) →
      (∀ page ∈ candidates mmap unsafeRanges,
        Unused child 3 mem (pml4t / 4096) (page / 4096)) →
      maxAddr mmap ≤ 127 * 2 ^ 39 →
      (∀ p, scanMap mem mmap unsafeRanges = some p →
        tableCount (maxAddr mmap) ≤ p.phys.freePages.length ∧
          LowDraws p.phys.freePages (maxAddr mmap)) →
      ∃ p, pmmInit mem pml4t mmap unsafeRanges = some p) := by
  constructor
  · intro p init calls l run
    have off := run_zero run (pmmInit_zero usable short init)
    exact ⟨off, pmmAllocPage_zero_iff off⟩
  · intro reserved slots tables height frames
    obtain ⟨q, scan⟩ := scanMap_returns reserved mem unsafeRanges
    obtain ⟨enough, near⟩ := frames q scan
    obtain ⟨phys, init⟩ := pmmInit_returns usable scan slots tables height enough near
    exact ⟨_, init⟩

theorem page_zero_late :
    (∃ q, scanMap chainMem zeroListedLate [] = some q ∧ 0 ∈ q.phys.freePages) ∧
      ∃ p, pmmInit chainMem 4096 zeroListedLate [] = some p ∧ 0 ∉ p.phys.freePages := by
  have scanned : (scanMap chainMem zeroListedLate []).map (·.phys.freePages) =
      some [0, 0x100000, 0x101000, 0x102000] := rfl
  obtain ⟨q, scan, pages⟩ := Option.map_eq_some_iff.mp scanned
  obtain ⟨off, back⟩ := page_zero_never_free chainMem 4096 zeroListedLate []
    zeroListedLate_usable (by decide)
  have frames : ∀ page ∈ candidates zeroListedLate [],
      page / 4096 = 0 ∨ 5 ≤ page / 4096 := by decide
  have draws : ∀ p, scanMap chainMem zeroListedLate [] = some p →
      tableCount (maxAddr zeroListedLate) ≤ p.phys.freePages.length ∧
        LowDraws p.phys.freePages (maxAddr zeroListedLate) := by
    intro p scan'
    cases Option.some.inj (scan.symm.trans scan')
    rw [pages]
    exact ⟨by decide, lowDraws_short (by decide) _⟩
  obtain ⟨p, init⟩ := back (by decide) (fun i high _ => chainMem_slots _ i high)
    (fun page inside => chainMem_unused (frames page inside)) (by decide) draws
  refine ⟨⟨q, scan, ?_⟩, p, init, (off p init [] _ rfl).1⟩
  rw [pages]
  decide

/-- Without a usable page _init_paging draws from the empty stack, whose index wraps. -/
theorem alloc_from_wrapped_stack :
    UsableMap [⟨0, 0x1000, 2⟩] ∧
    (∃ q, scanMap chainMem [⟨0, 0x1000, 2⟩] [] = some q ∧ q.phys.freePages = []) ∧
    pmmInit chainMem 4096 [⟨0, 0x1000, 2⟩] [] = none := by
  refine ⟨usable_of_ends (by decide) (by decide), ⟨_, rfl, rfl⟩, ?_⟩
  have scan : scanMap chainMem [⟨0, 0x1000, 2⟩] [] =
      some ⟨⟨chainMem, ([] : List Nat).map (4096 * ·), 0⟩, 0, [⟨0, 0x1000, .reserved⟩]⟩ := rfl
  exact pmmInit_chain_none (by decide) (by decide) scan (by decide) (by decide)

end Gapxos
