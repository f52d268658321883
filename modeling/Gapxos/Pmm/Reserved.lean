import Gapxos.Pmm.Ledger

/-! The unsafe ranges that kernel_main passes to pmm_init, against the pages the scan takes.
The scan tests the first byte of a page only. -/
namespace Gapxos

/-- Some byte of the page at `page` lies in the range. -/
def Overlaps (page : Nat) (range : MemoryRange) : Prop :=
  ∃ b, page ≤ b ∧ b < page + 4096 ∧ isInRange b range = true

/-- A range that begins in the page, after its first byte. -/
def StartsInside (page : Nat) (range : MemoryRange) : Prop :=
  page < range.start.toNat ∧ range.start.toNat < page + 4096 ∧
    range.start.toNat < range.stop.toNat

theorem isInRange_iff (b : Nat) (range : MemoryRange) :
    isInRange b range = true ↔ range.start.toNat ≤ b ∧ b < range.stop.toNat := by
  simp [isInRange]

theorem overlaps_iff {page : Nat} {range : MemoryRange} (free : isInRange page range = false) :
    Overlaps page range ↔ StartsInside page range := by
  have outside : ¬ (range.start.toNat ≤ page ∧ page < range.stop.toNat) := by
    rw [← isInRange_iff, free]
    simp
  unfold Overlaps StartsInside
  constructor
  · rintro ⟨b, low, high, inside⟩
    rw [isInRange_iff] at inside
    omega
  · rintro ⟨low, high, some_byte⟩
    refine ⟨range.start.toNat, by omega, high, ?_⟩
    rw [isInRange_iff]
    omega

/-- Nothing that the PMM has in its hands overlaps an unsafe range. -/
def Reserves (p : Pmm) (unsafeRanges : List MemoryRange) : Prop :=
  ∀ page, Placed p page → ∀ range ∈ unsafeRanges, ¬ Overlaps page range

/- The pages that the scan takes: all that pass its test, but page 0 only behind another
page below 1 MiB. -/
def Taken (mmap : List MmapEntry) (unsafeRanges : List MemoryRange) (page : Nat) : Prop :=
  ∃ before after, candidates mmap unsafeRanges = before ++ page :: after ∧
    (page ≠ 0 ∨ ∃ low ∈ before, 0 < low ∧ low < 1 <<< 20)

theorem candidate_free {mmap : List MmapEntry} {unsafeRanges : List MemoryRange} {page : Nat}
    (h : page ∈ candidates mmap unsafeRanges) :
    ∀ range ∈ unsafeRanges, isInRange page range = false := by
  simp only [candidates, List.mem_flatMap, List.mem_filter, isFree, List.all_eq_true,
    Bool.not_eq_true'] at h
  obtain ⟨-, -, -, free⟩ := h
  exact free

theorem scanMap_placed {mem : Mem} {mmap : List MmapEntry} {unsafeRanges : List MemoryRange}
    {p : Pmm} (h : scanMap mem mmap unsafeRanges = some p) (page : Nat) :
    Placed p page ↔ Taken mmap unsafeRanges page := by
  rw [scanMap_eq, Option.ite_none_right_eq_some, Option.some.injEq] at h
  obtain ⟨-, rfl⟩ := h
  have nothing : ¬ Placed (zeroedPmm mem) page := by
    rintro (inside | ⟨rfl, some_page⟩)
    · cases inside
    · exact some_page rfl
  have unset : ¬ (zeroedPmm mem).apLowPage ≠ 0 := by simp [zeroedPmm]
  refine (placed_run (candidates mmap unsafeRanges) (zeroedPmm mem) page).trans ?_
  simp only [nothing, unset, false_or, Taken]

theorem reserves_iff {mem : Mem} {mmap : List MmapEntry} {unsafeRanges : List MemoryRange} {p : Pmm}
    (h : scanMap mem mmap unsafeRanges = some p) :
    Reserves p unsafeRanges ↔ ∀ page, Taken mmap unsafeRanges page →
      ∀ range ∈ unsafeRanges, ¬ StartsInside page range := by
  unfold Reserves
  simp only [scanMap_placed h]
  refine forall_congr' fun page => imp_congr_right fun taken => forall₂_congr fun range inside => ?_
  obtain ⟨before, after, split, -⟩ := taken
  have free := candidate_free (show page ∈ candidates mmap unsafeRanges by simp [split]) range
    inside
  rw [overlaps_iff free]

theorem ledger_placed (p : Pmm) {page : Nat} (h : page ∈ p.ledger.pages) : Placed p page := by
  simp only [Pmm.ledger, Ledger.pages, List.mem_append] at h
  rcases h with low | stack
  · split at low
    · cases low
    · rename_i set
      obtain rfl := List.mem_singleton.mp low
      exact .inr ⟨rfl, set⟩
  · exact .inl stack

/- The second part is about what the PMM hands out later: every page that is held or on the
stack after any calls was taken by the scan. -/
theorem pmmInit_reserves_iff (mem : Mem) (pml4t : Nat) (mmap : List MmapEntry)
    (unsafeRanges : List MemoryRange) :
    ((∃ p, scanMap mem mmap unsafeRanges = some p ∧ Reserves p unsafeRanges) ↔
      (others mmap).length ≤ 32 ∧ ∀ page, Taken mmap unsafeRanges page →
        ∀ range ∈ unsafeRanges, ¬ StartsInside page range) ∧
    ((∀ page, Taken mmap unsafeRanges page →
        ∀ range ∈ unsafeRanges, ¬ StartsInside page range) →
      ∀ p calls l, pmmInit mem pml4t mmap unsafeRanges = some p →
        p.ledger.run calls = some l → ∀ page ∈ l.pages, ∀ range ∈ unsafeRanges,
          ¬ Overlaps page range) := by
  constructor
  · constructor
    · rintro ⟨p, scan, reserves⟩
      exact ⟨(scanMap_ranges scan).1, (reserves_iff scan).mp reserves⟩
    · rintro ⟨room, clear⟩
      obtain ⟨p, scan⟩ := scanMap_returns room mem unsafeRanges
      exact ⟨p, scan, (reserves_iff scan).mpr clear⟩
  · intro clear p calls l init run page inside
    obtain ⟨q, scan, pages⟩ := pmmInit_pages init
    have member := (pages.subset ((run_pages run).subset inside))
    exact (reserves_iff scan).mpr clear page (ledger_placed q member)

/-- A range in the middle of the only usable page. -/
theorem pmmInit_takes_split_page :
    ∃ p, scanMap (fun _ _ => 0) [⟨0x100000, 0x1000, 1⟩] [⟨0x100800, 0x100900⟩] = some p ∧
      0x100000 ∈ p.phys.freePages ∧ Overlaps 0x100000 ⟨0x100800, 0x100900⟩ :=
  ⟨_, rfl, by decide, 0x100800, by decide, by decide, by decide⟩

end Gapxos
