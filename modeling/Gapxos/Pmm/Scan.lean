import Gapxos.Pmm.InitPaging

/-! pmm_init: the scan of the memory map that fills the stack of free pages, sets one low
page aside for the application processors and records what is not usable. -/
namespace Gapxos

structure MmapEntry where
  baseAddr : UInt64
  length : UInt64
  type : UInt32
deriving DecidableEq, Repr

structure MemoryRange where
  start : UInt64
  stop : UInt64
deriving DecidableEq, Repr

inductive RangeType
  | reserved
  | defective
  | hiberSave
deriving DecidableEq, Repr

structure PhysicalOtherRange where
  start : UInt64
  size : UInt64
  type : RangeType
deriving DecidableEq, Repr

/- `apLowPage` is 0 as long as no page has been set aside. -/
structure Pmm where
  phys : Phys
  apLowPage : Nat
  ranges : List PhysicalOtherRange

def isInRange (page : Nat) (range : MemoryRange) : Bool :=
  decide (range.start.toNat ≤ page) && decide (page < range.stop.toNat)

def MmapEntry.usable (e : MmapEntry) : Bool := e.type == 1

def MmapEntry.endAddr (e : MmapEntry) : Nat := (e.baseAddr.toNat + e.length.toNat) % 2 ^ 64

def scanStart (e : MmapEntry) : Nat :=
  let start := e.baseAddr.toNat
  if start % 4096 ≠ 0 then (start + (4096 - start % 4096)) % 2 ^ 64 else start

def scanEnd (e : MmapEntry) : Nat := e.endAddr - e.endAddr % 4096

def scanPages (e : MmapEntry) : List Nat :=
  (List.range ((scanEnd e - scanStart e + 4095) / 4096)).map (scanStart e + 4096 * ·)

def isFree (unsafeRanges : List MemoryRange) (cur : Nat) : Bool :=
  unsafeRanges.all fun range => !isInRange cur range

def placePage (p : Pmm) (cur : Nat) : Pmm :=
  if p.apLowPage = 0 ∧ cur < 1 <<< 20 then { p with apLowPage := cur }
  else { p with phys := pmmFreePage p.phys cur }

def scanPage (unsafeRanges : List MemoryRange) (p : Pmm) (cur : Nat) : Pmm :=
  if isFree unsafeRanges cur then placePage p cur else p

def otherRange (e : MmapEntry) : PhysicalOtherRange :=
  { start := e.baseAddr, size := e.length
    type := if e.type = 3 then .reserved else if e.type = 4 then .hiberSave
      else if e.type = 5 then .defective else .reserved }

/- `_ranges` has 32 places. -/
def scanEntry (unsafeRanges : List MemoryRange) (p : Pmm) (e : MmapEntry) : Option Pmm :=
  if e.usable then some ((scanPages e).foldl (scanPage unsafeRanges) p)
  else if p.ranges.length < 32 then some { p with ranges := p.ranges ++ [otherRange e] }
  else none

def maxAddr (mmap : List MmapEntry) : Nat :=
  mmap.foldl (fun highest e => if e.endAddr > highest then e.endAddr else highest) 0

def zeroedPmm (mem : Mem) : Pmm := ⟨⟨mem, [], 0⟩, 0, []⟩

/-- The loop of pmm_init over the map. -/
def scanMap (mem : Mem) (mmap : List MmapEntry) (unsafeRanges : List MemoryRange) : Option Pmm :=
  mmap.foldlM (scanEntry unsafeRanges) (zeroedPmm mem)

def pmmInit (mem : Mem) (pml4t : Nat) (mmap : List MmapEntry)
    (unsafeRanges : List MemoryRange) : Option Pmm := do
  let p ← scanMap mem mmap unsafeRanges
  let phys ← initPaging p.phys pml4t (maxAddr mmap)
  some { p with phys }

/-- The pages that pass the test, in the order of the map. -/
def candidates (mmap : List MmapEntry) (unsafeRanges : List MemoryRange) : List Nat :=
  (mmap.filter (·.usable)).flatMap fun e => (scanPages e).filter (isFree unsafeRanges)

def others (mmap : List MmapEntry) : List PhysicalOtherRange :=
  (mmap.filter (!·.usable)).map otherRange

theorem placePage_ranges (p : Pmm) (rs : List PhysicalOtherRange) (cur : Nat) :
    placePage { p with ranges := rs } cur = { placePage p cur with ranges := rs } := by
  unfold placePage
  dsimp only
  split <;> rfl

theorem place_ranges (p : Pmm) (rs : List PhysicalOtherRange) (pages : List Nat) :
    pages.foldl placePage { p with ranges := rs } =
      { pages.foldl placePage p with ranges := rs } := by
  induction pages generalizing p with
  | nil => rfl
  | cons cur pages ih => rw [List.foldl_cons, placePage_ranges, ih, List.foldl_cons]

theorem scanPages_fold (unsafeRanges : List MemoryRange) (p : Pmm) (pages : List Nat) :
    pages.foldl (scanPage unsafeRanges) p =
      (pages.filter (isFree unsafeRanges)).foldl placePage p := by
  rw [List.foldl_filter]
  rfl

theorem scan_run (mmap : List MmapEntry) (unsafeRanges : List MemoryRange) (p : Pmm)
    (room : p.ranges.length ≤ 32) :
    mmap.foldlM (scanEntry unsafeRanges) p =
      if p.ranges.length + (others mmap).length ≤ 32 then
        some { (candidates mmap unsafeRanges).foldl placePage p with
          ranges := p.ranges ++ others mmap }
      else none := by
  induction mmap generalizing p with
  | nil => simp [others, candidates, room]
  | cons e mmap ih =>
    rw [List.foldlM_cons]
    by_cases usable : e.usable = true
    · have same : others (e :: mmap) = others mmap := by simp [others, usable]
      have kept : (((scanPages e).filter (isFree unsafeRanges)).foldl placePage p).ranges =
          p.ranges := by
        rw [← congrArg Pmm.ranges (place_ranges p p.ranges _)]
      rw [scanEntry, if_pos usable, scanPages_fold, same]
      simp only [Option.bind_eq_bind, Option.bind_some]
      rw [ih _ (by rw [kept]; exact room), kept]
      simp [candidates, usable]
    · have more : others (e :: mmap) = otherRange e :: others mmap := by simp [others, usable]
      have same : candidates (e :: mmap) unsafeRanges = candidates mmap unsafeRanges := by
        simp [candidates, usable]
      rw [scanEntry, if_neg usable, more, same]
      by_cases full : p.ranges.length < 32
      · rw [if_pos full]
        simp only [Option.bind_eq_bind, Option.bind_some]
        rw [ih _ (by simp; omega), place_ranges]
        simp [Nat.add_comm, Nat.add_left_comm]
      · rw [if_neg full, if_neg (by simp; omega)]
        rfl

theorem scanMap_eq (mem : Mem) (mmap : List MmapEntry) (unsafeRanges : List MemoryRange) :
    scanMap mem mmap unsafeRanges =
      if (others mmap).length ≤ 32 then
        some { (candidates mmap unsafeRanges).foldl placePage (zeroedPmm mem) with
          ranges := others mmap }
      else none := by
  have empty : (zeroedPmm mem).ranges = [] := rfl
  rw [scanMap, scan_run mmap unsafeRanges (zeroedPmm mem) (by simp [empty]), empty]
  simp

theorem scanMap_returns {mmap : List MmapEntry} (room : (others mmap).length ≤ 32) (mem : Mem)
    (unsafeRanges : List MemoryRange) : ∃ p, scanMap mem mmap unsafeRanges = some p :=
  ⟨_, by rw [scanMap_eq, if_pos room]⟩

theorem scanMap_ranges {mem : Mem} {mmap : List MmapEntry} {unsafeRanges : List MemoryRange}
    {p : Pmm} (h : scanMap mem mmap unsafeRanges = some p) :
    (others mmap).length ≤ 32 ∧ p.ranges = others mmap := by
  rw [scanMap_eq, Option.ite_none_right_eq_some, Option.some.injEq] at h
  obtain ⟨room, rfl⟩ := h
  exact ⟨room, rfl⟩

/-- A page the PMM has in its hands: on the stack, or set aside. -/
def Placed (p : Pmm) (page : Nat) : Prop :=
  page ∈ p.phys.freePages ∨ page = p.apLowPage ∧ page ≠ 0

/- Page 0 stored in `apLowPage` reads as no page at all, so it is lost unless a low page was
set aside before. -/
theorem placed_step (p : Pmm) (cur page : Nat) :
    Placed (placePage p cur) page ↔
      Placed p page ∨ page = cur ∧ (cur ≠ 0 ∨ p.apLowPage ≠ 0) := by
  unfold placePage
  split
  · rename_i unset
    simp only [Placed, unset.1]
    constructor
    · rintro (old | ⟨rfl, some_page⟩)
      · exact .inl (.inl old)
      · exact .inr ⟨rfl, .inl some_page⟩
    · rintro ((old | ⟨rfl, absurd_page⟩) | ⟨rfl, some_page | absurd_page⟩)
      · exact .inl old
      · exact absurd rfl absurd_page
      · exact .inr ⟨rfl, some_page⟩
      · exact absurd rfl absurd_page
  · rename_i set_or_high
    simp only [Placed, pmmFreePage, List.mem_append, List.mem_singleton]
    have pushed : cur ≠ 0 ∨ p.apLowPage ≠ 0 := by
      by_contra neither
      rw [not_or, not_not, not_not] at neither
      exact set_or_high ⟨neither.2, by rw [neither.1]; decide⟩
    constructor
    · rintro ((old | rfl) | low)
      · exact .inl (.inl old)
      · exact .inr ⟨rfl, pushed⟩
      · exact .inl (.inr low)
    · rintro ((old | low) | ⟨rfl, -⟩)
      · exact .inl (.inl old)
      · exact .inr low
      · exact .inl (.inr rfl)

theorem lowPage_step (p : Pmm) (cur : Nat) :
    (placePage p cur).apLowPage ≠ 0 ↔ p.apLowPage ≠ 0 ∨ 0 < cur ∧ cur < 1 <<< 20 := by
  unfold placePage
  split
  · rename_i unset
    simp only [unset.1, unset.2, and_true]
    omega
  · rename_i set_or_high
    constructor
    · exact .inl
    · rintro (set | low)
      · exact set
      · exact fun unset => set_or_high ⟨unset, low.2⟩

theorem placed_run (pages : List Nat) (p : Pmm) (page : Nat) :
    Placed (pages.foldl placePage p) page ↔ Placed p page ∨ ∃ before after,
      pages = before ++ page :: after ∧
        (page ≠ 0 ∨ p.apLowPage ≠ 0 ∨ ∃ low ∈ before, 0 < low ∧ low < 1 <<< 20) := by
  induction pages generalizing p with
  | nil => simp
  | cons cur pages ih =>
    rw [List.foldl_cons, ih, placed_step, lowPage_step, or_assoc]
    refine or_congr_right ?_
    constructor
    · rintro (⟨rfl, here⟩ | ⟨before, after, rfl, set⟩)
      · refine ⟨[], pages, rfl, ?_⟩
        rcases here with some_page | set
        · exact .inl some_page
        · exact .inr (.inl set)
      · refine ⟨cur :: before, after, rfl, ?_⟩
        rcases set with some_page | (set | low) | ⟨low, inside, small⟩
        · exact .inl some_page
        · exact .inr (.inl set)
        · exact .inr (.inr ⟨cur, List.mem_cons_self, low⟩)
        · exact .inr (.inr ⟨low, List.mem_cons_of_mem cur inside, small⟩)
    · rintro ⟨before, after, split, set⟩
      cases before with
      | nil =>
        obtain ⟨rfl, rfl⟩ := List.cons.inj split
        refine .inl ⟨rfl, ?_⟩
        rcases set with some_page | set | ⟨low, inside, -⟩
        · exact .inl some_page
        · exact .inr set
        · cases inside
      | cons first before =>
        obtain ⟨rfl, rfl⟩ := List.cons.inj split
        refine .inr ⟨before, after, rfl, ?_⟩
        rcases set with some_page | set | ⟨low, inside, small⟩
        · exact .inl some_page
        · exact .inr (.inl (.inl set))
        · rcases List.mem_cons.mp inside with rfl | inside
          · exact .inr (.inl (.inr small))
          · exact .inr (.inr ⟨low, inside, small⟩)

end Gapxos
