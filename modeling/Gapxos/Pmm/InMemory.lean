import Gapxos.Boot.KernelMain
import Gapxos.Pmm.Linear
import Gapxos.Lib.Translated
import Gapxos.Lib.WordArray

/-! The allocator with its stack of free pages where the code has it, in an array in the memory
that it manages, and with each of its accesses made through the page tables that are loaded. The
other modules keep the stack as a list beside the memory; here the code is run on bytes and
compared with them. -/
namespace Gapxos
open Bytes Radix WordArray
open Translated (Steady Own eqOn_write)

/-- Where the byte at a linear address is, by the tables as the memory has them. -/
def linear (pml4t : Nat) (mem : Memory) (a : Nat) : Option Nat :=
  (reached (frames mem) (pml4t / 4096) a).map fun f => 4096 * f + a % 4096

/-- `_free_pages`, `_free_index`, `pmm_ap_low_page` and `_ranges`, with the memory. -/
structure PmmBytes where
  mem : Memory
  freePages : Nat
  freeIndex : Nat
  apLowPage : Nat
  ranges : List PhysicalOtherRange

namespace PmmBytes

variable (pml4t : Nat)

def load (s : PmmBytes) (a n : Nat) : Option Nat :=
  Translated.load (linear pml4t s.mem) s.mem a n

def store (s : PmmBytes) (a n w : Nat) : Option PmmBytes :=
  (Translated.store (linear pml4t s.mem) s.mem a n w).map fun mem => { s with mem }

def freePage (s : PmmBytes) (addr : Nat) : Option PmmBytes := do
  let s ← s.store pml4t (s.freePages + 8 * s.freeIndex) 8 addr
  some { s with freeIndex := s.freeIndex + 1 }

def allocPage (s : PmmBytes) : Option (Nat × PmmBytes) :=
  if s.freeIndex ≠ 0 then do
    let page ← s.load pml4t (s.freePages + 8 * (s.freeIndex - 1)) 8
    some (page, { s with freeIndex := s.freeIndex - 1 })
  else some (0, s)

def scanPage (unsafeRanges : List MemoryRange) (s : PmmBytes) (cur : Nat) : Option PmmBytes :=
  if isFree unsafeRanges cur then
    if s.apLowPage = 0 ∧ cur < 1 <<< 20 then some { s with apLowPage := cur }
    else s.freePage pml4t cur
  else some s

def entryAt (s : PmmBytes) (map i : Nat) : Option MmapEntry := do
  let base ← s.load pml4t (map + 24 * i) 8
  let length ← s.load pml4t (map + 24 * i + 8) 8
  let type ← s.load pml4t (map + 24 * i + 16) 4
  some ⟨UInt64.ofNat base, UInt64.ofNat length, UInt32.ofNat type⟩

/- A round of the scan, with `max_addr`. The entry is read while the stack is being written. -/
def scanEntry (map : Nat) (unsafeRanges : List MemoryRange) (s : PmmBytes × Nat) (i : Nat) :
    Option (PmmBytes × Nat) := do
  let e ← s.1.entryAt pml4t map i
  let highest := if e.endAddr > s.2 then e.endAddr else s.2
  if e.usable then do
    let t ← (scanPages e).foldlM (scanPage pml4t unsafeRanges) s.1
    some (t, highest)
  else if s.1.ranges.length < 32 then
    some ({ s.1 with ranges := s.1.ranges ++ [otherRange e] }, highest)
  else none

def lowestIdx (s : PmmBytes) : Nat → Option Int
  | 0 => some 0
  | i + 1 => do
    let lowest ← lowestIdx s i
    let page ← s.load pml4t (s.freePages + 8 * i) 8
    let best ← s.load pml4t (s.freePages + 8 * lowest).toNat 8
    some (if page < best then int32 i else lowest)

def moveDown (s : PmmBytes) (i : Nat) : Option PmmBytes := do
  let page ← s.load pml4t (s.freePages + 8 * i) 8
  s.store pml4t (s.freePages + 8 * (i - 1)) 8 page

/- `lowest_idx + 1` is an int, and an unsigned 64-bit index only then. -/
def getLowPage (s : PmmBytes) : Option (Nat × PmmBytes) := do
  let lowest ← s.lowestIdx pml4t s.freeIndex
  let val ← s.load pml4t (s.freePages + 8 * lowest).toNat 8
  if lowest + 1 < 2 ^ 31 then do
    let start := ((lowest + 1) % 2 ^ 64).toNat
    let s ← (List.range' start (s.freeIndex - start)).foldlM (moveDown pml4t) s
    some (val, { s with freeIndex := (s.freeIndex + (2 ^ 64 - 1)) % 2 ^ 64 })
  else none

def zeroPage (s : PmmBytes) (page : Nat) : Option PmmBytes :=
  (List.range 4096).foldlM (fun s i => s.store pml4t (page + i) 1 0) s

def zeroedLowPage (s : PmmBytes) : Option (Nat × PmmBytes) := do
  let (page, s) ← s.getLowPage pml4t
  let s ← s.zeroPage pml4t page
  some (page, s)

def setWord (s : PmmBytes) (a : Nat) (w : Word) : Option PmmBytes := s.store pml4t a 8 w.toNat

def fillPage (s : PmmBytes) (page : Nat) (word : Fin 512 → Word) : Option PmmBytes :=
  (List.finRange 512).foldlM (fun s (j : Fin 512) => s.setWord pml4t (page + 8 * j) (word j)) s

def openPdpt (s : PmmBytes) (entry : Nat) : Option (Word × PmmBytes) := do
  let pml4 ← s.load pml4t entry 8
  if present (BitVec.ofNat 64 pml4) then some (BitVec.ofNat 64 pml4, s)
  else do
    let (ptr, s) ← s.zeroedLowPage pml4t
    let s ← s.setWord pml4t entry (tableEntry ptr)
    some (tableEntry ptr, s)

def mapGib (s : PmmBytes) (i : Nat) : Option PmmBytes := do
  let (page, s) ← s.zeroedLowPage pml4t
  let s ← s.fillPage pml4t page (gibEntry i)
  let offset := (physicalMapOffset &&& 0xffffffffffff) + i
  let (pml4, s) ← s.openPdpt pml4t (pml4t + 8 * (offset / 0x8000000000))
  let pdpt := (pml4 &&& 0xfffffffffffff000#64).toNat
  s.setWord pml4t (pdpt + 8 * (offset % 0x8000000000 / 0x40000000)) (tableEntry page)

def initPaging (s : PmmBytes) (physMemLength : Nat) : Option PmmBytes :=
  (List.range (gibs physMemLength)).foldlM (fun s n => s.mapGib pml4t (0x40000000 * n)) s

/-- pmm_init on the memory as kernel_main leaves it. -/
def init (mem : Memory) (stack map entries : Nat) (unsafeRanges : List MemoryRange) :
    Option PmmBytes := do
  let s ← (List.range entries).foldlM (scanEntry pml4t map unsafeRanges)
    (⟨mem, stack, 0, 0, []⟩, 0)
  s.1.initPaging pml4t s.2

end PmmBytes

def Beside (a n f : Nat) : Prop := 4096 * f + 4096 ≤ a ∨ a + n ≤ 4096 * f

/- The bytes hold what the lists say: the array is the stack, and the frames beside its memory,
which is `room` bytes from `safe` on, are as in the model. Only bytes of `W` have changed. -/
structure InMemory (safe room : Nat) (W : Set Nat) (mem₀ : Memory) (s : PmmBytes) (p : Pmm) :
    Prop where
  place : s.freePages = safe
  stack : words s.mem safe s.freeIndex = p.phys.freePages
  frame : ∀ f, Beside safe room f → frames s.mem f = p.phys.mem f
  low : s.apLowPage = p.apLowPage
  others : s.ranges = p.ranges
  kept : Set.EqOn s.mem mem₀ Wᶜ

/- What the tables have to give: the memory of the array at its own addresses, whatever is
written to `W`. -/
structure Grounds (root safe room : Nat) (W : Set Nat) (mem₀ : Memory) : Prop where
  steady : Steady (linear (4096 * root)) W mem₀
  array : Set.Ico safe (safe + room) ⊆ Own (linear (4096 * root)) W mem₀

section Array

variable {root safe room a n w : Nat} {W : Set Nat} {mem₀ : Memory} {s t : PmmBytes} {p : Pmm}

theorem PmmBytes.store_own {pml4t : Nat} (steady : Steady (linear pml4t) W mem₀)
    (kept : Set.EqOn s.mem mem₀ Wᶜ) (own : Set.Ico a (a + n) ⊆ Own (linear pml4t) W mem₀)
    (w : Nat) : s.store pml4t a n w = some { s with mem := write s.mem a n w } ∧
      Set.EqOn (write s.mem a n w) mem₀ Wᶜ := by
  rw [PmmBytes.store, steady.store kept own]
  exact ⟨rfl, eqOn_write kept fun x inside => (own inside).1⟩

theorem Grounds.part (ground : Grounds root safe room W mem₀) (low : safe ≤ a)
    (high : a + n ≤ safe + room) : Set.Ico a (a + n) ⊆ Own (linear (4096 * root)) W mem₀ :=
  fun _ inside => ground.array ⟨Nat.le_trans low inside.1, Nat.lt_of_lt_of_le inside.2 high⟩

theorem Grounds.load (ground : Grounds root safe room W mem₀) (kept : Set.EqOn s.mem mem₀ Wᶜ)
    (low : safe ≤ a) (high : a + n ≤ safe + room) :
    s.load (4096 * root) a n = some (read s.mem a n) :=
  ground.steady.load kept fun _ inside => (ground.part low high inside).2

theorem InMemory.index (here : InMemory safe room W mem₀ s p) :
    s.freeIndex = p.phys.freePages.length := by
  rw [← here.stack, words_length]

/- A change of the array alone. -/
theorem InMemory.array (here : InMemory safe room W mem₀ s p) {mem : Memory} {index : Nat}
    {pages : List Nat} (same : ∀ x, x < safe ∨ safe + room ≤ x → mem x = s.mem x)
    (kept : Set.EqOn mem mem₀ Wᶜ) (stack : words mem safe index = pages) :
    InMemory safe room W mem₀ { s with mem, freeIndex := index }
      { p with phys := { p.phys with freePages := pages } } := by
  refine ⟨here.place, stack, fun f beside => ?_, here.low, here.others, kept⟩
  rw [← here.frame f beside]
  apply frames_congr
  intro x low high
  apply same
  unfold Beside at beside
  omega

theorem InMemory.free (here : InMemory safe room W mem₀ s p)
    (ground : Grounds root safe room W mem₀) {addr : Nat} (small : addr < 2 ^ 64)
    (fits : 8 * (p.phys.freePages.length + 1) ≤ room) :
    ∃ t, s.freePage (4096 * root) addr = some t ∧
      InMemory safe room W mem₀ t { p with phys := pmmFreePage p.phys addr } := by
  have index := here.index
  have own : Set.Ico (safe + 8 * s.freeIndex) (safe + 8 * s.freeIndex + 8) ⊆
      Own (linear (4096 * root)) W mem₀ := ground.part (by omega) (by omega)
  obtain ⟨stored, kept⟩ := PmmBytes.store_own ground.steady here.kept own addr
  rw [PmmBytes.freePage, here.place, stored]
  refine ⟨_, rfl, here.array (fun x off => write_other (by omega)) kept ?_⟩
  rw [words_push s.mem safe s.freeIndex small, here.stack]

end Array

section Scan

variable {root safe room map : Nat} {W : Set Nat} {mem₀ : Memory} {s : PmmBytes} {p p' : Pmm}
  {unsafeRanges : List MemoryRange}

theorem InMemory.place_page (here : InMemory safe room W mem₀ s p)
    (ground : Grounds root safe room W mem₀) {cur : Nat} (small : cur < 2 ^ 64)
    (fits : 8 * (p.phys.freePages.length + 1) ≤ room) (free : isFree unsafeRanges cur = true) :
    ∃ t, s.scanPage (4096 * root) unsafeRanges cur = some t ∧
      InMemory safe room W mem₀ t (placePage p cur) ∧
      (placePage p cur).phys.freePages.length ≤ p.phys.freePages.length + 1 := by
  rw [PmmBytes.scanPage, if_pos free, placePage, here.low]
  split
  · exact ⟨_, rfl, ⟨here.place, here.stack, here.frame, rfl, here.others, here.kept⟩,
      Nat.le_succ _⟩
  · obtain ⟨t, stored, after⟩ := here.free ground small fits
    exact ⟨t, stored, after, by simp [pmmFreePage]⟩

theorem InMemory.pages (here : InMemory safe room W mem₀ s p)
    (ground : Grounds root safe room W mem₀) {pages : List Nat}
    (small : ∀ page ∈ pages, page < 2 ^ 64)
    (fits : 8 * (p.phys.freePages.length + (pages.filter (isFree unsafeRanges)).length) ≤ room) :
    ∃ t, pages.foldlM (PmmBytes.scanPage (4096 * root) unsafeRanges) s = some t ∧
      InMemory safe room W mem₀ t (pages.foldl (scanPage unsafeRanges) p) ∧
      (pages.foldl (scanPage unsafeRanges) p).phys.freePages.length ≤
        p.phys.freePages.length + (pages.filter (isFree unsafeRanges)).length := by
  induction pages generalizing s p with
  | nil => exact ⟨s, rfl, here, Nat.le_refl _⟩
  | cons cur pages ih =>
    obtain ⟨first, rest⟩ := List.forall_mem_cons.mp small
    simp only [List.foldlM_cons, List.foldl_cons, List.filter_cons, Option.bind_eq_bind] at fits ⊢
    by_cases free : isFree unsafeRanges cur = true
    · rw [if_pos free, List.length_cons] at fits ⊢
      obtain ⟨t, stored, after, more⟩ := here.place_page ground first (by omega) free
      rw [scanPage, if_pos free, stored, Option.bind_some]
      obtain ⟨u, run, final, count⟩ := ih after rest (by omega)
      exact ⟨u, run, final, by omega⟩
    · rw [if_neg free] at fits ⊢
      rw [PmmBytes.scanPage, if_neg free, scanPage, if_neg free, Option.bind_some]
      exact ih here rest fits

theorem candidates_cons (e : MmapEntry) (mmap : List MmapEntry) :
    (candidates (e :: mmap) unsafeRanges).length =
      (candidates [e] unsafeRanges).length + (candidates mmap unsafeRanges).length := by
  by_cases used : e.usable = true <;> simp [candidates, used]

theorem mmapEntryAt_congr {mem mem' : Memory} {i : Nat}
    (same : ∀ x, map + 24 * i ≤ x → x < map + 24 * i + 24 → mem' x = mem x) :
    mmapEntryAt mem' map i = mmapEntryAt mem map i := by
  have base : read mem' (map + 24 * i) 8 = read mem (map + 24 * i) 8 :=
    read_congr fun x low high => same x low (by omega)
  have length : read mem' (map + 24 * i + 8) 8 = read mem (map + 24 * i + 8) 8 :=
    read_congr fun x low high => same x (by omega) (by omega)
  have type : read mem' (map + 24 * i + 16) 4 = read mem (map + 24 * i + 16) 4 :=
    read_congr fun x low high => same x (by omega) (by omega)
  rw [mmapEntryAt, base, length, type]
  rfl

theorem entryAt_self {pml4t : Nat} (steady : Steady (linear pml4t) W mem₀)
    (kept : Set.EqOn s.mem mem₀ Wᶜ) {i : Nat}
    (self : ∀ x, map + 24 * i ≤ x → x < map + 24 * i + 24 → linear pml4t mem₀ x = some x)
    (off : ∀ x, map + 24 * i ≤ x → x < map + 24 * i + 24 → x ∉ W) :
    s.entryAt pml4t map i = some (mmapEntryAt mem₀ map i) := by
  have field : ∀ k n, k + n ≤ 24 → s.load pml4t (map + 24 * i + k) n =
      some (read s.mem (map + 24 * i + k) n) := by
    intro k n inside
    apply steady.load kept
    rintro x ⟨low, high⟩
    exact self x (by omega) (by omega)
  have base := field 0 8 (by omega)
  rw [Nat.add_zero] at base
  have same : mmapEntryAt s.mem map i = mmapEntryAt mem₀ map i :=
    mmapEntryAt_congr fun x low high => kept (off x low high)
  rw [PmmBytes.entryAt, base, field 8 8 (by omega), field 16 4 (by omega), ← same]
  rfl

theorem InMemory.entry (here : InMemory safe room W mem₀ s p)
    (ground : Grounds root safe room W mem₀) {e : MmapEntry} {i : Nat} (highest : Nat)
    (found : s.entryAt (4096 * root) map i = some e)
    (width : e.usable = true → e.baseAddr.toNat + e.length.toNat ≤ 2 ^ 52)
    (fits : 8 * (p.phys.freePages.length + (candidates [e] unsafeRanges).length) ≤ room)
    (scan : scanEntry unsafeRanges p e = some p') :
    ∃ t, PmmBytes.scanEntry (4096 * root) map unsafeRanges (s, highest) i =
        some (t, if e.endAddr > highest then e.endAddr else highest) ∧
      InMemory safe room W mem₀ t p' ∧ p'.phys.freePages.length ≤
        p.phys.freePages.length + (candidates [e] unsafeRanges).length := by
  rw [PmmBytes.scanEntry, found, Option.bind_eq_bind, Option.bind_some]
  unfold scanEntry at scan
  by_cases used : e.usable = true
  · rw [if_pos used] at scan
    obtain rfl := Option.some.inj scan
    have own : candidates [e] unsafeRanges = (scanPages e).filter (isFree unsafeRanges) := by
      simp [candidates, used]
    rw [own] at fits ⊢
    have small : ∀ page ∈ scanPages e, page < 2 ^ 64 := by
      intro page inside
      have := (scanPages_iff (width used)).mp inside
      have := width used
      omega
    obtain ⟨t, run, after, count⟩ := here.pages ground small fits
    refine ⟨t, ?_, after, count⟩
    simp only [used, if_true, run, Option.bind_eq_bind, Option.bind_some]
  · rw [if_neg used] at scan
    split at scan
    · rename_i few
      obtain rfl := Option.some.inj scan
      refine ⟨{ s with ranges := s.ranges ++ [otherRange e] }, ?_,
        ⟨here.place, here.stack, here.frame, here.low, ?_, here.kept⟩, Nat.le_add_right _ _⟩
      · simp only [used, here.others, few, if_true]
        rfl
      · rw [here.others]
    · cases scan

/- The whole scan writes to the array only, where no entry of the map is. -/
theorem InMemory.scan {is : List Nat}
    (here : InMemory safe room (Set.Ico safe (safe + room)) mem₀ s p)
    (ground : Grounds root safe room (Set.Ico safe (safe + room)) mem₀) (highest : Nat)
    (self : ∀ i ∈ is, ∀ x, map + 24 * i ≤ x → x < map + 24 * i + 24 →
      linear (4096 * root) mem₀ x = some x)
    (clear : ∀ i ∈ is, map + 24 * i + 24 ≤ safe ∨ safe + room ≤ map + 24 * i)
    (width : ∀ i ∈ is, (mmapEntryAt mem₀ map i).usable = true →
      (mmapEntryAt mem₀ map i).baseAddr.toNat + (mmapEntryAt mem₀ map i).length.toNat ≤ 2 ^ 52)
    (fits : 8 * (p.phys.freePages.length +
      (candidates (is.map (mmapEntryAt mem₀ map)) unsafeRanges).length) ≤ room)
    (scan : (is.map (mmapEntryAt mem₀ map)).foldlM (scanEntry unsafeRanges) p = some p') :
    ∃ t, is.foldlM (PmmBytes.scanEntry (4096 * root) map unsafeRanges) (s, highest) =
        some (t, (is.map (mmapEntryAt mem₀ map)).foldl
          (fun highest e => if e.endAddr > highest then e.endAddr else highest) highest) ∧
      InMemory safe room (Set.Ico safe (safe + room)) mem₀ t p' := by
  -- by induction on the entries that are left
  induction is generalizing s p highest with
  | nil =>
    obtain rfl := Option.some.inj scan
    exact ⟨s, rfl, here⟩
  | cons i is ih =>
    obtain ⟨seen, seen'⟩ := List.forall_mem_cons.mp self
    obtain ⟨off, off'⟩ := List.forall_mem_cons.mp clear
    obtain ⟨short, short'⟩ := List.forall_mem_cons.mp width
    rw [List.map_cons, candidates_cons] at fits
    rw [List.map_cons, List.foldlM_cons, Option.bind_eq_bind] at scan
    obtain ⟨q, one, rest⟩ := Option.bind_eq_some_iff.mp scan
    have first := entryAt_self ground.steady here.kept seen fun x low high inside => by
      have := inside.1
      have := inside.2
      omega
    obtain ⟨t, step, after, count⟩ := here.entry ground highest first short (by omega) one
    obtain ⟨u, run, final⟩ := ih after _ seen' off' short' (by omega) rest
    refine ⟨u, ?_, final⟩
    rw [List.foldlM_cons, step, Option.bind_eq_bind, Option.bind_some, run, List.map_cons,
      List.foldl_cons]

end Scan

section LowPage

variable {root safe room n : Nat} {W : Set Nat} {mem₀ : Memory} {s : PmmBytes} {p : Pmm}

theorem Grounds.lowest_found (ground : Grounds root safe room W mem₀)
    (kept : Set.EqOn s.mem mem₀ Wᶜ) (place : s.freePages = safe) (fits : 8 * n ≤ room) {i : Nat}
    (inside : i ≤ n) {x : Int} (found : lowestIdx (words s.mem safe n) i = some x) :
    s.lowestIdx (4096 * root) i = some x := by
  induction i generalizing x with
  | zero => exact found
  | succ i ih =>
    simp only [lowestIdx, Option.bind_eq_bind, Option.bind_eq_some_iff] at found
    obtain ⟨lowest, before, page, here, best, there, eq⟩ := found
    obtain ⟨k, rfl, at_k⟩ := readAt_some there
    rw [words_getElem? s.mem safe (by omega)] at here
    have less : k < n := by simpa using (List.getElem?_eq_some_iff.mp at_k).1
    rw [words_getElem? s.mem safe less] at at_k
    have spot : ((safe : Int) + 8 * (k : Int)).toNat = safe + 8 * k := by omega
    have one := ground.load kept (a := safe + 8 * i) (n := 8) (by omega) (by omega)
    have two := ground.load kept (a := safe + 8 * k) (n := 8) (by omega) (by omega)
    simp only [PmmBytes.lowestIdx, ih (by omega) before, place, spot, one, two, here, at_k,
      Option.bind_eq_bind, Option.bind_some]
    exact eq

theorem Grounds.move_down (ground : Grounds root safe room W mem₀)
    (kept : Set.EqOn s.mem mem₀ Wᶜ) (place : s.freePages = safe) (fits : 8 * n ≤ room) {i : Nat}
    (inside : 0 < i ∧ i < n) :
    ∃ mem, s.moveDown (4096 * root) i = some { s with mem } ∧
      words mem safe n = moveDown (words s.mem safe n) i ∧ Set.EqOn mem mem₀ Wᶜ ∧
      ∀ x, x < safe ∨ safe + room ≤ x → mem x = s.mem x := by
  have taken := ground.load kept (a := safe + 8 * i) (n := 8) (by omega) (by omega)
  obtain ⟨stored, kept'⟩ := PmmBytes.store_own ground.steady kept
    (ground.part (a := safe + 8 * (i - 1)) (n := 8) (by omega) (by omega))
    (read s.mem (safe + 8 * i) 8)
  refine ⟨_, ?_, ?_, kept', fun x off => write_other (by omega)⟩
  · rw [PmmBytes.moveDown, place, taken, Option.bind_eq_bind, Option.bind_some, stored, ← place]
  · rw [words_set s.mem safe (by omega) (read_lt s.mem _ 8), moveDown,
      List.getD_eq_getElem?_getD, words_getElem? s.mem safe inside.2]
    rfl

theorem Grounds.moved_down (ground : Grounds root safe room W mem₀)
    (kept : Set.EqOn s.mem mem₀ Wᶜ) (place : s.freePages = safe) (fits : 8 * n ≤ room)
    {is : List Nat} (inside : ∀ i ∈ is, 0 < i ∧ i < n) :
    ∃ mem, is.foldlM (PmmBytes.moveDown (4096 * root)) s = some { s with mem } ∧
      words mem safe n = is.foldl moveDown (words s.mem safe n) ∧ Set.EqOn mem mem₀ Wᶜ ∧
      ∀ x, x < safe ∨ safe + room ≤ x → mem x = s.mem x := by
  induction is generalizing s with
  | nil => exact ⟨s.mem, rfl, rfl, kept, fun _ _ => rfl⟩
  | cons i is ih =>
    obtain ⟨here, rest⟩ := List.forall_mem_cons.mp inside
    obtain ⟨mem, one, moved, kept', out⟩ := ground.move_down kept place fits here
    obtain ⟨mem', run, same, final, out'⟩ := ih (s := { s with mem }) kept' place rest
    refine ⟨mem', ?_, ?_, final, fun x off => (out' x off).trans (out x off)⟩
    · rw [List.foldlM_cons, one, Option.bind_eq_bind, Option.bind_some, run]
    · rw [List.foldl_cons, same, moved]

theorem words_dropLast (mem : Memory) (a n : Nat) :
    (words mem a n).dropLast = words mem a (n - 1) := by
  cases n with
  | zero => rfl
  | succ n => rw [words_succ, List.dropLast_concat, Nat.add_sub_cancel]

theorem InMemory.draw_low (here : InMemory safe room W mem₀ s p)
    (ground : Grounds root safe room W mem₀) (fits : 8 * p.phys.freePages.length ≤ room)
    (bound : room < 2 ^ 64) {rest : List Nat} {v : Nat}
    (draw : getLowPage p.phys.freePages = some (v, rest)) :
    ∃ t, s.getLowPage (4096 * root) = some (v, t) ∧
      InMemory safe room W mem₀ t { p with phys := { p.phys with freePages := rest } } := by
  have index := here.index
  rw [← here.stack] at draw
  simp only [getLowPage, Option.bind_eq_bind, Option.bind_eq_some_iff, words_length] at draw
  obtain ⟨lowest, scan, val, there, draw⟩ := draw
  split at draw
  · rename_i near
    obtain ⟨rfl, rfl⟩ := Prod.mk.inj (Option.some.inj draw)
    obtain ⟨k, rfl, at_k⟩ := readAt_some there
    have less : k < s.freeIndex := by simpa using (List.getElem?_eq_some_iff.mp at_k).1
    rw [words_getElem? s.mem safe less] at at_k
    have found := ground.lowest_found here.kept here.place (by omega) (Nat.le_refl _) scan
    have spot : ((safe : Int) + 8 * (k : Int)).toNat = safe + 8 * k := by omega
    have start : (((k : Int) + 1) % 2 ^ 64).toNat = k + 1 := by omega
    have count : (s.freeIndex + (2 ^ 64 - 1)) % 2 ^ 64 = s.freeIndex - 1 := by omega
    have taken := ground.load here.kept (a := safe + 8 * k) (n := 8) (by omega) (by omega)
    have inside : ∀ i ∈ List.range' (k + 1) (s.freeIndex - (k + 1)), 0 < i ∧ i < s.freeIndex := by
      intro i inside
      rw [List.mem_range'_1] at inside
      omega
    obtain ⟨mem, run, same, kept, out⟩ :=
      ground.moved_down here.kept here.place (show 8 * s.freeIndex ≤ room by omega) inside
    refine ⟨{ s with mem, freeIndex := s.freeIndex - 1 }, ?_, here.array out kept ?_⟩
    · simp only [PmmBytes.getLowPage, found, here.place, spot, taken, at_k, Option.bind_eq_bind,
        Option.bind_some, if_pos near, start, run, count]
    · rw [← words_dropLast, same, shiftDown, words_length]
      rfl
  · cases draw

end LowPage

/-- The frame can become a table: it lies beside the array and is not the PML4. -/
structure Fit (root safe room : Nat) (W : Set Nat) (mem₀ : Memory) (k : Nat) : Prop where
  beside : Beside safe room k
  other : k ≠ root
  own : Set.Ico (4096 * k) (4096 * k + 4096) ⊆ Own (linear (4096 * root)) W mem₀

structure PagingGrounds (root safe room : Nat) (W : Set Nat) (mem₀ : Memory) : Prop
    extends Grounds root safe room W mem₀ where
  bound : room < 2 ^ 64
  top : Beside safe room root
  slots : Set.Ico (4096 * root + 8 * 384) (4096 * root + 8 * 511) ⊆
    Own (linear (4096 * root)) W mem₀

/- What holds while the direct map is built: the pages that will not be left on the stack at its
end, `last`, can become tables, as can those that are linked in the PML4. -/
structure Drawing (root safe room : Nat) (W : Set Nat) (mem₀ : Memory) (last : List Nat)
    (s : PmmBytes) (p : Pmm) : Prop where
  here : InMemory safe room W mem₀ s p
  fits : 8 * p.phys.freePages.length ≤ room
  distinct : p.phys.freePages.Nodup
  free : ∀ page ∈ p.phys.freePages, page ∉ last →
    ∃ k < 2 ^ 40, page = 4096 * k ∧ Fit root safe room W mem₀ k
  linked : ∀ i : Fin 512, 384 ≤ i.val → i.val ≤ 510 → present (p.phys.mem root i) = true →
    Fit root safe room W mem₀ ((p.phys.mem root i &&& 0xfffffffffffff000#64).toNat / 4096)

section Paging

variable {root safe room k : Nat} {W : Set Nat} {mem₀ : Memory} {last : List Nat} {s : PmmBytes}
  {p : Pmm}

theorem InMemory.bytes (here : InMemory safe room W mem₀ s p)
    (fits : 8 * p.phys.freePages.length ≤ room) {mem : Memory} {phys : Phys}
    (stack : phys.freePages = p.phys.freePages)
    (same : ∀ x, safe ≤ x → x < safe + room → mem x = s.mem x)
    (frame : ∀ f, Beside safe room f → frames mem f = phys.mem f)
    (kept : Set.EqOn mem mem₀ Wᶜ) :
    InMemory safe room W mem₀ { s with mem } { p with phys } := by
  have index := here.index
  refine ⟨here.place, ?_, frame, here.low, here.others, kept⟩
  rw [stack, ← here.stack]
  exact words_congr fun x low high => same x low (by dsimp only at high; omega)

theorem InMemory.setWord (here : InMemory safe room W mem₀ s p)
    (steady : Steady (linear (4096 * root)) W mem₀) (fits : 8 * p.phys.freePages.length ≤ room)
    {f : Nat} (beside : Beside safe room f) (i : Fin 512) (w : Word)
    (own : Set.Ico (4096 * f + 8 * i.val) (4096 * f + 8 * i.val + 8) ⊆
      Own (linear (4096 * root)) W mem₀) :
    ∃ t, s.setWord (4096 * root) (4096 * f + 8 * i) w = some t ∧
      InMemory safe room W mem₀ t { p with phys := p.phys.write f i w } := by
  obtain ⟨stored, kept⟩ := PmmBytes.store_own steady here.kept own w.toNat
  refine ⟨_, stored, here.bytes fits rfl (fun x low high => ?_) (fun g off => ?_) kept⟩
  · apply write_other
    unfold Beside at beside
    omega
  · rw [← Gapxos.setWord, frames_setWord, Phys.write_mem]
    funext j
    simp only [store, here.frame g off]

theorem Drawing.setWord (now : Drawing root safe room W mem₀ last s p)
    (ground : PagingGrounds root safe room W mem₀) (fit : Fit root safe room W mem₀ k)
    (i : Fin 512) (w : Word) :
    ∃ t, s.setWord (4096 * root) (4096 * k + 8 * i) w = some t ∧
      Drawing root safe room W mem₀ last t { p with phys := p.phys.write k i w } := by
  have own : Set.Ico (4096 * k + 8 * i.val) (4096 * k + 8 * i.val + 8) ⊆
      Own (linear (4096 * root)) W mem₀ := by
    rintro x ⟨low, high⟩
    exact fit.own ⟨by omega, by omega⟩
  obtain ⟨t, stored, after⟩ := now.here.setWord ground.steady now.fits fit.beside i w own
  refine ⟨t, stored, after, now.fits, now.distinct, now.free, fun j low high => ?_⟩
  have same : (p.phys.write k i w).mem root j = p.phys.mem root j :=
    congrFun (store_other_frame fit.other.symm) j
  dsimp only
  rw [same]
  exact now.linked j low high

theorem Drawing.fill (now : Drawing root safe room W mem₀ last s p)
    (ground : PagingGrounds root safe room W mem₀) (fit : Fit root safe room W mem₀ k)
    (word : Fin 512 → Word) :
    ∃ t, s.fillPage (4096 * root) (4096 * k) word = some t ∧
      Drawing root safe room W mem₀ last t
        { p with phys := fillPage p.phys (4096 * k) word } := by
  rw [PmmBytes.fillPage, fillPage, Nat.mul_div_cancel_left k (by decide)]
  generalize List.finRange 512 = js
  induction js generalizing s p with
  | nil => exact ⟨s, rfl, now⟩
  | cons j js ih =>
    obtain ⟨t, stored, after⟩ := now.setWord ground fit j (word j)
    obtain ⟨u, run, final⟩ := ih after
    refine ⟨u, ?_, final⟩
    rw [List.foldlM_cons, stored]
    exact run

theorem zeroPage_own {pml4t page n : Nat} (steady : Steady (linear pml4t) W mem₀)
    (kept : Set.EqOn s.mem mem₀ Wᶜ)
    (own : Set.Ico page (page + n) ⊆ Own (linear pml4t) W mem₀) :
    ∃ mem, (List.range n).foldlM (fun s i => s.store pml4t (page + i) 1 0) s =
        some { s with mem } ∧ Set.EqOn mem mem₀ Wᶜ ∧
      ∀ x, mem x = if page ≤ x ∧ x < page + n then 0 else s.mem x := by
  induction n with
  | zero => exact ⟨s.mem, rfl, kept, fun x => (if_neg (by omega)).symm⟩
  | succ n ih =>
    obtain ⟨mem, run, now, bytes⟩ := ih fun x inside => own ⟨inside.1, by have := inside.2; omega⟩
    have last : Set.Ico (page + n) (page + n + 1) ⊆ Own (linear pml4t) W mem₀ := fun x inside =>
      own ⟨by have := inside.1; omega, inside.2⟩
    obtain ⟨stored, kept'⟩ := PmmBytes.store_own (s := { s with mem }) steady now last 0
    refine ⟨_, ?_, kept', fun x => ?_⟩
    · rw [List.range_succ, List.foldlM_append, run, Option.bind_eq_bind, Option.bind_some,
        List.foldlM_cons, stored]
      rfl
    · dsimp only
      rw [write_one, bytes x]
      split
      · rw [if_pos (by omega)]
        rfl
      · by_cases inside : page ≤ x ∧ x < page + n
        · rw [if_pos inside, if_pos (by omega)]
        · rw [if_neg inside, if_neg (by omega)]

theorem Drawing.zero (now : Drawing root safe room W mem₀ last s p)
    (ground : PagingGrounds root safe room W mem₀) (fit : Fit root safe room W mem₀ k) :
    ∃ t, s.zeroPage (4096 * root) (4096 * k) = some t ∧
      Drawing root safe room W mem₀ last t { p with phys := zeroPage p.phys (4096 * k) } := by
  obtain ⟨mem, run, kept, bytes⟩ := zeroPage_own ground.steady now.here.kept fit.own
  have beside := fit.beside
  refine ⟨_, run, ?_⟩
  rw [zeroPage, fillPage_eq]
  refine ⟨now.here.bytes now.fits rfl ?_ ?_ kept, now.fits, now.distinct, now.free, ?_⟩
  · intro x low high
    rw [bytes, if_neg]
    unfold Beside at beside
    omega
  · intro f off
    dsimp only
    by_cases same : f = k
    · subst same
      rw [Function.update_self]
      apply frames_zero
      intro x low high
      rw [bytes, if_pos ⟨low, high⟩]
    · rw [Function.update_of_ne same, ← now.here.frame f off]
      apply frames_congr
      intro x low high
      rw [bytes, if_neg]
      omega
  · intro i low high
    dsimp only
    rw [Function.update_of_ne fit.other.symm]
    exact now.linked i low high

theorem Drawing.draw (now : Drawing root safe room W mem₀ last s p)
    (ground : PagingGrounds root safe room W mem₀) {phys : Phys} {page : Nat}
    (draw : zeroedLowPage p.phys = some (page, phys)) (later : last ⊆ phys.freePages) :
    ∃ k < 2 ^ 40, page = 4096 * k ∧ Fit root safe room W mem₀ k ∧
      ∃ t, s.zeroedLowPage (4096 * root) = some (page, t) ∧
        Drawing root safe room W mem₀ last t { p with phys } := by
  have low := zeroedLowPage_draw draw
  simp only [zeroedLowPage, Option.bind_eq_bind, Option.bind_eq_some_iff] at draw
  obtain ⟨⟨v, rest⟩, low', eq⟩ := draw
  obtain ⟨rfl, rfl⟩ := Prod.mk.inj (Option.some.inj eq)
  obtain ⟨-, same⟩ := Prod.mk.inj (Option.some.inj (low'.symm.trans low))
  have perm := getLowPage_perm low'
  have once := perm.nodup_iff.mp now.distinct
  obtain ⟨gone, distinct⟩ := List.nodup_cons.mp once
  have used : v ∉ last := fun kept => gone (same ▸ later kept)
  obtain ⟨k, small, rfl, fit⟩ := now.free v (perm.mem_iff.mpr List.mem_cons_self) used
  obtain ⟨t, drawn, after⟩ := now.here.draw_low ground.toGrounds now.fits ground.bound low'
  have count := perm.length_eq
  have fits := now.fits
  rw [List.length_cons] at count
  have left : Drawing root safe room W mem₀ last t
      { p with phys := { p.phys with freePages := rest } } :=
    ⟨after, by dsimp only; omega, distinct,
      fun page inside => now.free page (perm.mem_iff.mpr (List.mem_cons_of_mem _ inside)),
      now.linked⟩
  obtain ⟨u, cleared, final⟩ := left.zero ground fit
  refine ⟨k, small, rfl, fit, u, ?_, final⟩
  simp only [PmmBytes.zeroedLowPage, drawn, cleared, Option.bind_eq_bind, Option.bind_some]

end Paging

section Gibs

variable {root safe room : Nat} {W : Set Nat} {mem₀ : Memory} {last : List Nat} {s : PmmBytes}
  {p : Pmm} {phys : Phys} {i : Fin 512}

theorem PagingGrounds.slot (ground : PagingGrounds root safe room W mem₀) (low : 384 ≤ i.val)
    (high : i.val ≤ 510) : Set.Ico (4096 * root + 8 * i.val) (4096 * root + 8 * i.val + 8) ⊆
      Own (linear (4096 * root)) W mem₀ := by
  rintro x ⟨above, below⟩
  exact ground.slots ⟨by omega, by omega⟩

theorem Drawing.slot (now : Drawing root safe room W mem₀ last s p)
    (ground : PagingGrounds root safe room W mem₀) (low : 384 ≤ i.val) (high : i.val ≤ 510) :
    ∃ w, s.load (4096 * root) (4096 * root + 8 * i) 8 = some w ∧
      BitVec.ofNat 64 w = p.phys.mem root i := by
  refine ⟨_, ground.steady.load now.here.kept fun x inside => (ground.slot low high inside).2, ?_⟩
  exact congrFun (now.here.frame root ground.top) i

theorem Drawing.link (now : Drawing root safe room W mem₀ last s p)
    (ground : PagingGrounds root safe room W mem₀) (low : 384 ≤ i.val) (high : i.val ≤ 510)
    {k : Nat} (small : k < 2 ^ 40) (fit : Fit root safe room W mem₀ k) :
    ∃ t, s.setWord (4096 * root) (4096 * root + 8 * i) (tableEntry (4096 * k)) = some t ∧
      Drawing root safe room W mem₀ last t
        { p with phys := p.phys.write root i (tableEntry (4096 * k)) } := by
  obtain ⟨t, stored, after⟩ := now.here.setWord ground.steady now.fits ground.top i
    (tableEntry (4096 * k)) (ground.slot low high)
  refine ⟨t, stored, after, now.fits, now.distinct, now.free, fun j low high => ?_⟩
  dsimp only
  rw [Phys.write_mem]
  by_cases same : j = i
  · rw [same, store_same, tableEntry_masked small]
    exact fun _ => fit
  · rw [store_other fun both => same both.2]
    exact now.linked j low high

theorem Drawing.openPdpt (now : Drawing root safe room W mem₀ last s p)
    (ground : PagingGrounds root safe room W mem₀) (low : 384 ≤ i.val) (high : i.val ≤ 510)
    (opened : openPdpt p.phys (4096 * root) i = some phys) (later : last ⊆ phys.freePages) :
    ∃ t, s.openPdpt (4096 * root) (4096 * root + 8 * i) = some (phys.mem root i, t) ∧
      Drawing root safe room W mem₀ last t { p with phys } ∧
      present (phys.mem root i) = true := by
  rw [Gapxos.openPdpt, Nat.mul_div_cancel_left root (by decide)] at opened
  obtain ⟨w, taken, value⟩ := now.slot ground low high
  rw [PmmBytes.openPdpt, taken, Option.bind_eq_bind, Option.bind_some, value]
  split at opened
  · rename_i there
    obtain rfl := Option.some.inj opened
    rw [if_pos there]
    exact ⟨s, rfl, now, there⟩
  · rename_i absent
    rw [if_neg absent]
    obtain ⟨⟨ptr, phys'⟩, draw, eq⟩ := Option.bind_eq_some_iff.mp opened
    obtain rfl := Option.some.inj eq
    obtain ⟨k, small, rfl, fit, t, drawn, after⟩ := now.draw ground draw later
    obtain ⟨u, stored, final⟩ := after.link ground low high small fit
    have entry : (phys'.write root i (tableEntry (4096 * k))).mem root i =
        tableEntry (4096 * k) := by
      rw [Phys.write_mem, store_same]
    rw [entry]
    refine ⟨u, ?_, final, (child_eq_some.mp (tableEntry_child small)).1⟩
    simp only [drawn, stored, Option.bind_eq_bind, Option.bind_some]

theorem Drawing.mapGib (now : Drawing root safe room W mem₀ last s p)
    (ground : PagingGrounds root safe room W mem₀) {i : Nat} (height : i < 127 * 2 ^ 39)
    (mapped : mapGib (4096 * root) p.phys i = some phys) (later : last ⊆ phys.freePages) :
    ∃ t, s.mapGib (4096 * root) i = some t ∧
      Drawing root safe room W mem₀ last t { p with phys } := by
  have offset : (physicalMapOffset &&& 0xffffffffffff) = 384 * 2 ^ 39 := by decide
  simp only [Gapxos.mapGib, offset, Option.bind_eq_bind, Option.bind_eq_some_iff] at mapped
  obtain ⟨⟨page, one⟩, draw, mapped⟩ := mapped
  dsimp only at mapped
  split at mapped
  · rename_i inside
    obtain ⟨two, opened, eq⟩ := Option.bind_eq_some_iff.mp mapped
    obtain rfl := Option.some.inj eq
    have drawn : last ⊆ one.freePages := by
      have upper := (openPdpt_stack opened).subset
      rw [fillPage, fill_loop] at upper
      exact fun a inside => upper (later inside)
    obtain ⟨k, small, rfl, fit, s₁, first, after₁⟩ := now.draw ground draw drawn
    obtain ⟨s₂, second, after₂⟩ := after₁.fill ground fit (gibEntry i)
    dsimp only at after₂
    generalize fillPage one (4096 * k) (gibEntry i) = full at after₂ opened
    obtain ⟨s₃, third, after₃, there⟩ := after₂.openPdpt ground (by dsimp only; omega)
      (by dsimp only; omega) opened later
    have table := after₃.linked _ (by dsimp only; omega) (by dsimp only; omega) there
    obtain ⟨s₄, fourth, final⟩ := after₃.setWord ground table
      (Fin.ofNat 512 ((384 * 2 ^ 39 + i) % 0x8000000000 / 0x40000000)) (tableEntry (4096 * k))
    have aligned := masked_page (two.mem root ⟨_, inside⟩)
    rw [Nat.mul_div_cancel_left root (show 0 < 4096 by decide)]
    refine ⟨s₄, ?_, final⟩
    simp only [PmmBytes.mapGib, offset, first, second, third, Option.bind_eq_bind,
      Option.bind_some]
    generalize (two.mem root ⟨_, inside⟩ &&& 0xfffffffffffff000#64).toNat = pdpt at aligned fourth ⊢
    have entry : pdpt + 8 * ((384 * 2 ^ 39 + i) % 0x8000000000 / 0x40000000) =
        4096 * (pdpt / 4096) +
          8 * (Fin.ofNat 512 ((384 * 2 ^ 39 + i) % 0x8000000000 / 0x40000000)).val := by
      rw [Fin.val_ofNat]
      omega
    rw [entry]
    exact fourth
  · cases mapped

theorem Drawing.initPaging (now : Drawing root safe room W mem₀ phys.freePages s p)
    (ground : PagingGrounds root safe room W mem₀) {physMemLength : Nat}
    (height : physMemLength ≤ 127 * 2 ^ 39)
    (paging : initPaging p.phys (4096 * root) physMemLength = some phys) :
    ∃ t, s.initPaging (4096 * root) physMemLength = some t ∧
      InMemory safe room W mem₀ t { p with phys } := by
  have low : ∀ n ∈ List.range (gibs physMemLength), 0x40000000 * n < 127 * 2 ^ 39 := by
    intro n inside
    rw [List.mem_range, gibs] at inside
    omega
  rw [Gapxos.initPaging] at paging
  rw [PmmBytes.initPaging]
  generalize List.range (gibs physMemLength) = ns at low paging ⊢
  -- The whole of `_init_paging`, by induction on the gibibytes that are left.
  induction ns generalizing s p with
  | nil =>
    obtain rfl := Option.some.inj paging
    exact ⟨s, rfl, now.here⟩
  | cons n ns ih =>
    obtain ⟨first, rest⟩ := List.forall_mem_cons.mp low
    rw [List.foldlM_cons, Option.bind_eq_bind] at paging
    obtain ⟨one, mapped, paging⟩ := Option.bind_eq_some_iff.mp paging
    obtain ⟨t, round, after⟩ := now.mapGib ground first mapped (mapGibs_stack paging).subset
    obtain ⟨u, run, final⟩ := ih after rest paging
    refine ⟨u, ?_, final⟩
    rw [List.foldlM_cons, round]
    exact run

end Gibs

section Init

variable {root safe room : Nat} {W : Set Nat} {mem₀ : Memory} {s : PmmBytes} {p : Pmm}

theorem Grounds.scanning (ground : Grounds root safe room W mem₀) :
    Grounds root safe room (Set.Ico safe (safe + room)) mem₀ :=
  ⟨ground.steady.mono fun _ inside => (ground.array inside).1,
    fun _ inside => ⟨inside, (ground.array inside).2⟩⟩

theorem InMemory.wider (here : InMemory safe room (Set.Ico safe (safe + room)) mem₀ s p)
    (ground : Grounds root safe room W mem₀) : InMemory safe room W mem₀ s p :=
  { here with
    kept := fun _ off => here.kept fun inside => off (ground.array inside).1 }

theorem pmmInit_bytes {mem : Memory} {map count : Nat} {unsafeRanges : List MemoryRange}
    (usable : UsableMap (mmapEntries mem map count)) (ground : PagingGrounds root safe room W mem)
    (fits : 8 * (candidates (mmapEntries mem map count) unsafeRanges).length ≤ room)
    (array : map + 24 * count ≤ safe ∨ safe + room ≤ map)
    (self : ∀ x, map ≤ x → x < map + 24 * count → linear (4096 * root) mem x = some x)
    (free : ∀ page ∈ candidates (mmapEntries mem map count) unsafeRanges, page ∉ p.ledger.pages →
      ∃ k < 2 ^ 40, page = 4096 * k ∧ Fit root safe room W mem k)
    (slots : ∀ i : Fin 512, 384 ≤ i.val → i.val ≤ 510 → present (frames mem root i) = false)
    (height : maxAddr (mmapEntries mem map count) ≤ 127 * 2 ^ 39)
    (init : pmmInit (frames mem) (4096 * root) (mmapEntries mem map count) unsafeRanges = some p) :
    ∃ s, PmmBytes.init (4096 * root) mem safe map count unsafeRanges = some s ∧
      InMemory safe room W mem s p := by
  simp only [pmmInit, Option.bind_eq_bind, Option.bind_eq_some_iff] at init
  obtain ⟨q, scan, phys, paging, eq⟩ := init
  obtain rfl := Option.some.inj eq
  obtain ⟨pages, same⟩ := scanMap_pages scan
  have start : InMemory safe room (Set.Ico safe (safe + room)) mem ⟨mem, safe, 0, 0, []⟩
      (zeroedPmm (frames mem)) := ⟨rfl, rfl, fun _ _ => rfl, rfl, rfl, fun _ _ => rfl⟩
  have bounds : ∀ i ∈ List.range count, map + 24 * i + 24 ≤ map + 24 * count := by
    intro i inside
    rw [List.mem_range] at inside
    omega
  obtain ⟨s, run, scanned⟩ := start.scan ground.scanning 0
    (fun i inside x low high => self x (by omega) (by have := bounds i inside; omega))
    (fun i inside => by have := bounds i inside; omega)
    (fun i inside used =>
      usable.width _ (List.mem_filter.mpr ⟨List.mem_map_of_mem inside, used⟩))
    (by simpa [zeroedPmm, mmapEntries] using fits) scan
  have stack : ∀ page ∈ q.phys.freePages,
      page ∈ candidates (mmapEntries mem map count) unsafeRanges :=
    fun page inside => pages.subset (List.mem_append_right q.ledger.held inside)
  have distinct := (scan_stackExact usable scan).distinct
  have few := (List.subperm_of_subset distinct stack).length_le
  have drawing : Drawing root safe room W mem phys.freePages s q := by
    refine ⟨scanned.wider ground.toGrounds, Nat.le_trans (Nat.mul_le_mul_left 8 few) fits, distinct,
      fun page inside gone => ?_, fun i low high there => ?_⟩
    · -- the page for the other processors is held, and was not on the stack
      refine free page (stack page inside) fun left => ?_
      rcases List.mem_append.mp left with held | left
      · exact (ledger_bound usable pages).2.2 page held inside
      · exact gone left
    · rw [same, slots i low high] at there
      cases there
  obtain ⟨t, made, final⟩ := drawing.initPaging ground height paging
  refine ⟨t, ?_, final⟩
  rw [maxAddr, mmapEntries] at made
  rw [PmmBytes.init, run, Option.bind_eq_bind, Option.bind_some]
  exact made

end Init

end Gapxos
