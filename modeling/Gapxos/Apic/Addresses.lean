import Gapxos.Apic.FarJump
import Gapxos.Pmm.Scan

/-! The addresses that cpu_init_ap_payload stores for the application processors. The page is
found below 1 MiB, while the payload and its data have 16 bits for an address. -/
namespace Gapxos
open Bytes

/-- Page 0 does not count, as `pmm_ap_low_page` is 0 at the start. -/
def isLow (page : Nat) : Bool := 0 < page && page < 1 <<< 20

/-- The page that pmm_init sets aside: the first one that it can take below 1 MiB. -/
def firstLow (mmap : List MmapEntry) (unsafeRanges : List MemoryRange) : Nat :=
  ((candidates mmap unsafeRanges).find? isLow).getD 0

/- The processor runs with a data segment at 0, so that an address of its data is what it finds
in the payload. Its second instruction sets has_started. -/
structure PayloadRight (location : Nat) (mem : Memory) : Prop where
  data : read mem (location + 1) 2 = payloadData location
  start : read mem (payloadData location + ApData.startAddr) 2 = location
  finds : ∀ regs : Ap, ∃ ap, apSteps location 2 (mem, { regs with long := false, ip := 0 }) =
    some (write mem (payloadData location + ApData.hasStarted) 1 1, ap)

section Scan

variable {mem : Mem} {mmap : List MmapEntry} {unsafeRanges : List MemoryRange} {p : Pmm}

theorem placePage_lowPage (p : Pmm) (cur : Nat) : (placePage p cur).apLowPage =
    if p.apLowPage = 0 ∧ isLow cur = true then cur else p.apLowPage := by
  simp only [placePage, isLow, Bool.and_eq_true, decide_eq_true_eq]
  by_cases unset : p.apLowPage = 0
  · by_cases small : cur < 1 <<< 20
    · rw [if_pos ⟨unset, small⟩]
      dsimp only
      split <;> omega
    · rw [if_neg fun both => small both.2, if_neg fun both => small both.2.2]
  · rw [if_neg fun both => unset both.1, if_neg fun both => unset both.1]

theorem place_lowPage (pages : List Nat) (p : Pmm) : (pages.foldl placePage p).apLowPage =
    if p.apLowPage = 0 then (pages.find? isLow).getD 0 else p.apLowPage := by
  induction pages generalizing p with
  | nil =>
    split
    · assumption
    · rfl
  | cons cur pages ih =>
    rw [List.foldl_cons, ih, placePage_lowPage, List.find?_cons]
    by_cases unset : p.apLowPage = 0
    · cases small : isLow cur with
      | false => simp [unset]
      | true =>
        have some_page : cur ≠ 0 := by
          rintro rfl
          cases small
        simp [unset, some_page]
    · simp [unset]

theorem scanMap_lowPage (scan : scanMap mem mmap unsafeRanges = some p) :
    p.apLowPage = firstLow mmap unsafeRanges := by
  rw [scanMap_eq, Option.ite_none_right_eq_some, Option.some.injEq] at scan
  obtain ⟨-, rfl⟩ := scan
  exact place_lowPage (candidates mmap unsafeRanges) (zeroedPmm mem)

theorem candidates_aligned {page : Nat} (inside : page ∈ candidates mmap unsafeRanges) :
    page % 4096 = 0 := by
  obtain ⟨e, -, here⟩ := List.mem_flatMap.mp inside
  obtain ⟨k, -, rfl⟩ := List.mem_map.mp (List.mem_of_mem_filter here)
  have start : scanStart e % 4096 = 0 := by
    unfold scanStart
    dsimp only
    split <;> omega
  omega

theorem firstLow_aligned (mmap : List MmapEntry) (unsafeRanges : List MemoryRange) :
    firstLow mmap unsafeRanges % 4096 = 0 := by
  unfold firstLow
  cases found : (candidates mmap unsafeRanges).find? isLow with
  | none => rfl
  | some page => exact candidates_aligned (List.mem_of_find?_eq_some found)

end Scan

theorem cpuInitApPayload_data (location pml4t entryPoint : Nat) (mem : Memory) :
    read (cpuInitApPayload location pml4t entryPoint mem) (location + 1) 2 =
      payloadData location % 2 ^ 16 := by
  unfold cpuInitApPayload
  dsimp only
  have behind : location + 1 + 2 ≤ payloadData location := by
    unfold payloadData apInitPayloadLen
    omega
  repeat rw [read_write_other (by omega)]
  rw [read_write_same, show 256 ^ 2 = 2 ^ 16 from rfl]

theorem payloadRight_iff {location : Nat} (aligned : location % 4096 = 0)
    (pml4t entryPoint : Nat) (mem : Memory) :
    PayloadRight location (cpuInitApPayload location pml4t entryPoint mem) ↔
      location < 2 ^ 16 := by
  constructor
  · intro right
    have start := right.start
    rw [cpuInitApPayload_startAddr] at start
    omega
  · intro low
    have data : payloadData location < 2 ^ 16 := by
      unfold payloadData apInitPayloadLen
      omega
    constructor
    · rw [cpuInitApPayload_data, Nat.mod_eq_of_lt data]
    · rw [cpuInitApPayload_startAddr, Nat.mod_eq_of_lt low]
    · intro regs
      obtain ⟨ap, steps, -⟩ := apSteps_flag (cpuInitApPayload_code location pml4t entryPoint mem)
        (by omega) regs
      exact ⟨ap, steps⟩

/- The scan gets through if `_ranges` is long enough for the map. -/
theorem payload_addresses_iff (mem : Mem) (mmap : List MmapEntry)
    (unsafeRanges : List MemoryRange) (pml4t entryPoint : Nat) (bytes : Memory) :
    (∃ p, scanMap mem mmap unsafeRanges = some p ∧
      PayloadRight p.apLowPage (cpuInitApPayload p.apLowPage pml4t entryPoint bytes)) ↔
      (others mmap).length ≤ 32 ∧ firstLow mmap unsafeRanges < 2 ^ 16 := by
  have aligned := firstLow_aligned mmap unsafeRanges
  constructor
  · rintro ⟨p, scan, right⟩
    rw [scanMap_lowPage scan, payloadRight_iff aligned] at right
    exact ⟨(scanMap_ranges scan).1, right⟩
  · rintro ⟨room, low⟩
    obtain ⟨p, scan⟩ := scanMap_returns room mem unsafeRanges
    refine ⟨p, scan, ?_⟩
    rw [scanMap_lowPage scan]
    exact (payloadRight_iff aligned _ _ _).mpr low

/-- The first low page of the map is at 64 KiB: start_addr is 0, and the data are looked for at
the first bytes of memory. -/
theorem payload_addresses_cut :
    ∃ p, scanMap (fun _ _ => 0) [⟨0x10000, 0x1000, 1⟩] [] = some p ∧ p.apLowPage = 0x10000 ∧
      read (cpuInitApPayload p.apLowPage 0 0 fun _ => 0) (p.apLowPage + 1) 2 = 0x5b ∧
      read (cpuInitApPayload p.apLowPage 0 0 fun _ => 0)
        (payloadData p.apLowPage + ApData.startAddr) 2 = 0 := by
  refine ⟨_, rfl, rfl, ?_, ?_⟩
  · exact cpuInitApPayload_data 0x10000 0 0 _
  · exact cpuInitApPayload_startAddr 0x10000 0 0 _

end Gapxos
