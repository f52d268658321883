import Gapxos.Boot.Bounds
import Gapxos.Boot.PageArea
import Gapxos.Boot.Rsdp
import Gapxos.Loader.AddPage
import Gapxos.Pmm.Stack

/-! kernel_main: from the multiboot structure to a page allocator that runs. Four ranges are kept
from the allocator, memory for its stack of free pages is looked for beside them, and that
memory becomes the fifth range. -/
namespace Gapxos
open Bytes Radix

def mmapEntryAt (mem : Memory) (map i : Nat) : MmapEntry :=
  ⟨UInt64.ofNat (read mem (map + 24 * i) 8), UInt64.ofNat (read mem (map + 24 * i + 8) 8),
    UInt32.ofNat (read mem (map + 24 * i + 16) 4)⟩

def mmapEntries (mem : Memory) (map count : Nat) : List MmapEntry :=
  (List.range count).map (mmapEntryAt mem map)

/-- The arguments that the loader passes. -/
structure KernelArgs where
  mbStructure : Nat
  krnStart : UInt64
  krnEnd : UInt64
  stack : UInt64
  stackSize : UInt64

def fixedRanges (mem : Memory) (cr3 : Nat) (args : KernelArgs) (info : MbInfo) :
    List MemoryRange :=
  let area := getPageTableArea (frames mem) cr3
  [⟨args.krnStart, args.krnEnd⟩, ⟨UInt64.ofNat area.1, UInt64.ofNat area.2⟩,
    ⟨UInt64.ofNat info.map, UInt64.ofNat (info.map + 24 * info.count)⟩,
    ⟨args.stack, args.stack + args.stackSize⟩]

/- What kernel_main has when it calls system_main. `fixed` is `unsafe[0]` to `unsafe[3]`. -/
structure Booted where
  mmap : List MmapEntry
  fixed : List MemoryRange
  required : Nat
  safe : Nat
  pmm : Pmm
  acpi : Nat
  acpiVersion : Nat

/-- `unsafe[4]`, the memory for the stack of free pages. -/
def stackRange (safe required : Nat) : MemoryRange :=
  ⟨UInt64.ofNat safe, UInt64.ofNat (safe + required)⟩

def Booted.stackRange (b : Booted) : MemoryRange := Gapxos.stackRange b.safe b.required

def Booted.unsafeRanges (b : Booted) : List MemoryRange := b.fixed ++ [b.stackRange]

inductive BootEnd
  | halted (message : String)
  | systemMain (b : Booted)

def kernelMainPmm (mem : Memory) (cr3 : Nat) (args : KernelArgs) (info : MbInfo) :
    Option BootEnd :=
  let mmap := mmapEntries mem info.map info.count
  let fixed := fixedRanges mem cr3 args info
  (getStackSize mmap).bind fun required =>
    (findSafe required fixed mmap).bind fun safe =>
      if safe = 0 then some (.halted "Not enough RAM!\n")
      else (pmmInit (frames mem) cr3 mmap (fixed ++ [stackRange safe required])).map fun pmm =>
        .systemMain ⟨mmap, fixed, required, safe, pmm, read mem (info.rsdp + 16) 4, info.version⟩

/- A processor that halts here stays halted: no interrupt is enabled yet. -/
def kernelMain (mem : Memory) (cr3 : Nat) (args : KernelArgs) : Option BootEnd :=
  (interpretMultiboot mem args.mbStructure).bind fun walk =>
    let info := walk.2
    if info.count = 0 then some (.halted
      "FATAL: Memory map not provided by bootloader. This is a bootloader bug!\n")
    else if info.version = 0 then some (.halted "FATAL: ACPI not present on system\n")
    else if rsdpSignature mem info.rsdp ≠ [0x52, 0x53, 0x44, 0x20, 0x50, 0x54, 0x52, 0x20] then
      some (.halted "FATAL: Incorrect ACPI signature\n")
    else if acpiChecksum mem info.rsdp % 256 ≠ 0 then
      some (.halted "FATAL: Incorrect ACPI checksum\n")
    else kernelMainPmm mem cr3 args info

/-- Where the count of the bounds check began: at the base of the region, if that is inside of no
range, or behind a range. -/
def Origin (base : Nat) (unsafeRanges : List MemoryRange) (p count : Nat) : Prop :=
  (p = base ∧ (0 < count → insideOf unsafeRanges base = none)) ∨
    ∃ r ∈ unsafeRanges, p = r.stop.toNat

section Search

variable {base len reqSize ptr count q : Nat} {unsafeRanges : List MemoryRange}

/- The induction is on the passes, as in `boundsLoop_spec`. -/
theorem boundsLoop_origin {checkEnd : Nat} (bound : checkEnd < 2 ^ 64)
    (ends : ∀ r ∈ unsafeRanges, r.stop.toNat + 1 < 2 ^ 64) {passes p : Nat}
    (few : count ≤ reqSize) (begun : ptr = p + count) (origin : Origin base unsafeRanges p count)
    (found : boundsLoop unsafeRanges checkEnd reqSize passes ptr count = some q) (some : q ≠ 0) :
    Origin base unsafeRanges q reqSize := by
  induction passes generalizing ptr count p with
  | zero => cases found
  | succ passes ih =>
    unfold boundsLoop at found
    split at found
    · split at found
      · rename_i full
        obtain rfl : count = reqSize := Nat.le_antisymm few full
        obtain rfl : p = q := by
          have := Option.some.inj found
          omega
        exact origin
      · have more : count < reqSize := by omega
        split at found
        · rename_i r hit
          have inside := (insideOf_some hit).1
          rw [Nat.mod_eq_of_lt (ends r inside)] at found
          exact ih (by omega) rfl (.inr ⟨r, inside, rfl⟩) found
        · rename_i miss
          rw [Nat.mod_eq_of_lt (by omega), Nat.mod_eq_of_lt (by omega)] at found
          refine ih (p := p) (by omega) (by omega) ?_ found
          rcases origin with ⟨rfl, clear⟩ | behind
          · refine .inl ⟨rfl, fun _ => ?_⟩
            rcases Nat.eq_zero_or_pos count with rfl | pos
            · rwa [begun] at miss
            · exact clear pos
          · exact .inr behind
    · exact absurd (Option.some.inj found).symm some

/-- The place that is found in a usable entry: what the count went over, and where it began. -/
structure Chosen (mmap : List MmapEntry) (unsafeRanges : List MemoryRange) (required q : Nat)
    (e : MmapEntry) : Prop where
  inside : e ∈ mmap
  used : e.usable = true
  start : e.baseAddr.toNat ≤ q
  stop : q + required < e.baseAddr.toNat + e.length.toNat
  cleared : Cleared e.baseAddr.toNat required unsafeRanges (q + required) required
  origin : Origin e.baseAddr.toNat unsafeRanges q required

theorem findSafe_chosen {mmap : List MmapEntry} {required : Nat} (size : required < 2 ^ 64)
    (width : ∀ e ∈ mmap, e.usable = true → e.baseAddr.toNat + e.length.toNat < 2 ^ 64)
    (ends : ∀ r ∈ unsafeRanges, r.stop.toNat + 1 < 2 ^ 64)
    (found : findSafe required unsafeRanges mmap = some q) (some : q ≠ 0) :
    ∃ e, Chosen mmap unsafeRanges required q e := by
  induction mmap with
  | nil => exact absurd (Option.some.inj found).symm some
  | cons e rest ih =>
    have later : findSafe required unsafeRanges rest = .some q →
        ∃ d, Chosen (e :: rest) unsafeRanges required q d := by
      intro found
      obtain ⟨d, chosen⟩ := ih (fun d inside => width d (List.mem_cons_of_mem e inside)) found
      exact ⟨d, { chosen with inside := List.mem_cons_of_mem e chosen.inside }⟩
    unfold findSafe at found
    split at found
    · rename_i used
      obtain ⟨p, check, found⟩ := Option.bind_eq_some_iff.mp found
      split at found
      · rename_i nonnull
        obtain rfl : p = q := Option.some.inj found
        have region := width e List.mem_cons_self used
        obtain ⟨p', check', good, -⟩ := checkMemoryBounds_spec e.baseAddr.toNat e.length.toNat
          required unsafeRanges region size ends
        obtain rfl : p = p' := Option.some.inj (check.symm.trans check')
        obtain ⟨cleared, stop⟩ := good nonnull
        rw [checkMemoryBounds, Nat.mod_eq_of_lt region] at check
        have origin := boundsLoop_origin region ends
          (Nat.zero_le required) rfl (.inl ⟨rfl, fun none => absurd none (by omega)⟩) check nonnull
        exact ⟨e, List.mem_cons_self, used, Nat.le_of_add_le_add_right cleared.start, stop, cleared,
          origin⟩
      · exact later found
    · exact later found

end Search

/-- The ranges lie apart, none is a single byte, and none ends with the last addresses. -/
structure FixedRanges (fixed : List MemoryRange) : Prop where
  long : ∀ r ∈ fixed, r.start.toNat + 2 ≤ r.stop.toNat
  ends : ∀ r ∈ fixed, r.stop.toNat + 1 < 2 ^ 64
  apart : fixed.Pairwise fun r r' => r.stop.toNat ≤ r'.start.toNat ∨ r'.stop.toNat ≤ r.start.toNat

section Placed

variable {mmap : List MmapEntry} {fixed : List MemoryRange} {required safe : Nat} {e : MmapEntry}

theorem FixedRanges.behind (ranges : FixedRanges fixed) {r r' : MemoryRange} (inside : r ∈ fixed)
    (inside' : r' ∈ fixed) : ¬ (r.start.toNat < r'.stop.toNat ∧ r'.stop.toNat < r.stop.toNat) := by
  have sym : Std.Symm fun r r' : MemoryRange =>
      r.stop.toNat ≤ r'.start.toNat ∨ r'.stop.toNat ≤ r.start.toNat := ⟨fun _ _ h => h.symm⟩
  by_cases same : r = r'
  · rw [same]
    omega
  · have off := ranges.apart.forall inside inside' same
    have long := ranges.long r' inside'
    omega

theorem Chosen.off (chosen : Chosen mmap fixed required safe e) (ranges : FixedRanges fixed)
    {n : Nat} (short : n < required) {r : MemoryRange} (inside : r ∈ fixed) : r.Off safe n := by
  have long := ranges.long r inside
  have clear : ∀ a, safe < a → a < safe + required →
      ¬ (r.start.toNat < a ∧ a < r.stop.toNat) :=
    fun a low high => insideOf_none.mp (chosen.cleared.clear a (by omega) high) r inside
  have first : ¬ (r.start.toNat < safe ∧ safe < r.stop.toNat) := by
    rcases chosen.origin with ⟨base, outside⟩ | ⟨r', inside', behind⟩
    · rw [base]
      exact insideOf_none.mp (outside (by omega)) r inside
    · rw [behind]
      exact ranges.behind inside inside'
  intro a low high
  have second := clear (r.start.toNat + 1)
  have next := clear a
  simp only [isInRange, Bool.and_eq_false_iff, decide_eq_false_iff_not]
  omega

theorem Chosen.range (chosen : Chosen mmap fixed required safe e) (usable : UsableMap mmap) :
    (stackRange safe required).start.toNat = safe ∧
      (stackRange safe required).stop.toNat = safe + required := by
  have width := usable.width e (List.mem_filter.mpr ⟨chosen.inside, chosen.used⟩)
  have stop := chosen.stop
  have fits : safe + required < 2 ^ 64 := by omega
  exact ⟨UInt64.toNat_ofNat_of_lt' (Nat.lt_of_le_of_lt (Nat.le_add_right _ _) fits),
    UInt64.toNat_ofNat_of_lt' fits⟩

theorem Chosen.overlap (chosen : Chosen mmap fixed required safe e) (usable : UsableMap mmap)
    (ranges : FixedRanges fixed) {page : Nat}
    (free : page ∈ candidates mmap (fixed ++ [stackRange safe required]))
    (meets : Overlaps page (stackRange safe required)) :
    StartsInside page (stackRange safe required) ∧
      (e.baseAddr.toNat = safe ∨ ∃ r ∈ fixed, r.stop.toNat = safe ∧ StartsInside page r) := by
  obtain ⟨first, last⟩ := chosen.range usable
  have front := (overlaps_iff (candidate_free free _ (by simp))).mp meets
  refine ⟨front, ?_⟩
  rcases chosen.origin with ⟨base, _⟩ | ⟨r, inside, behind⟩
  · exact .inl base.symm
  · refine .inr ⟨r, inside, behind.symm, ?_⟩
    have outside := candidate_free free r (List.mem_append_left _ inside)
    have long := ranges.long r inside
    simp only [isInRange, Bool.and_eq_false_iff, decide_eq_false_iff_not] at outside
    unfold StartsInside at front ⊢
    omega

end Placed

section Boot

variable {mem : Memory} {cr3 root : Nat} {args : KernelArgs} {b : Booted}

theorem kernelMain_steps (boot : kernelMain mem cr3 args = some (.systemMain b)) :
    ∃ tags info, interpretMultiboot mem args.mbStructure = some (tags, info) ∧
      b.mmap = mmapEntries mem info.map info.count ∧
      b.fixed = fixedRanges mem cr3 args info ∧ getStackSize b.mmap = some b.required ∧
      findSafe b.required b.fixed b.mmap = some b.safe ∧ b.safe ≠ 0 ∧
      pmmInit (frames mem) cr3 b.mmap b.unsafeRanges = some b.pmm := by
  obtain ⟨walk, tags, rest⟩ := Option.bind_eq_some_iff.mp boot
  dsimp only at rest
  iterate 4
    split at rest
    · cases rest
  obtain ⟨required, size, rest⟩ := Option.bind_eq_some_iff.mp rest
  obtain ⟨safe, found, rest⟩ := Option.bind_eq_some_iff.mp rest
  split at rest
  · cases rest
  · rename_i nonnull
    obtain ⟨pmm, init, out⟩ := Option.map_eq_some_iff.mp rest
    obtain rfl := BootEnd.systemMain.inj out
    exact ⟨walk.1, walk.2, tags, rfl, rfl, size, found, nonnull, init⟩

theorem kernelMain_chosen (boot : kernelMain mem cr3 args = some (.systemMain b))
    (usable : UsableMap b.mmap) (ends : ∀ r ∈ b.fixed, r.stop.toNat + 1 < 2 ^ 64) :
    b.required = 8 * capacity b.mmap ∧ ∃ e, Chosen b.mmap b.fixed b.required b.safe e := by
  obtain ⟨-, -, -, -, -, size, found, nonnull, -⟩ := kernelMain_steps boot
  have few : b.mmap.length < 2 ^ 31 := by
    unfold getStackSize at size
    split at size
    · assumption
    · cases size
  have room : b.required = 8 * capacity b.mmap :=
    Option.some.inj (size.symm.trans (getStackSize_eq usable few))
  have small := capacity_small usable
  refine ⟨room, findSafe_chosen (by omega) (fun e inside used => ?_) ends found nonnull⟩
  have width := usable.width e (List.mem_filter.mpr ⟨inside, used⟩)
  omega

theorem kernelMain_pages (boot : kernelMain mem cr3 args = some (.systemMain b))
    {calls : List PmmCall} {l : Ledger} (run : b.pmm.ledger.run calls = some l) :
    l.pages.Subperm (candidates b.mmap b.unsafeRanges) := by
  obtain ⟨-, -, -, -, -, -, -, -, init⟩ := kernelMain_steps boot
  obtain ⟨q, scan, pages⟩ := pmmInit_pages init
  exact (run_pages run).trans (pages.trans (scanMap_pages scan).1)

/-- The direct map takes a page at least, so that the stack never needs all of its memory. -/
theorem kernelMain_fewer (boot : kernelMain mem cr3 args = some (.systemMain b))
    (usable : UsableMap b.mmap) {e : MmapEntry}
    (chosen : Chosen b.mmap b.fixed b.required b.safe e) {calls : List PmmCall} {l : Ledger}
    (run : b.pmm.ledger.run calls = some l) :
    l.phys.freePages.length < (candidates b.mmap b.unsafeRanges).length := by
  obtain ⟨-, -, -, -, -, -, -, -, init⟩ := kernelMain_steps boot
  have some_memory : 0 < maxAddr b.mmap := by
    have width := usable.width e (List.mem_filter.mpr ⟨chosen.inside, chosen.used⟩)
    have top := endAddr_le_maxAddr chosen.inside
    have stop := chosen.stop
    unfold MmapEntry.endAddr at top
    omega
  obtain ⟨q, scan, fewer⟩ := pmmInit_fewer init some_memory
  have all := (scanMap_pages scan).1.length_le
  have later := (run_pages run).length_le
  rw [Ledger.pages, List.length_append] at later
  omega

theorem tables_range (low : root < 2 ^ 40) (plain : PlainTables (frames mem) 3 root)
    (args : KernelArgs) (info : MbInfo) :
    ∃ r ∈ fixedRanges mem (4096 * root) args info, ∀ path f, path.length ≤ 3 →
      tableAt child (frames mem) root path = some f →
        r.start.toNat ≤ 4096 * f ∧ 4096 * f + 4096 ≤ r.stop.toNat := by
  obtain ⟨covers, -, path, g, -, reach, top⟩ := page_table_area (frames mem) root low plain
  have small := tableAt_frame_lt low reach
  have whole := covers [] root (Nat.zero_le 3) rfl
  refine ⟨⟨UInt64.ofNat (getPageTableArea (frames mem) (4096 * root)).1,
    UInt64.ofNat (getPageTableArea (frames mem) (4096 * root)).2⟩, by simp [fixedRanges], ?_⟩
  rw [UInt64.toNat_ofNat_of_lt' (show _ < 2 ^ 64 by omega),
    UInt64.toNat_ofNat_of_lt' (show _ < 2 ^ 64 by omega)]
  exact covers

theorem candidate_no_table (low : root < 2 ^ 40) (plain : PlainTables (frames mem) 3 root)
    {info : MbInfo} {mmap : List MmapEntry} {more : List MemoryRange} {page : Nat}
    (free : page ∈ candidates mmap (fixedRanges mem (4096 * root) args info ++ more))
    {path : List (Fin 512)} {f : Nat} (short : path.length ≤ 3)
    (reach : tableAt child (frames mem) root path = some f) : page ≠ 4096 * f := by
  obtain ⟨r, inside, covers⟩ := tables_range low plain args info
  have held := covers path f short reach
  have off := candidate_free free r (List.mem_append_left more inside)
  simp only [isInRange, Bool.and_eq_false_iff, decide_eq_false_iff_not] at off
  omega

theorem scanned_count {mem : Mem} {mmap : List MmapEntry} {unsafeRanges : List MemoryRange}
    {q : Pmm} (usable : UsableMap mmap) (scan : scanMap mem mmap unsafeRanges = some q) :
    (candidates mmap unsafeRanges).length ≤ q.phys.freePages.length + 2 := by
  have stack := scan_stackExact usable scan
  have distinct : (candidates mmap unsafeRanges).Nodup := candidates_nodup usable
  have rest : ((candidates mmap unsafeRanges).erase 0).erase q.apLowPage ⊆ q.phys.freePages := by
    intro page inside
    obtain ⟨other, inside⟩ := (distinct.erase 0).mem_erase_iff.mp inside
    obtain ⟨nonzero, inside⟩ := distinct.mem_erase_iff.mp inside
    exact (stack.exact page nonzero).mpr ⟨(candidates_iff usable).mp inside, other⟩
  have below := (List.subperm_of_subset ((distinct.erase 0).erase _) rest).length_le
  rw [List.length_erase, List.length_erase] at below
  split at below <;> split at below <;> omega

/-- What kernel_main needs of the machine, once the multiboot structure is read. -/
structure Bootable (mem : Memory) (root : Nat) (args : KernelArgs) (info : MbInfo)
    (safe : Nat) : Prop where
  map : info.count ≠ 0
  version : info.version ≠ 0
  signature : rsdpSignature mem info.rsdp = [0x52, 0x53, 0x44, 0x20, 0x50, 0x54, 0x52, 0x20]
  checksum : acpiChecksum mem info.rsdp % 256 = 0
  few : info.count < 2 ^ 31
  usable : UsableMap (mmapEntries mem info.map info.count)
  reserved : (others (mmapEntries mem info.map info.count)).length ≤ 32
  found : findSafe (8 * capacity (mmapEntries mem info.map info.count))
    (fixedRanges mem (4096 * root) args info) (mmapEntries mem info.map info.count) = some safe
  nonnull : safe ≠ 0
  low : root < 2 ^ 40
  plain : PlainTables (frames mem) 3 root
  slots : ∀ i : Fin 512, 384 ≤ i.val → i.val ≤ 510 → present (frames mem root i) = false
  height : maxAddr (mmapEntries mem info.map info.count) ≤ 127 * 2 ^ 39
  small : capacity (mmapEntries mem info.map info.count) < 2 ^ 31
  enough : tableCount (maxAddr (mmapEntries mem info.map info.count)) + 2 ≤
    (candidates (mmapEntries mem info.map info.count) (fixedRanges mem (4096 * root) args info ++
      [stackRange safe (8 * capacity (mmapEntries mem info.map info.count))])).length

theorem kernelMain_returns {tags : List Nat} {info : MbInfo} {safe : Nat}
    (walk : interpretMultiboot mem args.mbStructure = some (tags, info))
    (ready : Bootable mem root args info safe) :
    ∃ b, kernelMain mem (4096 * root) args = some (.systemMain b) ∧
      b.mmap = mmapEntries mem info.map info.count ∧
      b.fixed = fixedRanges mem (4096 * root) args info ∧ b.safe = safe := by
  obtain ⟨mmap, entries⟩ : ∃ mmap, mmap = mmapEntries mem info.map info.count := ⟨_, rfl⟩
  obtain ⟨fixed, ranges⟩ : ∃ fixed, fixed = fixedRanges mem (4096 * root) args info := ⟨_, rfl⟩
  obtain ⟨map, version, signature, checksum, few, usable, reserved, found, nonnull, low, plain,
    slots, height, small, enough⟩ := ready
  have count : mmap.length < 2 ^ 31 := by simpa [entries, mmapEntries] using few
  rw [← entries] at usable reserved found height small enough
  rw [← ranges] at found enough
  obtain ⟨q, scan⟩ := scanMap_returns reserved (frames mem)
    (fixed ++ [stackRange safe (8 * capacity mmap)])
  have left := scanned_count usable scan
  have fits : q.phys.freePages.length ≤ capacity mmap :=
    (ledger_bound usable (scanMap_pages scan).1).1
  have frame : 4096 * root / 4096 = root := by omega
  have init : ∃ phys, pmmInit (frames mem) (4096 * root) mmap
      (fixed ++ [stackRange safe (8 * capacity mmap)]) = some { q with phys } := by
    apply pmmInit_returns usable scan _ _ height (by omega) (lowDraws_short (by omega) _)
    · rw [frame]
      exact slots
    · intro page free path short reach
      rw [frame] at reach
      obtain ⟨k, -, rfl⟩ := candidates_frame usable free
      rw [ranges] at free
      exact candidate_no_table low plain free short reach (by omega)
  obtain ⟨phys, init⟩ := init
  refine ⟨⟨mmap, fixed, 8 * capacity mmap, safe, { q with phys }, read mem (info.rsdp + 16) 4,
    info.version⟩, ?_, entries, ranges, rfl⟩
  rw [kernelMain, walk]
  simp only [Option.bind_some, map, version, signature, checksum, kernelMainPmm, ← entries,
    ← ranges, getStackSize_eq usable count, found, nonnull, init, Option.map_some, ne_eq,
    not_true_eq_false, if_false]

end Boot

/-- Once kernel_main has started the allocator, no sequence of its calls makes the stack of free
pages reach a byte of the kernel, the page tables, the memory map or the boot stack, although
the bounds check can leave a byte of them in the memory that it finds. And no page that is free or
handed out is a page table; one that meets a range, or the memory of the stack itself, has the
start of a range or of a usable entry inside of it. -/
theorem kernel_main_protects (mem : Memory) (root : Nat) (args : KernelArgs) (b : Booted)
    (boot : kernelMain mem (4096 * root) args = some (.systemMain b)) (usable : UsableMap b.mmap)
    (ranges : FixedRanges b.fixed) (low : root < 2 ^ 40)
    (plain : PlainTables (frames mem) 3 root) (calls : List PmmCall) (l : Ledger)
    (run : b.pmm.ledger.run calls = some l) :
    8 * l.phys.freePages.length < b.required ∧
    (∀ r ∈ b.fixed, r.Off b.safe (8 * l.phys.freePages.length)) ∧
    ∀ page ∈ l.pages,
      (∀ path f, path.length ≤ 3 → tableAt child (frames mem) root path = some f →
        page ≠ 4096 * f) ∧
      (∀ r ∈ b.fixed, Overlaps page r → StartsInside page r) ∧
      (Overlaps page b.stackRange → StartsInside page b.stackRange ∧
        ((∃ e ∈ b.mmap, e.usable = true ∧ e.baseAddr.toNat = b.safe) ∨
          ∃ r ∈ b.fixed, r.stop.toNat = b.safe ∧ StartsInside page r)) := by
  obtain ⟨room, e, chosen⟩ := kernelMain_chosen boot usable ranges.ends
  have pages := kernelMain_pages boot run
  have short : 8 * l.phys.freePages.length < b.required := by
    have fewer := kernelMain_fewer boot usable chosen run
    have most : (candidates b.mmap b.unsafeRanges).length ≤ capacity b.mmap :=
      candidates_length usable
    omega
  refine ⟨short, fun r inside => chosen.off ranges short inside, fun page inside => ?_⟩
  have free := pages.subset inside
  refine ⟨fun path f => ?_, fun r inside => ?_, fun meets => ?_⟩
  · obtain ⟨-, info, -, -, fixed, -⟩ := kernelMain_steps boot
    rw [Booted.unsafeRanges, fixed] at free
    exact candidate_no_table low plain free
  · exact (overlaps_iff (candidate_free free r (List.mem_append_left _ inside))).mp
  · obtain ⟨front, place⟩ := chosen.overlap usable ranges free meets
    exact ⟨front, place.imp (fun base => ⟨e, chosen.inside, chosen.used, base⟩) id⟩

theorem boundsLoop_straight {unsafeRanges : List MemoryRange} {checkEnd reqSize p count : Nat}
    (bound : checkEnd < 2 ^ 64) (room : p + reqSize < checkEnd)
    (clear : ∀ a, p ≤ a → a < p + reqSize → insideOf unsafeRanges a = none) {passes : Nat}
    (few : count ≤ reqSize) (enough : reqSize < passes + count) :
    boundsLoop unsafeRanges checkEnd reqSize passes (p + count) count = some p := by
  induction passes generalizing count with
  | zero => omega
  | succ passes ih =>
    rw [boundsLoop, if_pos (by omega)]
    by_cases full : reqSize ≤ count
    · rw [if_pos full]
      congr 1
      omega
    · rw [if_neg full, clear (p + count) (by omega) (by omega)]
      dsimp only
      rw [Nat.mod_eq_of_lt (by omega), Nat.mod_eq_of_lt (by omega), Nat.add_assoc]
      exact ih (by omega) (by omega)

/-- A multiboot structure at 0x9000 that tells of 8 MiB of memory at 1 MiB. -/
def kernelTags : Memory := fun x => BitVec.ofNat 8 (
  ([0, 0, 0, 0, 0, 0, 0, 0] ++ [6, 0, 0, 0, 40, 0, 0, 0, 24, 0, 0, 0, 0, 0, 0, 0] ++
    [0, 0, 0x10, 0, 0, 0, 0, 0, 0, 0, 0x80, 0, 0, 0, 0, 0, 1, 0, 0, 0, 0, 0, 0, 0] ++
    tag14).getD (x - 0x9000) 0)

/- The tables at 0x5000 and 0x6000 map a gigabyte. -/
def kernelMemory : Memory :=
  setWord (setWord kernelTags (4096 * 5 + 8 * (0 : Fin 512)) 0x6003#64)
    (4096 * 6 + 8 * (0 : Fin 512)) 0x83#64

def kernelArgs : KernelArgs := ⟨0x9000, 0x200000, 0x210000, 0x300000, 0x10000⟩

def kernelInfo : MbInfo := ⟨1, 0x9018, 1, 0x9038, 0, 0, 0⟩

theorem kernelMemory_walk :
    interpretMultiboot kernelMemory kernelArgs.mbStructure = some ([0x9008, 0x9030], kernelInfo) :=
  rfl

theorem kernelMemory_mmap : mmapEntries kernelMemory 0x9018 1 = [⟨0x100000, 0x800000, 1⟩] := by
  decide

theorem kernelMemory_frames {f : Nat} (low : f < 8) (i : Fin 512) :
    frames kernelMemory f i =
      if f = 6 ∧ i = 0 then 0x83#64 else if f = 5 ∧ i = 0 then 0x6003#64 else 0 := by
  have blank : frames kernelTags f = fun _ => 0 := by
    apply frames_zero
    intro x _ below
    rw [kernelTags, Nat.sub_eq_zero_of_le (by omega)]
    rfl
  rw [kernelMemory, frames_setWord, frames_setWord, store, store, blank]

theorem kernelMemory_child {f : Nat} (low : f < 8) (i : Fin 512) :
    child (frames kernelMemory f i) = if f = 5 ∧ i = 0 then some 6 else none := by
  rw [kernelMemory_frames low]
  split
  · rename_i here
    rw [if_neg (by omega)]
    rfl
  · split <;> rfl

theorem kernelMemory_tableAt {path : List (Fin 512)} {f : Nat}
    (reach : tableAt child (frames kernelMemory) 5 path = some f) : f = 5 ∨ f = 6 := by
  cases path with
  | nil => exact .inl (Option.some.inj reach).symm
  | cons i path =>
    obtain ⟨g, next, rest⟩ := Option.bind_eq_some_iff.mp reach
    rw [kernelMemory_child (by decide)] at next
    split at next
    · obtain rfl := Option.some.inj next
      cases path with
      | nil => exact .inr (Option.some.inj rest).symm
      | cons j path =>
        obtain ⟨g, next, -⟩ := Option.bind_eq_some_iff.mp rest
        rw [kernelMemory_child (by decide), if_neg (by omega)] at next
        cases next
    · cases next

theorem kernelMemory_plain : PlainTables (frames kernelMemory) 3 5 := by
  intro path f _ reach i
  have low : f < 8 := by
    have := kernelMemory_tableAt reach
    omega
  rw [kernelMemory_frames low]
  split
  · exact ⟨by decide, by decide⟩
  · split <;> exact ⟨by decide, by decide⟩

theorem kernelMemory_area :
    getPageTableArea (frames kernelMemory) (4096 * 5) = (0x5000, 0x7000) := by
  obtain ⟨covers, ⟨path, f, -, reach, bottom⟩, path', g, -, reach', top⟩ :=
    page_table_area (frames kernelMemory) 5 (by decide) kernelMemory_plain
  have one := covers [] 5 (by decide) rfl
  have two := covers [0] 6 (by decide) (by
    rw [tableAt, kernelMemory_child (by decide)]
    rfl)
  have := kernelMemory_tableAt reach
  have := kernelMemory_tableAt reach'
  exact Prod.ext (by dsimp only; omega) (by dsimp only; omega)

theorem kernelMemory_fixed : fixedRanges kernelMemory (4096 * 5) kernelArgs kernelInfo =
    [⟨0x200000, 0x210000⟩, ⟨0x5000, 0x7000⟩, ⟨0x9018, 0x9030⟩, ⟨0x300000, 0x310000⟩] := by
  rw [fixedRanges, kernelMemory_area]
  rfl

theorem kernelMemory_ranges : FixedRanges
    [⟨0x200000, 0x210000⟩, ⟨0x5000, 0x7000⟩, ⟨0x9018, 0x9030⟩, ⟨0x300000, 0x310000⟩] :=
  ⟨by decide, by decide, by decide⟩

theorem kernelMemory_usable : UsableMap [⟨0x100000, 0x800000, 1⟩] :=
  ⟨List.pairwise_singleton _ _, by decide⟩

theorem kernelMemory_safe : findSafe (8 * capacity [⟨0x100000, 0x800000, 1⟩])
    [⟨0x200000, 0x210000⟩, ⟨0x5000, 0x7000⟩, ⟨0x9018, 0x9030⟩, ⟨0x300000, 0x310000⟩]
    [⟨0x100000, 0x800000, 1⟩] = some 0x100000 := by
  have straight : checkMemoryBounds 0x100000 0x800000 0x4000
      [⟨0x200000, 0x210000⟩, ⟨0x5000, 0x7000⟩, ⟨0x9018, 0x9030⟩, ⟨0x300000, 0x310000⟩] =
      some 0x100000 := by
    apply boundsLoop_straight (by decide) (by decide) _ (Nat.zero_le _) (by decide)
    intro a low high
    have ends : ∀ r ∈ ([⟨0x200000, 0x210000⟩, ⟨0x5000, 0x7000⟩, ⟨0x9018, 0x9030⟩,
        ⟨0x300000, 0x310000⟩] : List MemoryRange),
        r.stop.toNat ≤ 0x100000 ∨ 0x104000 ≤ r.start.toNat := by decide
    apply insideOf_none.mpr
    intro r inside
    have := ends r inside
    omega
  have size : 8 * capacity [⟨0x100000, 0x800000, 1⟩] = 0x4000 := by decide
  rw [size, findSafe, if_pos (by decide)]
  have base : (⟨0x100000, 0x800000, 1⟩ : MmapEntry).baseAddr.toNat = 0x100000 := by decide
  have length : (⟨0x100000, 0x800000, 1⟩ : MmapEntry).length.toNat = 0x800000 := by decide
  rw [base, length, straight]
  rfl

theorem kernelMemory_free : [0x400000, 0x401000, 0x402000, 0x403000] ⊆
    candidates [⟨0x100000, 0x800000, 1⟩] ([⟨0x200000, 0x210000⟩, ⟨0x5000, 0x7000⟩,
      ⟨0x9018, 0x9030⟩, ⟨0x300000, 0x310000⟩] ++
        [stackRange 0x100000 (8 * capacity [⟨0x100000, 0x800000, 1⟩])]) := by
  intro page inside
  apply (candidates_iff kernelMemory_usable).mpr
  refine ⟨⟨_, List.mem_singleton_self _, by decide, ?_⟩, ?_⟩
  · revert page
    unfold WholePage
    decide
  · revert page
    decide

theorem kernelMemory_bootable : Bootable kernelMemory 5 kernelArgs kernelInfo 0x100000 := by
  have entries : mmapEntries kernelMemory kernelInfo.map kernelInfo.count =
    [⟨0x100000, 0x800000, 1⟩] := kernelMemory_mmap
  constructor
  case usable => exact entries ▸ kernelMemory_usable
  case found =>
    rw [entries, kernelMemory_fixed]
    exact kernelMemory_safe
  case plain => exact kernelMemory_plain
  case slots =>
    intro i high _
    rw [kernelMemory_frames (by decide), if_neg (by omega), if_neg (by omega)]
    rfl
  case enough =>
    rw [entries, kernelMemory_fixed]
    exact (List.subperm_of_subset (by decide) kernelMemory_free).length_le
  all_goals decide

theorem kernel_main_protects_eight :
    ∃ b, kernelMain kernelMemory (4096 * 5) kernelArgs = some (.systemMain b) ∧
      b.safe = 0x100000 ∧ ∀ calls l, b.pmm.ledger.run calls = some l →
        8 * l.phys.freePages.length < b.required ∧ 0x5000 ∉ l.pages ∧ 0x6000 ∉ l.pages := by
  obtain ⟨b, boot, entries, fixed, safe⟩ := kernelMain_returns kernelMemory_walk
    kernelMemory_bootable
  refine ⟨b, boot, safe, fun calls l run => ?_⟩
  have usable : UsableMap b.mmap := by
    rw [entries]
    exact kernelMemory_bootable.usable
  have ranges : FixedRanges b.fixed := by
    rw [fixed, kernelMemory_fixed]
    exact kernelMemory_ranges
  obtain ⟨short, -, pages⟩ := kernel_main_protects kernelMemory 5 kernelArgs b boot usable ranges
    (by decide) kernelMemory_plain calls l run
  refine ⟨short, fun inside => (pages _ inside).1 [] 5 (by decide) rfl rfl, fun inside => ?_⟩
  refine (pages _ inside).1 [0] 6 (by decide) ?_ rfl
  rw [tableAt, kernelMemory_child (by decide)]
  rfl

end Gapxos
