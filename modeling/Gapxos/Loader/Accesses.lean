import Gapxos.Loader.Origin
import Gapxos.Loader.Still

/-! Which pages load_elf64_module asks for, which bytes it writes and which it reads. The
segments lie one behind the other at the origin, so the place of each depends on the sizes of
all before it; and nothing is compared with the end of the module. -/
namespace Gapxos
open Bytes Runs

section Header

variable {h : Nat × Phdr} {table : List (Nat × Phdr)}

theorem mem_loaded {p : Phdr} :
    p ∈ loaded table ↔ ∃ h ∈ table, h.2.load = true ∧ h.2 = p := by
  simp only [loaded, List.mem_filter, List.mem_map]
  constructor
  · rintro ⟨⟨h, inside, rfl⟩, load⟩
    exact ⟨h, inside, load, rfl⟩
  · rintro ⟨h, inside, load, rfl⟩
    exact ⟨⟨h, inside, rfl⟩, load⟩

theorem total_split (before after : List (Nat × Phdr)) (load : h.2.load = true) :
    total (loaded before) + h.2.memsz ≤ total (loaded (before ++ h :: after)) := by
  simp only [loaded, total, List.map_append, List.map_cons, List.filter_append, List.filter_cons,
    load, if_true, List.sum_append, List.sum_cons]
  omega

theorem spanSize_table (m : Memory) (ms : Nat) : spanSize m ms =
    ((((headerTable m ms).map Prod.snd).foldl widen (2 ^ 64 - 1, 0)).2 + 2 ^ 64 -
      (((headerTable m ms).map Prod.snd).foldl widen (2 ^ 64 - 1, 0)).1) % 2 ^ 64 := by
  have same : (List.range' 0 (ePhnum m ms)).foldl (fun span i =>
      widen span (phdrAt m ((firstPhdr m ms + i * ePhentsize m ms) % 2 ^ 32))) (2 ^ 64 - 1, 0) =
      ((headerTable m ms).map Prod.snd).foldl widen (2 ^ 64 - 1, 0) := by
    rw [headerTable, tableFrom, List.map_map, List.foldl_map]
    refine List.foldl_ext _ _ _ fun span i _ => ?_
    rw [firstPhdr, Nat.mod_add_mod]
    rfl
  rw [spanSize, same]

end Header

section Load

variable {map : BootMap} {ms : Nat} {s : Loader} {e : LoadEvent}

theorem page_mem_loadTrace (still : LoadStill map ms s) {c : Add} :
    .page c ∈ loadTrace map ms s ↔
      ∃ before h after, headerTable s.mem ms = before ++ h :: after ∧ h.2.load = true ∧
        ∃ t < 2 ^ 19, 4096 * t < h.2.memsz ∧
          c = h.2.call ((origin map ms s + total (loaded before)) % 2 ^ 32) t := by
  rw [loadTrace_mem still]
  constructor
  · rintro ((check | one | one) | ⟨h, _, span⟩ | ⟨before, h, after, split, does⟩)
    · simp [checkTrace] at check
    · cases one
    · cases one
    · obtain ⟨_, _, read⟩ := spanTrace_reads span
      cases read
    · cases does with
      | segment load does =>
        cases does with
        | page few less => exact ⟨before, h, after, split, load, _, few, less, rfl⟩
  · rintro ⟨before, h, after, split, load, t, few, less, rfl⟩
    exact .inr (.inr ⟨before, h, after, split, .segment load (.page few less)⟩)

theorem writes_loadTrace (still : LoadStill map ms s) (inside : e ∈ loadTrace map ms s) {x : Nat}
    (writes : e.Writes x) :
    ∃ before h after, headerTable s.mem ms = before ++ h :: after ∧ h.2.load = true ∧
      (origin map ms s + total (loaded before)) % 2 ^ 32 ≤ x ∧
      (x < (origin map ms s + total (loaded before)) % 2 ^ 32 + h.2.memsz % 2 ^ 32 ∨
        x < (origin map ms s + total (loaded before)) % 2 ^ 32 + h.2.filesz % 2 ^ 32) := by
  rw [loadTrace_mem still] at inside
  rcases inside with (check | rfl | rfl) | ⟨h, _, span⟩ | ⟨before, h, after, split, does⟩
  · simp only [checkTrace, List.mem_cons, List.not_mem_nil, or_false] at check
    rcases check with rfl | rfl | rfl | rfl <;> exact writes.elim
  · exact writes.elim
  · exact writes.elim
  · obtain ⟨_, _, rfl⟩ := spanTrace_reads span
    exact writes.elim
  · cases does with
    | type => exact writes.elim
    | size => exact writes.elim
    | segment load does =>
      cases does with
      | zero => exact ⟨before, h, after, split, load, writes.1, .inl writes.2⟩
      | copy => exact ⟨before, h, after, split, load, writes.1, .inr writes.2⟩
      | _ => exact writes.elim

end Load

/- Modules for the cases below are written field by field. -/
def putPhdr (m : Memory) (a : Nat) (p : Phdr) : Memory :=
  let m := write (write m a 4 p.type) (a + 4) 4 p.flags
  let m := write (write m (a + 8) 8 p.offset) (a + 16) 8 p.vaddr
  write (write m (a + 32) 8 p.filesz) (a + 40) 8 p.memsz

def putEhdr (m : Memory) (a phoff phnum : Nat) : Memory :=
  let m := write (write m a 8 0x10102464c457f) (a + 16) 2 2
  write (write (write m (a + 32) 8 phoff) (a + 54) 2 56) (a + 56) 2 phnum

/-- A module of 0x78 bytes with a segment of four bytes. -/
def oneSegment (filesz : Nat) : Loader where
  mem := putPhdr (putEhdr (oneEntry 0x100000 0x4000) 0x20000 64 1) 0x20040
    ⟨1, 5, 0, 0xffff800000000000, filesz, 4⟩
  pml4t := 0x200000
  pageFreePoint := 0x201000

theorem oneSegment_table {filesz : Nat} (small : filesz = 4 ∨ filesz = 8) :
    headerTable (oneSegment filesz).mem 0x20000 =
      [(0x20040, ⟨1, 5, 0, 0xffff800000000000, filesz, 4⟩)] := by
  rcases small with rfl | rfl <;> decide +kernel

theorem oneSegment_accepted {filesz : Nat} (small : filesz = 4 ∨ filesz = 8) :
    headerOk (oneSegment filesz).mem 0x20000 = true := by
  rcases small with rfl | rfl <;> decide +kernel

section Tiny

/- The load of the module with two segments in falling order. -/
theorem tiny_table : headerTable (bootTables tinyMem (4096 * 0x200) 0x100000).mem 0x800000 =
    [(0x800040, tinyData), (0x800078, tinyCode)] := by
  rw [tiny_kept.1.headerTable tiny_headers]
  decide

theorem tiny_loads :
    loads (bootTables tinyMem (4096 * 0x200) 0x100000).mem 0x800000 = [tinyData, tinyCode] := by
  rw [loads, tiny_table]
  decide

theorem tiny_pages : PagesApart 0x200 0x800000 0x8000b0
    (bootTables tinyMem (4096 * 0x200) 0x100000).mem := by
  have pages : [tinyData, tinyCode].flatMap Phdr.pages =
      [0xffff800000001000, 0xffff800000000000] := by decide
  refine ⟨by decide, tiny_module, ?_, ?_⟩
  · rw [tiny_loads, pages]
    decide
  · rw [tiny_loads, pages]
    intro v inside low
    simp only [List.mem_cons, List.not_mem_nil, or_false] at inside
    rcases inside with rfl | rfl <;> omega

theorem tiny_apart : LoadApart 0x200 ⟨0x9000, 1, 0x900000⟩ 0x800000 0x8000b0
    (bootTables tinyMem (4096 * 0x200) 0x100000) := by
  have place : origin ⟨0x9000, 1, 0x900000⟩ 0x800000
      (bootTables tinyMem (4096 * 0x200) 0x100000) = 0x1000000 := tiny_origin
  refine ⟨tiny_pages, ?_, ?_, ?_⟩
  · rw [place, tiny_loads]
    decide
  · rw [place]
    exact .inr (by decide)
  · rw [place]
    exact .inr (by decide)

theorem tiny_sizes : ∀ p ∈ loads (bootTables tinyMem (4096 * 0x200) 0x100000).mem 0x800000,
    p.filesz ≤ p.memsz := by
  rw [tiny_loads]
  decide

end Tiny

/-- The calls of add_page are for whole pages if every segment begins on a page and all before
it are whole pages together, and only then. -/
theorem load_aligned_iff (mem : Memory) (r stack : Nat) (map : BootMap) (ms me : Nat) (s : Loader)
    (boot : s = bootTables mem (4096 * r) stack) (headers : HeadersIn s.mem ms me)
    (size : ∀ p ∈ loads s.mem ms, p.filesz ≤ p.memsz) (apart : LoadApart r map ms me s) :
    (∀ c, .page c ∈ loadTrace map ms s → c.virt % 4096 = 0 ∧ c.phys % 4096 = 0) ↔
      ∀ before h after, headerTable s.mem ms = before ++ h :: after → h.2.load = true →
        0 < h.2.memsz → h.2.vaddr % 4096 = 0 ∧ total (loaded before) % 4096 = 0 := by
  subst boot
  have still := apart.still headers size
  have start := (findElf64PhysOrigin_place (bootTables mem (4096 * r) stack).mem map
    (spanSize (bootTables mem (4096 * r) stack).mem ms)).1
  simp only [page_mem_loadTrace still]
  constructor
  · intro aligned before h after split load some
    have first := aligned _ ⟨before, h, after, split, load, 0, by omega, by omega, rfl⟩
    simp only [Phdr.call, origin] at first
    omega
  · rintro packed c ⟨before, h, after, split, load, t, _, less, rfl⟩
    have here := packed before h after split load (by omega)
    simp only [Phdr.call, origin]
    omega

theorem load_aligned_two_segments :
    loads (bootTables tinyMem (4096 * 0x200) 0x100000).mem 0x800000 = [tinyData, tinyCode] ∧
      ∀ c, .page c ∈ loadTrace ⟨0x9000, 1, 0x900000⟩ 0x800000
          (bootTables tinyMem (4096 * 0x200) 0x100000) →
        c.virt % 4096 = 0 ∧ c.phys % 4096 = 0 := by
  refine ⟨tiny_loads, ?_⟩
  apply (load_aligned_iff tinyMem 0x200 0x100000 _ _ _ _ rfl
    (tiny_headers.headersIn tiny_kept.1) tiny_sizes tiny_apart).mpr
  intro before h after split load some
  rw [tiny_table] at split
  rcases before with _ | ⟨first, _ | ⟨second, before⟩⟩
  · cases split
    decide
  · cases split
    decide
  · simp at split

/-- Two segments of one byte each; the second is placed right behind the first. -/
def twoSegments : Loader where
  mem := putPhdr (putPhdr (putEhdr (oneEntry 0x100000 0x4000) 0x20000 64 2)
    0x20040 ⟨1, 5, 0, 0xffff800000000000, 0, 1⟩) 0x20078 ⟨1, 6, 0, 0xffff800000001000, 0, 1⟩
  pml4t := 0x200000
  pageFreePoint := 0x201000

theorem load_misaligned :
    headerOk twoSegments.mem 0x20000 = true ∧
      (loaded (headerTable twoSegments.mem 0x20000)).Pairwise Phdr.Off ∧
      .page ⟨0xffff800000001000, 0x100001, false⟩ ∈
        loadTrace ⟨0x9000, 1, 0x100000⟩ 0x20000 twoSegments := by
  have list : loaded (headerTable twoSegments.mem 0x20000) =
      [⟨1, 5, 0, 0xffff800000000000, 0, 1⟩, ⟨1, 6, 0, 0xffff800000001000, 0, 1⟩] := by
    decide +kernel
  refine ⟨by decide +kernel, ?_, by decide +kernel⟩
  rw [list]
  apply List.pairwise_pair.mpr
  rintro a ⟨⟨_, below⟩, above, _⟩
  simp only at below above
  omega

section Behind

variable {map : BootMap} {ms me r : Nat} {s : Loader}

theorem origin_behind {i : Nat} (least : map.minElf64Addr < 2 ^ 32)
    (offer : FirstOffer s.mem map (spanSize s.mem ms) i)
    (low : entryOrigin s.mem map.minElf64Addr (map.memoryMap + 24 * i) + spanSize s.mem ms <
      2 ^ 32) :
    map.minElf64Addr ≤ origin map ms s ∧ origin map ms s + spanSize s.mem ms < 2 ^ 32 := by
  have above : map.minElf64Addr ≤
      entryOrigin s.mem map.minElf64Addr (map.memoryMap + 24 * i) := by
    simp only [entryOrigin, pageUp]
    omega
  have found : (∃ j, FirstOffer s.mem map (spanSize s.mem ms) j ∧ _) ∨ _ :=
    findElf64PhysOrigin_eq least
  rcases found with ⟨j, offer', place⟩ | ⟨never, _⟩
  · obtain rfl : i = j := firstOffer_unique offer offer'
    rw [origin, place, Nat.mod_eq_of_lt (by omega)]
    exact ⟨above, low⟩
  · exact absurd offer (never i)

end Behind

/-- Nothing is written outside the range that is kept from the PMM. -/
theorem load_writes_inside (mem : Memory) (r stack : Nat) (map : BootMap) (ms me : Nat)
    (s : Loader) (boot : s = bootTables mem (4096 * r) stack) (headers : HeadersIn s.mem ms me)
    (pages : PagesApart r ms me s.mem)
    (least : map.minElf64Addr < 2 ^ 32) (behind : me ≤ map.minElf64Addr)
    (behind' : 4096 * (r + 1024) ≤ map.minElf64Addr)
    (apart : (loads s.mem ms).Pairwise Phdr.Off)
    (ends : ∀ p ∈ loads s.mem ms, p.vaddr + p.memsz < 2 ^ 64)
    (size : ∀ p ∈ loads s.mem ms, p.filesz ≤ p.memsz) (i : Nat)
    (offer : FirstOffer s.mem map (spanSize s.mem ms) i)
    (low : entryOrigin s.mem map.minElf64Addr (map.memoryMap + 24 * i) + spanSize s.mem ms < 2 ^ 32)
    (out : Loaded) (run : loadElf64Module map ms s = some out) :
    ∀ e ∈ loadTrace map ms s, ∀ x, e.Writes x → out.loadStart ≤ x ∧ x < out.loadEnd := by
  obtain ⟨above, low⟩ := origin_behind least offer low
  have span : total (loads s.mem ms) ≤ spanSize s.mem ms := by
    rw [spanSize_table]
    exact total_le_span ends apart
  have off : me ≤ origin map ms s := Nat.le_trans behind above
  have off' : 4096 * (r + 256) ≤ origin map ms s :=
    Nat.le_trans (Nat.mul_le_mul_left 4096 (by omega)) (Nat.le_trans behind' above)
  have far : LoadApart r map ms me s := ⟨pages, by omega, .inr off, .inr off'⟩
  have still : LoadStill map ms s := by
    subst boot
    exact far.still headers size
  obtain ⟨start, stop⟩ : out.loadStart = origin map ms s ∧
      out.loadEnd = (out.loadStart + spanSize s.mem ms) % 2 ^ 32 := by
    simp only [loadElf64Module, Option.ite_none_right_eq_some, Option.some.injEq] at run
    rw [← run.2]
    exact ⟨rfl, rfl⟩
  rw [start, Nat.mod_eq_of_lt low] at stop
  intro e inside x writes
  obtain ⟨before, h, after, split, load, above, below⟩ := writes_loadTrace still inside writes
  have part := total_split before after load
  have file := size h.2 (mem_loaded.mpr ⟨h, by rw [split]; simp, load, rfl⟩)
  rw [← split] at part
  change _ ≤ total (loads s.mem ms) at part
  rw [Nat.mod_eq_of_lt (by omega)] at above below
  omega

theorem load_writes_inside_two_segments :
    ∃ out, loadElf64Module ⟨0x9000, 1, 0x900000⟩ 0x800000
        (bootTables tinyMem (4096 * 0x200) 0x100000) = some out ∧
      ∀ e ∈ loadTrace ⟨0x9000, 1, 0x900000⟩ 0x800000
          (bootTables tinyMem (4096 * 0x200) 0x100000), ∀ x, e.Writes x →
        out.loadStart ≤ x ∧ x < out.loadEnd := by
  have accepted := tiny_accepted
  have headers := tiny_headers.headersIn tiny_kept.1
  have pages := tiny_pages
  have sizes := tiny_sizes
  have list := tiny_loads
  have span : spanSize (bootTables tinyMem (4096 * 0x200) 0x100000).mem 0x800000 = 0x2000 := by
    rw [tiny_kept.1.spanSize tiny_headers, tiny_size]
  have entry : ∀ b n, 0x9000 ≤ b → b + n ≤ 0x9000 + 20 →
      read (bootTables tinyMem (4096 * 0x200) 0x100000).mem b n = read tinyMem b n :=
    fun b n low high => read_congr fun x above below => tiny_kept.2 x (by omega) (by omega)
  obtain ⟨s, boot⟩ : ∃ s, s = bootTables tinyMem (4096 * 0x200) 0x100000 := ⟨_, rfl⟩
  rw [← boot] at accepted headers pages sizes list span entry ⊢
  have start := entry 0x9000 8 (by decide) (by decide)
  have length := entry (0x9000 + 8) 8 (by decide) (by decide)
  have type := entry (0x9000 + 16) 4 (by decide) (by decide)
  refine ⟨_, loadElf64Module_accepts accepted, load_writes_inside tinyMem 0x200 0x100000 _ _ _ s
    boot headers pages (by decide) (by decide) (by decide) ?_ ?_ sizes 0 ?_ ?_ _
    (loadElf64Module_accepts accepted)⟩
  · rw [list]
    exact List.pairwise_pair.mpr tiny_off
  · rw [list]
    decide
  · refine ⟨by decide, ?_, fun j less => absurd less (Nat.not_lt_zero j)⟩
    simp only [EntryOffers, entryCut, entryOrigin, Nat.mul_zero, Nat.add_zero, span, start, length,
      type]
    decide
  · simp only [entryOrigin, Nat.mul_zero, Nat.add_zero, span, start]
    decide

/- A module at 6 MiB with a segment of 4 bytes that is linked to 0x607000, and behind its only
program header the bytes of another one. The page tables are at 0x16000. -/
def linkedLow : Memory :=
  putPhdr (putPhdr (putEhdr (write (write (write (fun _ => 0) 0x420018 8 0x610000) 0x420020 8
    0x100000) 0x420028 4 1) 0x600000 64 1) 0x600040 ⟨1, 5, 0, 0x607000, 0, 4⟩)
    0x600078 ⟨1, 6, 0, 0x700000, 0, 16⟩

theorem linkedLow_tables : bootTables linkedLow 0x16000 0x5000 =
    Loader.addPage ⟨setWord (setWord (setWord (setWord (setWord (setWord linkedLow 0x16000
      (loaderEntry 0x17000)) 0x17000 (loaderEntry 0x18000)) 0x18000 (identityEntry 0x000000))
      0x18008 (identityEntry 0x200000)) 0x18010 (identityEntry 0x400000)) 0x18018
      (identityEntry 0x600000), 0x16000, 0x19000⟩ stackVirt 0x5000 false := by
  have same : zeroMemory linkedLow 0x16000 1048576 = linkedLow := by
    funext x
    rw [zeroMemory_apply]
    split
    · rename_i inside
      simp only [linkedLow, putPhdr, putEhdr]
      simp (disch := omega) only [write_other]
    · rfl
  rw [bootTables, initPageStructure, same]

theorem load_writes_past_end :
    ∃ out, loadElf64Module ⟨0x420018, 1, 0x600200⟩ 0x600000
        (bootTables linkedLow 0x16000 0x5000) = some out ∧
      loads (bootTables linkedLow 0x16000 0x5000).mem 0x600000 = [⟨1, 5, 0, 0x607000, 0, 4⟩] ∧
      out.loadStart = 0x610000 ∧ out.loadEnd = 0x610004 ∧
      .zero 0x610004 16 ∈ loadTrace ⟨0x420018, 1, 0x600200⟩ 0x600000
        (bootTables linkedLow 0x16000 0x5000) := by
  rw [linkedLow_tables]
  exact ⟨_, loadElf64Module_accepts (by decide +kernel), by decide +kernel, by decide +kernel,
    by decide +kernel, by decide +kernel⟩

/-- A module that ends at `me` with all that is read of it. -/
structure ModuleFits (m : Memory) (ms me : Nat) : Prop where
  header : ms + 58 ≤ me
  phdr : ∀ h ∈ headerTable m ms, ms ≤ h.1 ∧ h.1 + (if h.2.load then 48 else 4) ≤ me
  contents : ∀ p ∈ loads m ms, p.filesz % 2 ^ 32 = 0 ∨
    ms ≤ (ms + p.offset) % 2 ^ 32 ∧ (ms + p.offset) % 2 ^ 32 + p.filesz % 2 ^ 32 ≤ me
  size : ∀ p ∈ loads m ms, p.filesz ≤ p.memsz

section Reads

variable {map : BootMap} {ms me : Nat} {s : Loader} {e : LoadEvent}

/-- An event that reads only the module. -/
def LoadEvent.Inside (ms me : Nat) (e : LoadEvent) : Prop := ∀ x, e.Reads x → ms ≤ x ∧ x < me

theorem inside_read {a n : Nat} : (LoadEvent.read a (n + 1)).Inside ms me ↔
    ms ≤ a ∧ a + (n + 1) ≤ me := by
  constructor
  · intro inside
    have first := inside a ⟨Nat.le_refl a, by omega⟩
    have last := inside (a + n) ⟨by omega, by omega⟩
    omega
  · rintro ⟨low, high⟩ x ⟨above, below⟩
    omega

theorem inside_copy {dst src len : Nat} : (LoadEvent.copy dst src len).Inside ms me ↔
    len = 0 ∨ ms ≤ src ∧ src + len ≤ me := by
  cases len with
  | zero => exact ⟨fun _ => .inl rfl, fun _ x reads => by have := reads.1; have := reads.2; omega⟩
  | succ n =>
    simp only [Nat.succ_ne_zero, false_or]
    exact inside_read (a := src)

theorem ModuleFits.spanTrace (fits : ModuleFits s.mem ms me) {h : Nat × Phdr}
    (here : h ∈ headerTable s.mem ms) (event : e ∈ spanTrace ms h) : e.Inside ms me := by
  obtain ⟨low, high⟩ := fits.phdr h here
  have header := fits.header
  simp only [Gapxos.spanTrace] at event
  split at event <;> rename_i load <;>
    simp only [List.mem_append, List.mem_cons, List.not_mem_nil, or_false] at event
  · rw [if_pos load] at high
    rcases event with ((rfl | rfl) | rfl | rfl) | rfl <;> exact inside_read.mpr (by omega)
  · rw [if_neg load] at high
    rcases event with (rfl | rfl) | rfl <;> exact inside_read.mpr (by omega)

theorem ModuleFits.headerDoes (fits : ModuleFits s.mem ms me) {h : Nat × Phdr} {base : Nat}
    (here : h ∈ headerTable s.mem ms) (does : HeaderDoes ms base h e) : e.Inside ms me := by
  obtain ⟨low, high⟩ := fits.phdr h here
  have header := fits.header
  cases does with
  | type =>
    split at high
    · exact inside_read.mpr (by omega)
    · exact inside_read.mpr (by omega)
  | size => exact inside_read.mpr (by omega)
  | segment load does =>
    rw [if_pos load] at high
    cases does with
    | zero => exact fun x reads => reads.elim
    | page => exact fun x reads => reads.elim
    | copy => exact inside_copy.mpr (fits.contents h.2 (mem_loaded.mpr ⟨h, here, load, rfl⟩))
    | _ => exact inside_read.mpr (by omega)

theorem headersIn_of_inside (top : me < 2 ^ 32)
    (inside : ∀ e ∈ loadTrace map ms s, e.Inside ms me) : HeadersIn s.mem ms me := by
  have first : ∀ h ∈ headerTable s.mem ms, ∀ e ∈ spanTrace ms h, e.Inside ms me := by
    intro h here e event
    refine inside e ?_
    simp only [loadTrace, List.mem_append]
    exact .inl (.inl (.inr (List.mem_flatMap.mpr ⟨h, here, event⟩)))
  have count : LoadEvent.read (ms + 56) 2 ∈ loadTrace map ms s := by
    simp only [loadTrace, List.mem_append]
    refine .inl (.inr ?_)
    rw [show (2 : Nat) ^ 16 = 65535 + 1 from rfl, passTrace]
    exact List.mem_cons_self
  refine ⟨Nat.le_of_lt top, (inside_read.mp (inside _ count)).2, fun h here => ?_⟩
  have type := inside_read.mp (first h here (.read h.1 4) (by simp [spanTrace]))
  split
  · rename_i load
    have memsz := inside_read.mp (first h here (.read (h.1 + 40) 8) (by simp [spanTrace, load]))
    omega
  · exact type

theorem inside_iff_fits (still : LoadStill map ms s) (headers : HeadersIn s.mem ms me) :
    ((∀ e ∈ loadTrace map ms s, e.Inside ms me) ∧
      ∀ p ∈ loads s.mem ms, p.filesz ≤ p.memsz) ↔ ModuleFits s.mem ms me := by
  simp only [loadTrace_mem still]
  constructor
  · rintro ⟨inside, size⟩
    refine ⟨headers.header, headers.phdr, fun p among => ?_, size⟩
    obtain ⟨h, here, load, rfl⟩ := mem_loaded.mp among
    obtain ⟨before, after, split⟩ := List.append_of_mem here
    exact inside_copy.mp (inside _ (.inr (.inr ⟨before, h, after, split, .segment load .copy⟩)))
  · intro fits
    refine ⟨?_, fits.size⟩
    have header := fits.header
    rintro e ((check | rfl | rfl) | ⟨h, here, span⟩ | ⟨before, h, after, split, does⟩)
    · simp only [checkTrace, List.mem_cons, List.not_mem_nil, or_false] at check
      rcases check with rfl | rfl | rfl | rfl <;> exact inside_read.mpr (by omega)
    · exact inside_read.mpr (by omega)
    · exact inside_read.mpr (by omega)
    · exact fits.spanTrace here span
    · exact fits.headerDoes (by rw [split]; simp) does

end Reads

/- A module that is refused is not read further and nothing is written; one that is accepted
must have in it all that is read. -/
theorem load_reads_module_iff (mem : Memory) (r stack : Nat) (map : BootMap) (ms me : Nat)
    (s : Loader) (boot : s = bootTables mem (4096 * r) stack) (top : me < 2 ^ 32)
    (apart : HeadersIn s.mem ms me → (∀ p ∈ loads s.mem ms, p.filesz ≤ p.memsz) →
      LoadApart r map ms me s) :
    (loadElf64Module map ms s = none ∨
      (∀ e ∈ loadTrace map ms s, ∀ x, e.Reads x → ms ≤ x ∧ x < me) ∧
        ∀ p ∈ loads s.mem ms, p.filesz ≤ p.memsz) ↔
      (headerOk s.mem ms = true → ModuleFits s.mem ms me) := by
  cases ok : headerOk s.mem ms with
  | false => simp [loadElf64Module, ok]
  | true =>
    have accepted : loadElf64Module map ms s ≠ none := by simp [loadElf64Module, ok]
    simp only [accepted, false_or, forall_const]
    have whole : HeadersIn s.mem ms me → (∀ p ∈ loads s.mem ms, p.filesz ≤ p.memsz) →
        (((∀ e ∈ loadTrace map ms s, e.Inside ms me) ∧
          ∀ p ∈ loads s.mem ms, p.filesz ≤ p.memsz) ↔ ModuleFits s.mem ms me) := by
      intro headers size
      have far := apart headers size
      subst boot
      exact inside_iff_fits (far.still headers size) headers
    constructor
    · rintro ⟨inside, size⟩
      exact (whole (headersIn_of_inside top inside) size).mp ⟨inside, size⟩
    · intro fits
      exact (whole ⟨Nat.le_of_lt top, fits.header, fits.phdr⟩ fits.size).mpr fits

theorem load_reads_module_two_segments :
    loadElf64Module ⟨0x9000, 1, 0x900000⟩ 0x800000
        (bootTables tinyMem (4096 * 0x200) 0x100000) = none ∨
      (∀ e ∈ loadTrace ⟨0x9000, 1, 0x900000⟩ 0x800000
          (bootTables tinyMem (4096 * 0x200) 0x100000), ∀ x, e.Reads x →
        0x800000 ≤ x ∧ x < 0x8000b0) ∧
      ∀ p ∈ loads (bootTables tinyMem (4096 * 0x200) 0x100000).mem 0x800000,
        p.filesz ≤ p.memsz := by
  apply (load_reads_module_iff tinyMem 0x200 0x100000 ⟨0x9000, 1, 0x900000⟩ 0x800000 0x8000b0 _ rfl
    (by decide) fun _ _ => tiny_apart).mpr
  intro _
  have contents : ∀ p ∈ [tinyData, tinyCode], p.filesz % 2 ^ 32 = 0 ∨
      0x800000 ≤ (0x800000 + p.offset) % 2 ^ 32 ∧
        (0x800000 + p.offset) % 2 ^ 32 + p.filesz % 2 ^ 32 ≤ 0x8000b0 := by decide
  have headers := tiny_headers.headersIn tiny_kept.1
  exact ⟨headers.header, headers.phdr, tiny_loads ▸ contents, tiny_sizes⟩

/-- A module that ends before its program header, and one with more bytes in the file than in
memory: both are loaded. -/
theorem load_reads_past_end :
    (loadElf64Module ⟨0x9000, 1, 0x100000⟩ 0x20000 (oneSegment 4) ≠ none ∧
      .read 0x20040 4 ∈ loadTrace ⟨0x9000, 1, 0x100000⟩ 0x20000 (oneSegment 4) ∧
      ¬ (LoadEvent.read 0x20040 4).Inside 0x20000 0x20040) ∧
    loadElf64Module ⟨0x9000, 1, 0x100000⟩ 0x20000 (oneSegment 8) ≠ none ∧
      .copy 0x100000 0x20000 8 ∈ loadTrace ⟨0x9000, 1, 0x100000⟩ 0x20000 (oneSegment 8) ∧
      .zero 0x100000 4 ∈ loadTrace ⟨0x9000, 1, 0x100000⟩ 0x20000 (oneSegment 8) := by
  have accepted : ∀ filesz, filesz = 4 ∨ filesz = 8 →
      loadElf64Module ⟨0x9000, 1, 0x100000⟩ 0x20000 (oneSegment filesz) ≠ none := by
    intro filesz small refused
    rw [loadElf64Module_accepts (oneSegment_accepted small)] at refused
    cases refused
  refine ⟨⟨accepted 4 (.inl rfl), by decide +kernel, fun inside => ?_⟩, accepted 8 (.inr rfl),
    by decide +kernel, by decide +kernel⟩
  have past := (inside_read.mp inside).2
  omega

end Gapxos
