import Gapxos.Loader.Load

/-! The address space the kernel starts in: its segments through the page tables, beside the
identity map and the stack that were mapped before. -/
namespace Gapxos
open Bytes Radix

theorem loaderEntry_bits {g : Nat} (low : g < 2 ^ 20) :
    writable (loaderEntry (4096 * g)) = true ∧ userBit (loaderEntry (4096 * g)) = false ∧
      noExec (loaderEntry (4096 * g)) = false := by
  have top : (BitVec.ofNat 64 (4096 * g % 2 ^ 32)).getLsbD 63 = false := by
    rw [BitVec.getLsbD_ofNat, Nat.testBit_lt_two_pow (by omega), Bool.and_false]
  have two : (BitVec.ofNat 64 (4096 * g % 2 ^ 32)).getLsbD 2 = false := by
    rw [Nat.mod_eq_of_lt (by omega)]
    exact page_low_bit g (by omega)
  simp only [writable, userBit, noExec, loaderEntry, BitVec.getLsbD_or, top, two]
  simp [pagePresent, pageRw]

section View

variable {r k : Nat} {s s' : Loader} {adds : List Add} {v : Nat}

theorem Tables.upper_words (inv : Tables r k s) {f pt : Nat} {q p : List (Fin 512)}
    (reach : tableAt child (frames s.mem) r q = some f) (len : q.length + p.length ≤ 3)
    (off : (q ++ p).take 2 ≠ [0, 0]) (upper : tableAt child (frames s.mem) f p = some pt) :
    ∀ e ∈ trace child (frames s.mem) f p, ∃ g < 2 ^ 20, e = loaderEntry (4096 * g) := by
  induction p generalizing q f with
  | nil => simp [trace]
  | cons i p ih =>
    simp only [List.length_cons] at len
    simp only [tableAt, Option.bind_eq_some_iff] at upper
    obtain ⟨g, edge, upper⟩ := upper
    have ne : q ≠ [0, 0] := by
      rintro rfl
      exact off (by simp)
    have split : q ++ i :: p = (q ++ [i]) ++ p := by simp
    rw [split] at off
    have rest := ih (tableAt_snoc reach edge) (by simp; omega) off upper
    simp only [trace, edge, List.mem_cons, forall_eq_or_imp]
    refine ⟨?_, rest⟩
    rcases inv.upper q f i (by omega) reach ne with zero | ⟨g', low, entry⟩
    · rw [zero, child_absent (show present 0 = false by decide)] at edge
      cases edge
    · exact ⟨g', low, entry⟩

def leafView (e : Word) : Option Xlate :=
  if present e then some ⟨hwFrame e, writable e, false, noExec e⟩ else none

theorem Mapped.leaf_view (inv : Mapped r k adds s) (outside : 2 ^ 30 ≤ v % 2 ^ 48)
    (upper : UpperPresent (frames s.mem) r v) :
    view (frames s.mem) r v = leafView (leafWord (lastAdd adds v)) := by
  obtain ⟨pt, reach⟩ := upper
  have words := inv.upper_words (q := []) (p := (path v).take 3) rfl (by simp [path])
    (path_off_identity outside) reach
  obtain ⟨a, b, c, three⟩ := trace_upper reach
  have whole : trace child (frames s.mem) r (path v) =
      trace child (frames s.mem) r ((path v).take 3) ++ [leafWord (lastAdd adds v)] := by
    rw [← inv.leaf v pt reach]
    nth_rewrite 1 [path_split v]
    rw [trace_append reach]
    simp only [trace]
    cases child (frames s.mem pt (Fin.ofNat 512 (v / 2 ^ 12))) <;> rfl
  rw [view, whole, three]
  rw [three] at words
  obtain ⟨x, lowx, rfl⟩ := words a (by simp)
  obtain ⟨y, lowy, rfl⟩ := words b (by simp)
  obtain ⟨z, lowz, rfl⟩ := words c (by simp)
  have bx := loaderEntry_bits lowx
  have by' := loaderEntry_bits lowy
  have bz := loaderEntry_bits lowz
  simp only [effective, translate, leafView, List.cons_append, List.nil_append, List.all_cons,
    List.any_cons, List.all_nil, List.any_nil, bx, by', bz, Bool.true_and, Bool.false_and,
    Bool.false_or, Bool.and_true, Bool.or_false]
  split <;> rfl

theorem Tables.identity_view (inv : Tables r k s) (bound : r + 256 ≤ 2 ^ 20)
    (inside : v % 2 ^ 48 < 2 ^ 30) :
    view (frames s.mem) r v = effective v [loaderEntry (4096 * (r + 1)),
      loaderEntry (4096 * (r + 2)),
      identityWord (Fin.ofNat 512 (v / 2 ^ 21))] := by
  have zero : (path v).take 2 = [0, 0] := by
    simp only [path, List.take_succ_cons, List.take_zero, List.cons.injEq, Fin.ext_iff, Fin.ofNat,
      and_true]
    have : (0 : Fin 512).val = 0 := rfl
    omega
  have split : path v = [0, 0, Fin.ofNat 512 (v / 2 ^ 21), Fin.ofNat 512 (v / 2 ^ 12)] := by
    have front : path v = (path v).take 2 ++
      [Fin.ofNat 512 (v / 2 ^ 21), Fin.ofNat 512 (v / 2 ^ 12)] := rfl
    rw [front, zero]
    rfl
  rw [view, split]
  simp only [trace, inv.first, inv.second, inv.third, identityWord_child,
    loaderEntry_child (show r + 1 < 2 ^ 20 by omega),
    loaderEntry_child (show r + 2 < 2 ^ 20 by omega)]

theorem lastAdd_unique {a : Add} (there : a ∈ adds) (page : pageOf a.virt = pageOf v)
    (only : ∀ b ∈ adds, pageOf b.virt = pageOf v → b = a) : lastAdd adds v = some a := by
  cases found : lastAdd adds v with
  | none =>
    have none : a ∈ adds.filter fun b => pageOf b.virt = pageOf v :=
      List.mem_filter.mpr ⟨there, by simpa using page⟩
    rw [List.getLast?_eq_none_iff.mp found] at none
    cases none
  | some b =>
    obtain ⟨inside, same⟩ := lastAdd_mem found
    rw [only b inside same]

end View

def stackVirt : Nat := 0xfffffffffffff000

/-- The tables as lmain has them when it loads the module. -/
def bootTables (mem : Memory) (pageStructureMem stack : Nat) : Loader :=
  (initPageStructure mem pageStructureMem).addPage stackVirt stack false

section Segment

variable {ms me : Nat} {p q : Phdr} {base base' t j : Nat}

theorem pageOf_segment (ok : SegmentOk ms me p) (inside : j < p.memsz) :
    pageOf (p.vaddr + j) = (p.vaddr / 4096 + j / 4096) % 2 ^ 36 ∧
      pageOf (p.vaddr + j) ≠ pageOf stackVirt := by
  have := ok.start
  have := ok.high
  have := ok.below
  unfold pageOf stackVirt
  constructor <;> omega

theorem pages_apart (ok : SegmentOk ms me p) (ok' : SegmentOk ms me q) (off : p.Off q) {i : Nat}
    (inside : j < p.memsz) (inside' : i < q.memsz) :
    pageOf (p.vaddr + j) ≠ pageOf (q.vaddr + i) := by
  have := ok.start
  have := ok.high
  have := ok.below
  have := ok.pages
  have := ok'.start
  have := ok'.high
  have := ok'.below
  have := ok'.pages
  intro same
  unfold pageOf at same
  exact off (p.vaddr + j / 4096 * 4096) ⟨by omega, by omega⟩

end Segment

section Image

variable {r ms me stack : Nat} {m : Memory} {ps : List Phdr} {out : Loader}
  {places : List (Phdr × Nat)} {p : Phdr} {v j : Nat}

def stackAdd (stack : Nat) : Add := ⟨stackVirt, stack, false⟩

theorem stackVirt_outside {v : Nat} (page : pageOf v = pageOf stackVirt) : 2 ^ 30 ≤ v % 2 ^ 48 := by
  unfold pageOf stackVirt at page
  omega

theorem Mapped.stack_view {k : Nat} {adds : List Add} (inv : Mapped r k adds out)
    (there : stackAdd stack ∈ adds) (page : pageOf v = pageOf stackVirt)
    (only : ∀ b ∈ adds, pageOf b.virt = pageOf stackVirt → b = stackAdd stack) :
    view (frames out.mem) r v = leafView (loaderLeaf stack false) := by
  have upper := inv.there _ there
  rw [UpperPresent, (path_eq_iff _ _).mpr (show pageOf (stackAdd stack).virt = pageOf v from
    page.symm)] at upper
  rw [inv.leaf_view (stackVirt_outside page) upper,
    lastAdd_unique there page.symm fun b inside same => only b inside (same.trans page)]
  rfl

theorem SegmentsAt.calls (placed : SegmentsAt r m ms [stackAdd stack] ps out places)
    (ok : ∀ p ∈ ps, SegmentOk ms me p) {b : Add}
    (inside : b ∈ [stackAdd stack] ++ places.flatMap fun q => q.1.adds q.2) :
    b = stackAdd stack ∨ ∃ q ∈ places, SegmentOk ms me q.1 ∧ ∃ t,
      4096 * t < q.1.memsz ∧ b = q.1.add q.2 t := by
  rcases List.mem_append.mp inside with first | inside
  · exact .inl (List.mem_singleton.mp first)
  · obtain ⟨q, there, inside⟩ := List.mem_flatMap.mp inside
    obtain ⟨t, range, rfl⟩ := List.mem_map.mp inside
    have okay : SegmentOk ms me q.1 := ok q.1
      (by rw [← placed.segs]; exact List.mem_map_of_mem there)
    have pages := okay.pages
    have short := List.mem_range'_1.mp range
    exact .inr ⟨q, there, okay, t, by omega, rfl⟩

theorem SegmentsAt.stack_view (placed : SegmentsAt r m ms [stackAdd stack] ps out places)
    (ok : ∀ p ∈ ps, SegmentOk ms me p) (page : pageOf v = pageOf stackVirt) :
    view (frames out.mem) r v = leafView (loaderLeaf stack false) := by
  obtain ⟨k, tables⟩ := placed.tables
  refine tables.stack_view List.mem_cons_self page fun b inside same => ?_
  rcases placed.calls ok inside with rfl | ⟨q, _, okay, t, short, rfl⟩
  · rfl
  · exact absurd same (pageOf_segment okay short).2

theorem SegmentsAt.segment_view (placed : SegmentsAt r m ms [stackAdd stack] ps out places)
    (ok : ∀ p ∈ ps, SegmentOk ms me p) (apart : ps.Pairwise Phdr.Off) (inside : p ∈ ps)
    (short : j < p.memsz) :
    ∃ x, view (frames out.mem) r (p.vaddr + j) = some x ∧ x.noExec = decide (p.flags % 2 = 0) ∧
      out.mem (4096 * x.frame + (p.vaddr + j) % 4096) =
        if j < p.filesz then m (ms + p.offset + j) else 0 := by
  obtain ⟨k, tables⟩ := placed.tables
  have okay := ok p inside
  have start := okay.start
  have pages := okay.pages
  have high := okay.high
  have below := okay.below
  rw [← placed.segs] at inside apart
  have far : places.Pairwise fun x y => x.1.Off y.1 := List.pairwise_map.mp apart
  have : Std.Symm fun x y : Phdr × Nat => x.1.Off y.1 := ⟨fun _ _ off a both => off a both.symm⟩
  obtain ⟨q, here, rfl⟩ := List.mem_map.mp inside
  obtain ⟨aligned, fits⟩ := placed.place q here
  have there : q.1.add q.2 (j / 4096) ∈
      [stackAdd stack] ++ places.flatMap fun q => q.1.adds q.2 := by
    refine List.mem_append_right _ (List.mem_flatMap.mpr ⟨q, here, List.mem_map_of_mem ?_⟩)
    exact List.mem_range'_1.mpr (by omega)
  have page : pageOf (q.1.add q.2 (j / 4096)).virt = pageOf (q.1.vaddr + j) := by
    show pageOf (q.1.vaddr + 4096 * (j / 4096)) = _
    unfold pageOf
    omega
  -- no other call is for this page
  have only : ∀ b ∈ [stackAdd stack] ++ places.flatMap fun q => q.1.adds q.2,
      pageOf b.virt = pageOf (q.1.vaddr + j) → b = q.1.add q.2 (j / 4096) := by
    intro b inside same
    rcases placed.calls ok inside with rfl | ⟨u, member, okay', t, short', rfl⟩
    · exact absurd same.symm (pageOf_segment okay short).2
    · by_cases eq : u = q
      · subst eq
        have : t = j / 4096 := by
          have same : pageOf (u.1.vaddr + 4096 * t) = pageOf (u.1.vaddr + j) := same
          unfold pageOf at same
          omega
        rw [this]
      · exact absurd same
          (pages_apart okay' okay (List.Pairwise.forall far member here eq) short' short)
  have outside : 2 ^ 30 ≤ (q.1.vaddr + j) % 2 ^ 48 := by omega
  have upper := tables.there _ there
  rw [UpperPresent, (path_eq_iff _ _).mpr page] at upper
  obtain ⟨f, frame⟩ : ∃ f, q.2 + 4096 * (j / 4096) = 4096 * f :=
    ⟨(q.2 + 4096 * (j / 4096)) / 4096, by omega⟩
  have bits := loaderLeaf_bits (show f < 2 ^ 20 by omega) (q.1.flags % 2 == 1)
  rw [tables.leaf_view outside upper, lastAdd_unique there page only]
  show ∃ x, leafView (loaderLeaf (q.2 + 4096 * (j / 4096)) (q.1.flags % 2 == 1)) = some x ∧ _
  rw [frame, leafView, if_pos bits.1]
  refine ⟨_, rfl, ?_, ?_⟩
  · show noExec _ = _
    rw [bits.2.2.2.1]
    have two : q.1.flags % 2 = 0 ∨ q.1.flags % 2 = 1 := by omega
    rcases two with even | odd
    · rw [even]; rfl
    · rw [odd]; rfl
  · show out.mem (4096 * hwFrame _ + _) = _
    rw [bits.2.2.2.2, ← placed.bytes q here j short]
    congr 1
    omega

end Image

section Load

variable {mem : Memory} {r stack ms me : Nat} {map : BootMap} {out : Loaded}

theorem boot_mapped (mem : Memory) (stack : Nat) (bound : r + 256 ≤ 2 ^ 20)
    (modOff : Clear ms me (4096 * r) (4096 * (r + 256))) :
    ∃ k, k ≤ 6 ∧ Mapped r k [stackAdd stack] (bootTables mem (4096 * r) stack) ∧
      Kept mem (bootTables mem (4096 * r) stack).mem ms me := by
  have init := init_tables mem r bound
  have start : bootTables mem (4096 * r) stack =
      (initPageStructure mem (4096 * r)).add (stackAdd stack) := rfl
  have more := (add_point_le (initPageStructure mem (4096 * r)) (stackAdd stack)).2
  rw [init.point] at more
  obtain ⟨⟨k, inv⟩, frame⟩ := init.add (a := stackAdd stack) bound
    (path_off_identity (stackVirt_outside rfl)) (by omega)
  rw [start]
  refine ⟨k, init.taken inv, inv, fun x low high => ?_⟩
  have out : x < 4096 * r ∨ 4096 * (r + 256) ≤ x := by rcases modOff with below | above <;> omega
  rw [frame x out, (init_frames mem r).2.2.2.2 x out]

theorem load_placed (bound : r + 256 ≤ 2 ^ 20) (headers : Headers mem ms me)
    (modOff : Clear ms me (4096 * r) (4096 * (r + 256)))
    (ok : ∀ p ∈ segments mem ms, SegmentOk ms me p) (apart : (segments mem ms).Pairwise Phdr.Off)
    (run : loadElf64Module map ms (bootTables mem (4096 * r) stack) = some out)
    (low : out.loadStart + spanSize mem ms ≤ 2 ^ 32)
    (off : Clear out.loadStart (out.loadStart + spanSize mem ms) ms me)
    (off' : Clear out.loadStart (out.loadStart + spanSize mem ms) (4096 * r) (4096 * (r + 256)))
    (fits : total (segments mem ms) / 4096 ≤ 83 ∨
      out.loader.pageFreePoint ≤ 4096 * (r + 256)) :
    ∃ places, SegmentsAt r mem ms [stackAdd stack] (segments mem ms) out.loader places := by
  obtain ⟨k, few, inv, kept⟩ := boot_mapped mem stack bound modOff
  generalize bootTables mem (4096 * r) stack = s at run inv kept
  obtain ⟨img, eq⟩ : ∃ img, img = loadSegments ms (2 ^ 16) 0 (firstPhdr s.mem ms)
    (findElf64PhysOrigin s.mem map (spanSize s.mem ms)) s := ⟨_, rfl⟩
  obtain ⟨loader, place⟩ : out.loader = img ∧
      out.loadStart = findElf64PhysOrigin s.mem map (spanSize s.mem ms) := by
    simp only [loadElf64Module, ← eq, Option.ite_none_right_eq_some, Option.some.injEq] at run
    rw [← run.2]
    exact ⟨rfl, rfl⟩
  have aligned := (findElf64PhysOrigin_place s.mem map (spanSize s.mem ms)).1
  have first : firstPhdr s.mem ms = phdrAddr mem ms 0 % 2 ^ 32 := by
    rw [firstPhdr, kept.phoff headers.header, phdrAddr, Nat.zero_mul, Nat.add_zero]
  have sum := total_le_spanSize headers ok apart
  have count : ePhnum mem ms < 2 ^ 16 := read_lt mem (ms + 56) 2
  rw [← place] at eq aligned
  rw [first] at eq
  rw [loader] at fits ⊢
  have tables : Fits r k (total (segmentsFrom mem ms 0 (ePhnum mem ms)) / 4096)
      (loadSegments ms (2 ^ 16) 0 (phdrAddr mem ms 0 % 2 ^ 32) out.loadStart s) := by
    rw [← eq]
    refine fits.imp (fun small => ?_) id
    have small : total (segmentsFrom mem ms 0 (ePhnum mem ms)) / 4096 ≤ 83 := small
    omega
  obtain ⟨placed, _⟩ := loadSegments_spec bound headers modOff inv kept (Nat.zero_add _) count ok
    aligned (Nat.add_le_add_left sum out.loadStart) low off off' tables
  rw [← eq] at placed
  exact placed

end Load

/-- The loaded segments, seen through the tables, and what was mapped before them. -/
theorem load_maps_segments (mem : Memory) (r stack : Nat) (bound : r + 256 ≤ 2 ^ 20)
    (map : BootMap) (ms me : Nat) (headers : Headers mem ms me)
    (modOff : Clear ms me (4096 * r) (4096 * r + 0x100000))
    (ok : ∀ p ∈ segments mem ms, SegmentOk ms me p) (apart : (segments mem ms).Pairwise Phdr.Off)
    (out : Loaded) (run : loadElf64Module map ms (bootTables mem (4096 * r) stack) = some out)
    (low : out.loadStart + spanSize mem ms ≤ 2 ^ 32)
    (off : Clear out.loadStart (out.loadStart + spanSize mem ms) ms me)
    (off' : Clear out.loadStart (out.loadStart + spanSize mem ms) (4096 * r) (4096 * r + 0x100000))
    (room : out.loader.pageFreePoint ≤ 4096 * r + 0x100000) :
    (∀ p ∈ segments mem ms, ∀ j < p.memsz,
      ∃ x, view (frames out.loader.mem) r (p.vaddr + j) = some x ∧
        x.noExec = decide (p.flags % 2 = 0) ∧
        out.loader.mem (4096 * x.frame + (p.vaddr + j) % 4096) =
          if j < p.filesz then mem (ms + p.offset + j) else 0) ∧
    ∀ v, v % 2 ^ 48 < 2 ^ 30 ∨ pageOf v = pageOf stackVirt →
      view (frames out.loader.mem) r v =
        view (frames (bootTables mem (4096 * r) stack).mem) r v := by
  rw [show 4096 * r + 0x100000 = 4096 * (r + 256) by omega] at modOff off' room
  obtain ⟨_, _, inv, _⟩ := boot_mapped mem stack bound modOff
  obtain ⟨places, placed⟩ := load_placed bound headers modOff ok apart run low off off' (.inr room)
  refine ⟨fun p inside j short => placed.segment_view ok apart inside short, fun v known => ?_⟩
  rcases known with identity | page
  · obtain ⟨_, tables⟩ := placed.tables
    rw [tables.identity_view bound identity, inv.identity_view bound identity]
  · rw [placed.stack_view ok page, inv.stack_view List.mem_cons_self page fun b inside _ =>
      List.mem_singleton.mp inside]

/- A module at 8 MiB with a page of code behind a page of data that is linked above it; four
bytes of the code are in the file. The only entry of the memory map begins at 16 MiB. -/
def tinyModule : List Nat :=
  [0x7f, 0x45, 0x4c, 0x46, 2, 1, 1, 0, 0, 0, 0, 0, 0, 0, 0, 0] ++
  [2, 0, 0x3e, 0, 1, 0, 0, 0] ++ [0, 0, 0, 0, 0, 0x80, 0xff, 0xff] ++ [64, 0, 0, 0, 0, 0, 0, 0] ++
  [0, 0, 0, 0, 0, 0, 0, 0] ++ [0, 0, 0, 0, 64, 0, 56, 0, 2, 0, 0, 0, 0, 0, 0, 0] ++
  [1, 0, 0, 0, 6, 0, 0, 0] ++ [0, 0, 0, 0, 0, 0, 0, 0] ++ [0, 0x10, 0, 0, 0, 0x80, 0xff, 0xff] ++
  [0, 0, 0, 0, 0, 0, 0, 0] ++ [0, 0, 0, 0, 0, 0, 0, 0] ++ [0, 0x10, 0, 0, 0, 0, 0, 0] ++
  [0, 0x10, 0, 0, 0, 0, 0, 0] ++
  [1, 0, 0, 0, 5, 0, 0, 0] ++ [0, 0, 0, 0, 0, 0, 0, 0] ++ [0, 0, 0, 0, 0, 0x80, 0xff, 0xff] ++
  [0, 0, 0, 0, 0, 0, 0, 0] ++ [4, 0, 0, 0, 0, 0, 0, 0] ++ [0, 0x10, 0, 0, 0, 0, 0, 0] ++
  [0, 0x10, 0, 0, 0, 0, 0, 0]

def tinyMap : List Nat :=
  [0, 0, 0, 1, 0, 0, 0, 0] ++ [0, 0, 0, 1, 0, 0, 0, 0] ++ [1, 0, 0, 0, 0, 0, 0, 0]

def tinyMem : Memory := fun x =>
  BitVec.ofNat 8 (if x < 0x800000 then tinyMap.getD (x - 0x9000) 0
    else tinyModule.getD (x - 0x800000) 0)

section Tiny

def tinyData : Phdr := ⟨1, 6, 0, 0xffff800000001000, 0, 0x1000⟩
def tinyCode : Phdr := ⟨1, 5, 0, 0xffff800000000000, 4, 0x1000⟩

theorem tiny_segments : segments tinyMem 0x800000 = [tinyData, tinyCode] := by decide

theorem tiny_size : spanSize tinyMem 0x800000 = 0x2000 := by decide

theorem tiny_headers : Headers tinyMem 0x800000 0x8000b0 := by
  refine ⟨by decide, by decide, fun i few => ?_⟩
  have two : ePhnum tinyMem 0x800000 = 2 := by decide
  have cases : i = 0 ∨ i = 1 := by omega
  rcases cases with rfl | rfl <;> decide

theorem tiny_off : tinyData.Off tinyCode := by
  rintro a ⟨⟨low, _⟩, _, high⟩
  simp only [tinyData, tinyCode] at low high
  omega

theorem tiny_module : Clear 0x800000 0x8000b0 (4096 * 0x200) (4096 * (0x200 + 256)) :=
  .inr (by decide)

theorem tiny_kept :
    Kept tinyMem (bootTables tinyMem (4096 * 0x200) 0x100000).mem 0x800000 0x8000b0 ∧
      Kept tinyMem (bootTables tinyMem (4096 * 0x200) 0x100000).mem 0x9000 (0x9000 + 20) := by
  obtain ⟨_, _, _, kept⟩ := boot_mapped tinyMem 0x100000 (show 0x200 + 256 ≤ 2 ^ 20 by decide)
    tiny_module
  have mapOff : Clear 0x9000 (0x9000 + 20) (4096 * 0x200) (4096 * (0x200 + 256)) :=
    .inl (by decide)
  obtain ⟨_, _, _, kept'⟩ := boot_mapped tinyMem 0x100000 (show 0x200 + 256 ≤ 2 ^ 20 by decide)
    mapOff
  exact ⟨kept, kept'⟩

theorem tiny_origin : findElf64PhysOrigin (bootTables tinyMem (4096 * 0x200) 0x100000).mem
    ⟨0x9000, 1, 0x900000⟩ (spanSize (bootTables tinyMem (4096 * 0x200) 0x100000).mem 0x800000) =
      0x1000000 := by
  obtain ⟨kept, kept'⟩ := tiny_kept
  generalize bootTables tinyMem (4096 * 0x200) 0x100000 = s at kept kept'
  have here : mmapOrigin tinyMem 0x900000 0x2000 0x9000 = some 0x1000000 := by decide
  rw [← mmapOrigin_congr kept'] at here
  rw [kept.spanSize tiny_headers, tiny_size]
  exact findElf64PhysOrigin_first (by decide) here

theorem tiny_accepted :
    headerOk (bootTables tinyMem (4096 * 0x200) 0x100000).mem 0x800000 = true := by
  rw [tiny_kept.1.headerOk tiny_headers.header]
  decide

end Tiny

theorem load_maps_segments_tiny :
    ∃ out, loadElf64Module ⟨0x9000, 1, 0x900000⟩ 0x800000
        (bootTables tinyMem (4096 * 0x200) 0x100000) = some out ∧
      ∃ x, view (frames out.loader.mem) 0x200 0xffff800000000000 = some x ∧ x.noExec = false ∧
        out.loader.mem (4096 * x.frame) = 0x7f := by
  have ok : ∀ p ∈ segments tinyMem 0x800000, SegmentOk 0x800000 0x8000b0 p := by
    rw [tiny_segments]
    intro p inside
    simp only [List.mem_cons, List.not_mem_nil, or_false] at inside
    rcases inside with rfl | rfl
    · exact ⟨by decide, by decide, by decide, by decide, by decide, by decide, by decide⟩
    · exact ⟨by decide, by decide, by decide, by decide, by decide, by decide, by decide⟩
  have apart : (segments tinyMem 0x800000).Pairwise Phdr.Off := by
    rw [tiny_segments]
    exact List.pairwise_pair.mpr tiny_off
  obtain ⟨out, run, start⟩ : ∃ out, loadElf64Module ⟨0x9000, 1, 0x900000⟩ 0x800000
      (bootTables tinyMem (4096 * 0x200) 0x100000) = some out ∧ out.loadStart = 0x1000000 := by
    have accepted := tiny_accepted
    have place := tiny_origin
    generalize bootTables tinyMem (4096 * 0x200) 0x100000 = s at *
    exact ⟨_, loadElf64Module_accepts accepted, place⟩
  have low : out.loadStart + spanSize tinyMem 0x800000 ≤ 2 ^ 32 := by rw [start, tiny_size]; decide
  have off : Clear out.loadStart (out.loadStart + spanSize tinyMem 0x800000) 0x800000 0x8000b0 :=
    .inr (by rw [start]; decide)
  have off' : Clear out.loadStart (out.loadStart + spanSize tinyMem 0x800000) (4096 * 0x200)
      (4096 * (0x200 + 256)) := .inr (by rw [start]; decide)
  have room : out.loader.pageFreePoint ≤ 4096 * 0x200 + 0x100000 := by
    obtain ⟨places, placed⟩ := load_placed (by decide) tiny_headers tiny_module ok apart run low off
      off' (.inl (by rw [tiny_segments]; decide))
    obtain ⟨k, tables⟩ := placed.tables
    have space := tables.space
    rw [tables.point]
    omega
  obtain ⟨x, view, exec, byte⟩ := (load_maps_segments tinyMem 0x200 0x100000 (by decide) _ _ _
    tiny_headers tiny_module ok apart out run low off off' room).1 tinyCode
    (by rw [tiny_segments]; simp) 0 (by decide)
  exact ⟨out, run, x, view, exec, byte.trans (by decide)⟩

end Gapxos
