import Gapxos.Pmm.InMemory
import Gapxos.Lib.Runs

/-! pmm.c on the bytes of memory, from kernel_main on: the loader's tables map what it touches at
its own addresses, and none of its writes changes the tables that do so. -/
namespace Gapxos
open Bytes Radix WordArray
open Translated (Steady Own eqOn_write)

/-- What the kernel does with pages once the allocator runs: calls of it, and stores of a byte. -/
inductive PmmUse
  | call (c : PmmCall)
  | store (a : Nat) (b : BitVec 8)

/- The model, with the pages that calls of pmm_alloc_page gave, in order. A store is into a page
that is held. -/
def PmmUse.step (s : Ledger × List Nat) : PmmUse → Option (Ledger × List Nat)
  | .call .alloc => (PmmCall.alloc.step s.1).map fun l => (l, s.2 ++ [(pmmAllocPage s.1.phys).1])
  | .call (.free addr) => ((PmmCall.free addr).step s.1).map fun l => (l, s.2)
  | .store a _ => if ∃ page ∈ s.1.held, page ≤ a ∧ a < page + 4096 then some s else none

/- The calls go through the tables at `pml4t`. A store changes the byte at a physical address,
wherever its page is mapped. -/
def PmmUse.bytes (pml4t : Nat) (s : PmmBytes × List Nat) : PmmUse → Option (PmmBytes × List Nat)
  | .call .alloc => (s.1.allocPage pml4t).map fun r => (r.2, s.2 ++ [r.1])
  | .call (.free addr) => (s.1.freePage pml4t addr).map fun t => (t, s.2)
  | .store a b => some ({ s.1 with mem := write s.1.mem a 1 b.toNat }, s.2)

/- The array is the stack of the ledger, of which no page meets the memory of the array, and the
same pages were given. -/
structure Arrayed (safe room : Nat) (W : Set Nat) (mem₀ : Memory) (s : Ledger × List Nat)
    (t : PmmBytes × List Nat) : Prop where
  place : t.1.freePages = safe
  stack : words t.1.mem safe t.1.freeIndex = s.1.phys.freePages
  given : t.2 = s.2
  fits : 8 * s.1.pages.length ≤ room
  beside : ∀ page ∈ s.1.pages, page < 2 ^ 64 ∧ (page + 4096 ≤ safe ∨ safe + room ≤ page) ∧
    Set.Ico page (page + 4096) ⊆ W
  kept : Set.EqOn t.1.mem mem₀ Wᶜ

section Uses

variable {root safe room : Nat} {W : Set Nat} {mem₀ : Memory} {s s' : Ledger × List Nat}
  {t : PmmBytes × List Nat}

theorem Arrayed.index (now : Arrayed safe room W mem₀ s t) :
    t.1.freeIndex = s.1.phys.freePages.length ∧
      s.1.phys.freePages.length + s.1.held.length = s.1.pages.length := by
  rw [← now.stack, words_length, Ledger.pages, List.length_append, ← now.stack, words_length]
  exact ⟨rfl, Nat.add_comm _ _⟩

theorem Arrayed.less (now : Arrayed safe room W mem₀ s t) {l : Ledger}
    (less : l.pages.Subperm s.1.pages) :
    8 * l.pages.length ≤ room ∧ ∀ page ∈ l.pages, page < 2 ^ 64 ∧
      (page + 4096 ≤ safe ∨ safe + room ≤ page) ∧ Set.Ico page (page + 4096) ⊆ W := by
  have count := less.length_le
  have fits := now.fits
  exact ⟨by omega, fun page inside => now.beside page (less.subset inside)⟩

theorem Arrayed.answer (now : Arrayed safe room W mem₀ s t)
    (ground : Grounds root safe room W mem₀) :
    ∃ u, t.1.allocPage (4096 * root) = some ((pmmAllocPage s.1.phys).1, u) ∧
      u.freePages = safe ∧ u.mem = t.1.mem ∧
      words u.mem safe u.freeIndex = (pmmAllocPage s.1.phys).2.freePages := by
  obtain ⟨index, count⟩ := now.index
  have fits := now.fits
  rw [PmmBytes.allocPage, pmmAllocPage, now.place, ← now.stack]
  cases size : t.1.freeIndex with
  | zero =>
    rw [if_neg (fun some => some rfl)]
    refine ⟨t.1, rfl, now.place, rfl, ?_⟩
    rw [size]
    rfl
  | succ n =>
    have taken := ground.load now.kept (a := safe + 8 * n) (n := 8) (by omega) (by omega)
    rw [if_pos (Nat.succ_ne_zero n), words_succ, List.getLast?_concat, List.dropLast_concat,
      Nat.add_sub_cancel, taken]
    exact ⟨_, rfl, rfl, rfl, rfl⟩

theorem Arrayed.alloc (now : Arrayed safe room W mem₀ s t)
    (ground : Grounds root safe room W mem₀) (step : PmmUse.step s (.call .alloc) = some s') :
    ∃ t', PmmUse.bytes (4096 * root) t (.call .alloc) = some t' ∧
      Arrayed safe room W mem₀ s' t' := by
  rw [PmmUse.step] at step
  obtain ⟨l, made, rfl⟩ := Option.map_eq_some_iff.mp step
  obtain ⟨fits, beside⟩ := now.less (step_pages made)
  have phys : l.phys = (pmmAllocPage s.1.phys).2 :=
    (congrArg Ledger.phys (Option.some.inj made)).symm
  obtain ⟨u, eq, place, same, left⟩ := now.answer ground
  refine ⟨(u, t.2 ++ [(pmmAllocPage s.1.phys).1]), ?_, place, ?_, ?_, fits, beside, ?_⟩
  · rw [PmmUse.bytes, eq, Option.map_some]
  · rw [phys]
    exact left
  · rw [now.given]
  · dsimp only
    rw [same]
    exact now.kept

theorem Arrayed.free (now : Arrayed safe room W mem₀ s t)
    (ground : Grounds root safe room W mem₀) {addr : Nat}
    (step : PmmUse.step s (.call (.free addr)) = some s') :
    ∃ t', PmmUse.bytes (4096 * root) t (.call (.free addr)) = some t' ∧
      Arrayed safe room W mem₀ s' t' := by
  rw [PmmUse.step] at step
  obtain ⟨l, made, rfl⟩ := Option.map_eq_some_iff.mp step
  obtain ⟨fits, beside⟩ := now.less (step_pages made)
  simp only [PmmCall.step] at made
  split at made
  · rename_i held
    obtain rfl := Option.some.inj made
    obtain ⟨index, count⟩ := now.index
    have room := now.fits
    have some_held := List.length_pos_of_mem held.2
    have small := (now.beside addr (List.mem_append_left _ held.2)).1
    obtain ⟨stored, kept⟩ := PmmBytes.store_own ground.steady now.kept
      (ground.part (a := safe + 8 * t.1.freeIndex) (n := 8) (by omega) (by omega)) addr
    refine ⟨({ t.1 with
      mem := write t.1.mem (safe + 8 * t.1.freeIndex) 8 addr
      freeIndex := t.1.freeIndex + 1 }, t.2), ?_, now.place, ?_, now.given, fits, beside, kept⟩
    · rw [PmmUse.bytes, PmmBytes.freePage, now.place, stored]
      rfl
    · dsimp only
      rw [words_push t.1.mem safe t.1.freeIndex small, now.stack]
      rfl
  · cases made

theorem Arrayed.store (now : Arrayed safe room W mem₀ s t) {a : Nat} {b : BitVec 8}
    (step : PmmUse.step s (.store a b) = some s') :
    ∃ t', PmmUse.bytes (4096 * root) t (.store a b) = some t' ∧
      Arrayed safe room W mem₀ s' t' := by
  simp only [PmmUse.step] at step
  split at step
  · rename_i held
    obtain rfl := Option.some.inj step
    obtain ⟨page, held, low, high⟩ := held
    obtain ⟨-, off, inside⟩ := now.beside page (List.mem_append_left _ held)
    obtain ⟨index, count⟩ := now.index
    have fits := now.fits
    refine ⟨_, rfl, now.place, ?_, now.given, now.fits, now.beside, ?_⟩
    · rw [← now.stack]
      apply words_congr
      intro x above below
      apply write_other
      dsimp only at below
      omega
    · apply eqOn_write now.kept
      rintro x ⟨above, below⟩
      exact inside ⟨by omega, by omega⟩
  · cases step

theorem arrayed_step (ground : Grounds root safe room W mem₀) (s : Ledger × List Nat)
    (t : PmmBytes × List Nat) (u : PmmUse) (s' : Ledger × List Nat)
    (now : Arrayed safe room W mem₀ s t) (step : u.step s = some s') :
    ∃ t', u.bytes (4096 * root) t = some t' ∧ Arrayed safe room W mem₀ s' t' := by
  cases u with
  | call c =>
    cases c with
    | alloc => exact now.alloc ground step
    | free addr => exact now.free ground step
  | store a b => exact now.store step

end Uses

/-- What pmm_init touches is mapped at its own address by the tables that the loader left: the
memory of the stack, the memory map, the PML4 and the pages that are drawn for tables. -/
structure IdentityMap (mem : Memory) (root : Nat) (info : MbInfo) (b : Booted) : Prop where
  stack : ∀ a, b.safe ≤ a → a < b.safe + b.required → AtSelf (frames mem) root a
  map : ∀ a, info.map ≤ a → a < info.map + 24 * info.count → AtSelf (frames mem) root a
  pml4 : AtSelf (frames mem) root (4096 * root)
  drawn : ∀ page ∈ candidates b.mmap b.unsafeRanges, page ∉ b.pmm.ledger.pages →
    AtSelf (frames mem) root page

/-- The bytes that may change: the array, the pages that were found free, and the slots of the
direct map. -/
def Booted.changing (b : Booted) (root : Nat) : Set Nat :=
  {x | b.safe ≤ x ∧ x < b.safe + (b.required - 1) ∨
    (∃ page ∈ candidates b.mmap b.unsafeRanges, page ≤ x ∧ x < page + 4096) ∨
    4096 * root + 8 * 384 ≤ x ∧ x < 4096 * root + 8 * 511}

section Boot

variable {mem : Memory} {root : Nat} {args : KernelArgs} {b : Booted} {info : MbInfo}
  {e : MmapEntry}

theorem linear_self {a : Nat} :
    linear (4096 * root) mem a = some a ↔ AtSelf (frames mem) root a := by
  rw [linear, AtSelf, Nat.mul_div_cancel_left root (by decide), Option.map_eq_some_iff]
  constructor
  · rintro ⟨f, found, place⟩
    rw [found, show f = a / 4096 by omega]
  · intro found
    exact ⟨a / 4096, found, by omega⟩

theorem linear_page {k : Nat} (small : k < 2 ^ 40) (self : AtSelf (frames mem) root (4096 * k))
    {x : Nat} (low : 4096 * k ≤ x) (high : x < 4096 * k + 4096) :
    linear (4096 * root) mem x = some x := by
  rw [linear_self, AtSelf, reached_within small low high, self]
  congr 1
  omega

theorem Chosen.clear (chosen : Chosen b.mmap b.fixed b.required b.safe e)
    (ranges : FixedRanges b.fixed) (large : 1 < b.required) {r : MemoryRange}
    (inside : r ∈ b.fixed) :
    b.safe + (b.required - 1) ≤ r.start.toNat ∨ r.stop.toNat ≤ b.safe := by
  have long := ranges.long r inside
  exact (MemoryRange.off_iff (by omega)).mp (chosen.off ranges (by omega) inside) (by omega)

theorem Chosen.table_clear (chosen : Chosen b.mmap b.fixed b.required b.safe e)
    (ranges : FixedRanges b.fixed) (large : 1 < b.required) (low : root < 2 ^ 40)
    (plain : PlainTables (frames mem) 3 root)
    (fixed : b.fixed = fixedRanges mem (4096 * root) args info) {path : List (Fin 512)} {f : Nat}
    (short : path.length ≤ 3) (reach : tableAt child (frames mem) root path = some f) :
    Beside b.safe (b.required - 1) f := by
  obtain ⟨r, inside, covers⟩ := tables_range low plain args info
  have held := covers path f short reach
  have off := chosen.clear ranges large (fixed ▸ inside)
  unfold Beside
  omega

theorem Chosen.map_clear (chosen : Chosen b.mmap b.fixed b.required b.safe e)
    (ranges : FixedRanges b.fixed) (large : 1 < b.required)
    (array : info.map + 24 * info.count < 2 ^ 64)
    (fixed : b.fixed = fixedRanges mem (4096 * root) args info) :
    info.map + 24 * info.count ≤ b.safe ∨ b.safe + (b.required - 1) ≤ info.map := by
  have off := chosen.clear ranges large
    (r := ⟨UInt64.ofNat info.map, UInt64.ofNat (info.map + 24 * info.count)⟩)
    (by simp [fixed, fixedRanges])
  rw [UInt64.toNat_ofNat_of_lt' (show info.map < 2 ^ 64 by omega),
    UInt64.toNat_ofNat_of_lt' array] at off
  omega

/- Neither the array nor a free page is a table, and a slot of the direct map was not present. -/
theorem Chosen.entry_still (chosen : Chosen b.mmap b.fixed b.required b.safe e)
    (usable : UsableMap b.mmap) (ranges : FixedRanges b.fixed) (large : 1 < b.required)
    (low : root < 2 ^ 40) (plain : PlainTables (frames mem) 3 root)
    (slots : ∀ i : Fin 512, 384 ≤ i.val → i.val ≤ 510 → present (frames mem root i) = false)
    (fixed : b.fixed = fixedRanges mem (4096 * root) args info) {path : List (Fin 512)} {f : Nat}
    {i : Fin 512} (short : path.length ≤ 3)
    (reach : tableAt child (frames mem) root path = some f)
    (there : present (frames mem f i) = true) {x : Nat} (above : 4096 * f + 8 * i ≤ x)
    (below : x < 4096 * f + 8 * i + 8) : x ∉ b.changing root := by
  rintro (inArray | ⟨page, free, first, last⟩ | inSlot)
  · have off := chosen.table_clear ranges large low plain fixed short reach
    unfold Beside at off
    omega
  · obtain ⟨k, -, rfl⟩ := candidates_frame usable free
    rw [Booted.unsafeRanges, fixed] at free
    have other := candidate_no_table low plain free short reach
    omega
  · obtain rfl : f = root := by omega
    rw [slots i (by omega) (by omega)] at there
    cases there

theorem Chosen.steady (chosen : Chosen b.mmap b.fixed b.required b.safe e)
    (usable : UsableMap b.mmap) (ranges : FixedRanges b.fixed) (large : 1 < b.required)
    (low : root < 2 ^ 40) (plain : PlainTables (frames mem) 3 root)
    (slots : ∀ i : Fin 512, 384 ≤ i.val → i.val ≤ 510 → present (frames mem root i) = false)
    (fixed : b.fixed = fixedRanges mem (4096 * root) args info) :
    Steady (linear (4096 * root)) (b.changing root) mem := by
  intro m same a self
  rw [linear_self, AtSelf, reached] at self ⊢
  split at self
  · rename_i form
    have kept : trace child (frames m) root (path a) = trace child (frames mem) root (path a) := by
      apply trace_along
      intro q i r f split reach
      have short : q.length ≤ 3 := by
        have count := congrArg List.length split
        rw [path_length, List.length_append, List.length_cons] at count
        omega
      have there := walk_present self split reach
      have entry : read m (4096 * f + 8 * i) 8 = read mem (4096 * f + 8 * i) 8 := by
        apply read_congr
        intro x above below
        exact same (chosen.entry_still usable ranges large low plain slots fixed short reach there
          above below)
      rw [frames, frames, word, word, entry]
    rw [if_pos form, walk, kept]
    exact self
  · cases self

theorem Chosen.grounds (chosen : Chosen b.mmap b.fixed b.required b.safe e)
    (usable : UsableMap b.mmap) (ranges : FixedRanges b.fixed) (large : 1 < b.required)
    (low : root < 2 ^ 40) (plain : PlainTables (frames mem) 3 root)
    (slots : ∀ i : Fin 512, 384 ≤ i.val → i.val ≤ 510 → present (frames mem root i) = false)
    (fixed : b.fixed = fixedRanges mem (4096 * root) args info)
    (ident : IdentityMap mem root info b) :
    PagingGrounds root b.safe (b.required - 1) (b.changing root) mem := by
  have stop := chosen.stop
  have width := usable.width e (List.mem_filter.mpr ⟨chosen.inside, chosen.used⟩)
  have short : ([] : List (Fin 512)).length ≤ 3 := Nat.zero_le 3
  have top := chosen.table_clear ranges large low plain fixed short rfl
  refine ⟨⟨chosen.steady usable ranges large low plain slots fixed, ?_⟩, by omega,
    top, ?_⟩
  · rintro x ⟨above, below⟩
    exact ⟨.inl ⟨above, below⟩, linear_self.mpr (ident.stack x above (by omega))⟩
  · rintro x ⟨above, below⟩
    exact ⟨.inr (.inr ⟨above, below⟩), linear_page low ident.pml4 (by omega) (by omega)⟩

theorem Chosen.candidate_beside (chosen : Chosen b.mmap b.fixed b.required b.safe e)
    (usable : UsableMap b.mmap) (large : 1 < b.required) {page : Nat}
    (free : page ∈ candidates b.mmap b.unsafeRanges) (apart : ¬ Overlaps page b.stackRange) :
    ∃ k < 2 ^ 40, page = 4096 * k ∧ Beside b.safe (b.required - 1) k := by
  obtain ⟨first, last⟩ := chosen.range usable
  obtain ⟨k, small, rfl⟩ := candidates_frame usable free
  refine ⟨k, small, rfl, ?_⟩
  unfold Beside
  by_contra meets
  refine apart ⟨max (4096 * k) b.safe, by omega, by omega, ?_⟩
  rw [isInRange_iff, Booted.stackRange, first, last]
  omega

theorem Chosen.candidate_fit (chosen : Chosen b.mmap b.fixed b.required b.safe e)
    (usable : UsableMap b.mmap) (large : 1 < b.required) (low : root < 2 ^ 40)
    (plain : PlainTables (frames mem) 3 root)
    (fixed : b.fixed = fixedRanges mem (4096 * root) args info)
    {page : Nat} (free : page ∈ candidates b.mmap b.unsafeRanges)
    (apart : ¬ Overlaps page b.stackRange) (self : AtSelf (frames mem) root page) :
    ∃ k < 2 ^ 40, page = 4096 * k ∧
      Fit root b.safe (b.required - 1) (b.changing root) mem k := by
  obtain ⟨k, small, rfl, beside⟩ := chosen.candidate_beside usable large free apart
  refine ⟨k, small, rfl, beside, fun same => ?_, ?_⟩
  · rw [Booted.unsafeRanges, fixed] at free
    have short : ([] : List (Fin 512)).length ≤ 3 := Nat.zero_le 3
    exact candidate_no_table low plain free short rfl (congrArg (4096 * ·) same)
  · rintro x ⟨above, below⟩
    exact ⟨.inr (.inl ⟨_, free, above, below⟩), linear_page small self above below⟩

/-- A page of the stack's own memory is not free, so that the array has a word to spare. -/
theorem Chosen.spare (chosen : Chosen b.mmap b.fixed b.required b.safe e)
    (usable : UsableMap b.mmap) (large : 8192 ≤ b.required) :
    (candidates b.mmap b.unsafeRanges).length < capacity b.mmap := by
  obtain ⟨first, last⟩ := chosen.range usable
  have start := chosen.start
  have stop := chosen.stop
  have whole : WholePage e ((b.safe + 4095) / 4096 * 4096) := by
    refine ⟨?_, ?_, ?_⟩ <;> omega
  have free : (b.safe + 4095) / 4096 * 4096 ∈ candidates b.mmap [] := by
    apply (candidates_iff usable).mpr
    exact ⟨⟨e, chosen.inside, chosen.used, whole⟩, fun range none => absurd none List.not_mem_nil⟩
  have own : (b.safe + 4095) / 4096 * 4096 ∉ candidates b.mmap b.unsafeRanges := by
    intro inside
    have off := candidate_free inside b.stackRange (by simp [Booted.unsafeRanges])
    rw [Booted.stackRange] at off
    have here := (isInRange_iff ((b.safe + 4095) / 4096 * 4096) (stackRange b.safe b.required)).mpr
      (by omega)
    rw [off] at here
    cases here
  have all : (b.safe + 4095) / 4096 * 4096 :: candidates b.mmap b.unsafeRanges ⊆
      candidates b.mmap [] := by
    intro page inside
    rcases List.mem_cons.mp inside with rfl | inside
    · exact free
    · have entry := ((candidates_iff usable).mp inside).1
      exact (candidates_iff usable).mpr ⟨entry, fun range none => absurd none List.not_mem_nil⟩
  have distinct := List.nodup_cons.mpr ⟨own, candidates_nodup usable⟩
  have below := (List.subperm_of_subset distinct all).length_le
  rw [List.length_cons] at below
  exact Nat.lt_of_lt_of_le below (candidates_length usable)

end Boot

/-- From kernel_main on, the allocator may keep its stack inside of the memory that it manages and
reach all of it through the tables: as long as these map what pmm_init touches at its own address
and no free page meets the memory that kernel_main chose, pmm_init and every later sequence of
calls, with any stores into pages that are held, behave as if the stack were apart. -/
theorem pmm_bytes_refine (mem : Memory) (root : Nat) (args : KernelArgs) (b : Booted)
    (tags : List Nat) (info : MbInfo)
    (walk : interpretMultiboot mem args.mbStructure = some (tags, info))
    (boot : kernelMain mem (4096 * root) args = some (.systemMain b)) (usable : UsableMap b.mmap)
    (ranges : FixedRanges b.fixed) (memory : 1024 ≤ capacity b.mmap)
    (array : info.map + 24 * info.count < 2 ^ 64) (low : root < 2 ^ 40)
    (plain : PlainTables (frames mem) 3 root)
    (slots : ∀ i : Fin 512, 384 ≤ i.val → i.val ≤ 510 → present (frames mem root i) = false)
    (height : maxAddr b.mmap ≤ 127 * 2 ^ 39) (ident : IdentityMap mem root info b)
    (apart : ∀ page ∈ candidates b.mmap b.unsafeRanges, ¬ Overlaps page b.stackRange) :
    ∃ s, PmmBytes.init (4096 * root) mem b.safe info.map info.count b.unsafeRanges = some s ∧
      words s.mem b.safe s.freeIndex = b.pmm.phys.freePages ∧ s.apLowPage = b.pmm.apLowPage ∧
      ∀ uses l given, Runs.run PmmUse.step (b.pmm.ledger, []) uses = some (l, given) →
        ∃ s', Runs.run (PmmUse.bytes (4096 * root)) (s, []) uses = some (s', given) ∧
          words s'.mem b.safe s'.freeIndex = l.phys.freePages := by
  obtain ⟨tags', info', walk', entries, fixed, -, -, -, init⟩ := kernelMain_steps boot
  obtain ⟨rfl, rfl⟩ := Prod.mk.inj (Option.some.inj (walk.symm.trans walk'))
  obtain ⟨room, e, chosen⟩ := kernelMain_chosen boot usable ranges.ends
  have large : 1 < b.required := by omega
  have ground := chosen.grounds usable ranges large low plain slots fixed ident
  have map := chosen.map_clear ranges large array fixed
  have self : ∀ x, info.map ≤ x → x < info.map + 24 * info.count →
      linear (4096 * root) mem x = some x :=
    fun x above below => linear_self.mpr (ident.map x above below)
  have free := fun page inside gone => chosen.candidate_fit usable large low plain fixed inside
    (apart page inside) (ident.drawn page inside gone)
  have fits : 8 * (candidates b.mmap b.unsafeRanges).length ≤ b.required - 1 := by
    have spare := chosen.spare usable (by omega)
    omega
  have built : ∃ s, PmmBytes.init (4096 * root) mem b.safe info.map info.count b.unsafeRanges =
      some s ∧ InMemory b.safe (b.required - 1) (b.changing root) mem s b.pmm := by
    rw [entries] at usable height fits free init
    exact pmmInit_bytes usable ground fits map self free slots height init
  obtain ⟨s, made, here⟩ := built
  have none : b.pmm.ledger.run [] = some b.pmm.ledger := rfl
  have pages := kernelMain_pages boot none
  have start :
      Arrayed b.safe (b.required - 1) (b.changing root) mem (b.pmm.ledger, []) (s, []) := by
    refine ⟨here.place, here.stack, rfl, ?_, fun page inside => ?_, here.kept⟩
    · have := pages.length_le
      dsimp only
      omega
    · have candidate := pages.subset inside
      obtain ⟨k, small, rfl, beside⟩ := chosen.candidate_beside usable large candidate
        (apart _ candidate)
      exact ⟨by omega, beside, fun x within => .inr (.inl ⟨_, candidate, within⟩)⟩
  refine ⟨s, made, here.stack, here.low, fun uses l given run => ?_⟩
  obtain ⟨⟨s', given'⟩, run', final⟩ :=
    Runs.run_follows (arrayed_step ground.toGrounds) start run
  obtain rfl := final.given
  exact ⟨s', run', final.stack⟩

theorem kernelMemory_self {a : Nat} (low : a < 2 ^ 30) :
    AtSelf (frames kernelMemory) 5 a := by
  have top : Fin.ofNat 512 (a / 2 ^ 39) = 0 := by
    rw [Nat.div_eq_of_lt (by omega)]
    rfl
  have next : Fin.ofNat 512 (a / 2 ^ 30) = 0 := by
    rw [Nat.div_eq_of_lt low]
    rfl
  have first : frames kernelMemory 5 0 = 0x6003#64 := kernelMemory_frames (by decide) 0
  have second : frames kernelMemory 6 0 = 0x83#64 := kernelMemory_frames (by decide) 0
  have large : child 0x83#64 = none := by decide
  have table : child 0x6003#64 = some 6 := by decide
  have entries : trace child (frames kernelMemory) 5 (path a) = [0x6003#64, 0x83#64] := by
    simp only [path, top, next, trace, first, second, table, large]
  have leaf : translate a [0x6003#64, 0x83#64] = some (0 + a / 4096 % 2 ^ 18) := rfl
  rw [AtSelf, reached, if_pos (.inl (by omega)), walk, entries, leaf]
  congr 1
  omega

theorem kernelMemory_identity {b : Booted} (usable : UsableMap b.mmap)
    (entries : b.mmap = [⟨0x100000, 0x800000, 1⟩]) (safe : b.safe = 0x100000)
    (required : b.required = 0x4000) : IdentityMap kernelMemory 5 kernelInfo b := by
  constructor
  case stack =>
    intro a _ below
    exact kernelMemory_self (by omega)
  case map =>
    intro a _ below
    have place : kernelInfo.map + 24 * kernelInfo.count = 0x9030 := rfl
    exact kernelMemory_self (by omega)
  case pml4 => exact kernelMemory_self (by decide)
  case drawn =>
    intro page free _
    obtain ⟨⟨e, inside, -, -, -, high⟩, -⟩ := (candidates_iff usable).mp free
    rw [entries, List.mem_singleton] at inside
    subst inside
    have ends : (⟨0x100000, 0x800000, 1⟩ : MmapEntry).baseAddr.toNat +
      (⟨0x100000, 0x800000, 1⟩ : MmapEntry).length.toNat = 0x900000 := by decide
    exact kernelMemory_self (by omega)

theorem pmm_bytes_refine_eight :
    ∃ b s, kernelMain kernelMemory (4096 * 5) kernelArgs = some (.systemMain b) ∧
      PmmBytes.init (4096 * 5) kernelMemory 0x100000 0x9018 1 b.unsafeRanges = some s ∧
      ∀ uses l given, Runs.run PmmUse.step (b.pmm.ledger, []) uses = some (l, given) →
        ∃ s', Runs.run (PmmUse.bytes (4096 * 5)) (s, []) uses = some (s', given) ∧
          words s'.mem 0x100000 s'.freeIndex = l.phys.freePages := by
  obtain ⟨b, boot, entries, fixed, safe⟩ := kernelMain_returns kernelMemory_walk
    kernelMemory_bootable
  have ready := kernelMemory_bootable
  have mmap : b.mmap = [⟨0x100000, 0x800000, 1⟩] := entries.trans kernelMemory_mmap
  have usable : UsableMap b.mmap := mmap ▸ kernelMemory_usable
  have ranges : FixedRanges b.fixed := by
    rw [fixed, kernelMemory_fixed]
    exact kernelMemory_ranges
  have memory : 1024 ≤ capacity b.mmap := mmap ▸ (by decide)
  have height : maxAddr b.mmap ≤ 127 * 2 ^ 39 := mmap ▸ (by decide)
  obtain ⟨room, -⟩ := kernelMain_chosen boot usable ranges.ends
  have required : b.required = 0x4000 := room.trans (mmap ▸ (by decide))
  have apart : ∀ page ∈ candidates b.mmap b.unsafeRanges, ¬ Overlaps page b.stackRange := by
    intro page free meets
    have off := candidate_free free b.stackRange (by simp [Booted.unsafeRanges])
    obtain ⟨k, -, rfl⟩ := candidates_frame usable free
    have inside := (overlaps_iff off).mp meets
    have start : b.stackRange.start.toNat = 0x100000 := by
      rw [Booted.stackRange, stackRange, safe]
      rfl
    rw [StartsInside, start] at inside
    omega
  obtain ⟨s, made, -, -, runs⟩ := pmm_bytes_refine kernelMemory 5 kernelArgs b _ kernelInfo
    kernelMemory_walk boot usable ranges memory (by decide) ready.low ready.plain ready.slots height
    (kernelMemory_identity usable mmap safe required) apart
  rw [safe] at made runs
  exact ⟨b, s, boot, made, runs⟩

end Gapxos
