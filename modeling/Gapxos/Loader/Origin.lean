import Gapxos.Loader.Load

/-! Where find_elf64_phys_origin puts a module. It takes the first usable entry of the memory
map whose length is enough, after both ends were cut in wrapping arithmetic, and returns the
low 32 bits of the address. -/
namespace Gapxos
open Bytes

def pageUp (a : Nat) : Nat := (a + 4095) / 4096 * 4096

/-- The first page of an entry that is not below the minimum. -/
def entryOrigin (mem : Memory) (minElf64Addr entry : Nat) : Nat :=
  pageUp (max (read mem entry 8) minElf64Addr)

/-- The bytes from `p` on lie in the entry, and it is a usable one. -/
def InEntry (mem : Memory) (entry p size : Nat) : Prop :=
  read mem (entry + 16) 4 = 1 ∧ read mem entry 8 ≤ p ∧
    p + size ≤ read mem entry 8 + read mem (entry + 8) 8

instance (mem : Memory) (entry p size : Nat) : Decidable (InEntry mem entry p size) :=
  inferInstanceAs (Decidable (_ ∧ _ ∧ _))

structure OriginSafe (mem : Memory) (map : BootMap) (size p : Nat) : Prop where
  aligned : p % 4096 = 0
  above : map.minElf64Addr ≤ p
  inside : ∃ i < map.mmapEntryCount, InEntry mem (map.memoryMap + 24 * i) p size

theorem pageAlign_pageUp (range : Nat × Nat) :
    (pageAlign range).1 % 2 ^ 32 = pageUp range.1 % 2 ^ 32 := by
  simp only [pageAlign, pageUp]
  split
  · show (range.1 + (0x1000 - range.1 % 0x1000)) % 2 ^ 64 % 2 ^ 32 = _
    omega
  · omega

theorem signExtend_diff {d : Nat} (low : d < 2 ^ 32) :
    ((BitVec.ofNat 32 d).signExtend 64).toNat = d ∨
      ((BitVec.ofNat 32 d).signExtend 64).toNat = d + 2 ^ 64 - 2 ^ 32 := by
  simp only [BitVec.toNat_signExtend, BitVec.toNat_ofNat, BitVec.toNat_setWidth]
  split
  · exact .inr (by omega)
  · exact .inl (by omega)

/-- What is cut off below the minimum: an int, widened to 64 bits. -/
def entryCut (mem : Memory) (minElf64Addr entry : Nat) : Nat :=
  if read mem entry 8 < minElf64Addr
  then ((BitVec.ofNat 32 (minElf64Addr - read mem entry 8)).signExtend 64).toNat else 0

/-- A usable entry that seems large enough. That the cut at the first page boundary may be more
than is left of the length is not looked at. -/
def EntryOffers (mem : Memory) (minElf64Addr size entry : Nat) : Prop :=
  read mem (entry + 16) 4 = 1 ∧ entryCut mem minElf64Addr entry ≤ read mem (entry + 8) 8 ∧
    size ≤ (read mem (entry + 8) 8 - entryCut mem minElf64Addr entry + 2 ^ 64 -
      (entryOrigin mem minElf64Addr entry - max (read mem entry 8) minElf64Addr)) % 2 ^ 64

/-- The entry that find_elf64_phys_origin takes. -/
def FirstOffer (mem : Memory) (map : BootMap) (size i : Nat) : Prop :=
  i < map.mmapEntryCount ∧
    EntryOffers mem map.minElf64Addr size (map.memoryMap + 24 * i) ∧
    ∀ j < i, ¬ EntryOffers mem map.minElf64Addr size (map.memoryMap + 24 * j)

theorem pageAlign_length {range : Nat × Nat} (low : range.2 < 2 ^ 64) :
    (pageAlign range).2 = (range.2 + 2 ^ 64 - (pageUp range.1 - range.1)) % 2 ^ 64 := by
  simp only [pageAlign, pageUp]
  split
  · show (range.2 + 2 ^ 64 - (0x1000 - range.1 % 0x1000)) % 2 ^ 64 = _
    omega
  · omega

theorem mmapOrigin_iff {mem : Memory} {minAddr size entry p : Nat} (low : minAddr < 2 ^ 32) :
    mmapOrigin mem minAddr size entry = some p ↔
      EntryOffers mem minAddr size entry ∧ p = entryOrigin mem minAddr entry % 2 ^ 32 := by
  have lengthLt : read mem (entry + 8) 8 < 2 ^ 64 := read_lt mem (entry + 8) 8
  -- the base after the clip is right up to a multiple of 2^32
  have rounded : ∀ range : Nat × Nat, range.2 < 2 ^ 64 →
      (pageUp range.1 % 2 ^ 32 = entryOrigin mem minAddr entry % 2 ^ 32) →
      (pageUp range.1 - range.1 =
        entryOrigin mem minAddr entry - max (read mem entry 8) minAddr) →
      ((if size ≤ (pageAlign range).2 then some ((pageAlign range).1 % 2 ^ 32) else none) =
        some p ↔ size ≤ (range.2 + 2 ^ 64 - (entryOrigin mem minAddr entry -
          max (read mem entry 8) minAddr)) % 2 ^ 64 ∧
        p = entryOrigin mem minAddr entry % 2 ^ 32) := by
    intro range bound page pad
    rw [pageAlign_length bound, pageAlign_pageUp, page, pad]
    split <;> simp_all [eq_comm]
  simp only [mmapOrigin, EntryOffers, entryCut]
  by_cases usable : read mem (entry + 16) 4 = 1
  · by_cases below : read mem entry 8 < minAddr
    · simp only [usable, below, if_true, true_and]
      by_cases short : read mem (entry + 8) 8 <
          ((BitVec.ofNat 32 (minAddr - read mem entry 8)).signExtend 64).toNat
      · simp [short]
      · simp only [short, if_false, Nat.le_of_not_lt short, true_and]
        have wrap : ∀ d, d ≤ read mem (entry + 8) 8 →
            (read mem (entry + 8) 8 + 2 ^ 64 - d) % 2 ^ 64 = read mem (entry + 8) 8 - d := by
          intro d less
          omega
        rw [wrap _ (Nat.le_of_not_lt short)]
        apply rounded
        · exact Nat.lt_of_le_of_lt (Nat.sub_le _ _) lengthLt
        all_goals
          simp only [entryOrigin, pageUp, Nat.max_eq_right (Nat.le_of_lt below)]
          rcases signExtend_diff (d := minAddr - read mem entry 8) (by omega) with eq | eq <;>
            simp only [eq] <;> omega
    · simp only [usable, below, false_and, if_false, if_true, Nat.zero_le, true_and, Nat.sub_zero]
      have max_eq : max (read mem entry 8) minAddr = read mem entry 8 :=
        Nat.max_eq_left (Nat.le_of_not_lt below)
      apply rounded
      · exact lengthLt
      all_goals rw [entryOrigin, max_eq]
  · simp [usable]

/-- The entry has room from its first page on, and that page is below 4 GiB. -/
def EntryRoom (mem : Memory) (minElf64Addr size entry : Nat) : Prop :=
  entryOrigin mem minElf64Addr entry < 2 ^ 32 ∧
    entryOrigin mem minElf64Addr entry + size ≤ read mem entry 8 + read mem (entry + 8) 8

/-- The address is null, or a good place in an entry other than `i`. -/
def NullOrHeld (mem : Memory) (map : BootMap) (size i p : Nat) : Prop :=
  p = 0 ∨ map.minElf64Addr ≤ p ∧
    ∃ j < map.mmapEntryCount, j ≠ i ∧ InEntry mem (map.memoryMap + 24 * j) p size

theorem entryRoom_iff {mem : Memory} {minAddr entry : Nat} (size : Nat) (low : minAddr < 2 ^ 32)
    (usable : read mem (entry + 16) 4 = 1) :
    (minAddr ≤ entryOrigin mem minAddr entry % 2 ^ 32 ∧
      InEntry mem entry (entryOrigin mem minAddr entry % 2 ^ 32) size) ↔
    EntryRoom mem minAddr size entry := by
  simp only [InEntry, EntryRoom, entryOrigin, pageUp]
  constructor
  · rintro ⟨above, _, start, stop⟩
    omega
  · rintro ⟨small, room⟩
    exact ⟨by omega, usable, by omega, by omega⟩

theorem firstOffer_unique {mem : Memory} {map : BootMap} {size i j : Nat}
    (one : FirstOffer mem map size i) (other : FirstOffer mem map size j) : i = j := by
  rcases Nat.lt_trichotomy i j with less | eq | more
  · exact absurd one.2.1 (other.2.2 i less)
  · exact eq
  · exact absurd other.2.1 (one.2.2 j more)

theorem findElf64PhysOrigin_eq {mem : Memory} {map : BootMap} {size : Nat}
    (low : map.minElf64Addr < 2 ^ 32) :
    (∃ i, FirstOffer mem map size i ∧ findElf64PhysOrigin mem map size =
      entryOrigin mem map.minElf64Addr (map.memoryMap + 24 * i) % 2 ^ 32) ∨
    (∀ i, ¬ FirstOffer mem map size i) ∧ findElf64PhysOrigin mem map size = 0 := by
  unfold findElf64PhysOrigin FirstOffer
  cases found : (List.range map.mmapEntryCount).findSome? fun i =>
      mmapOrigin mem map.minElf64Addr size (map.memoryMap + 24 * i) with
  | none =>
    rw [List.findSome?_eq_none_iff] at found
    refine Or.inr ⟨?_, rfl⟩
    rintro i ⟨inside, offers, _⟩
    have none := found i (List.mem_range.mpr inside)
    rw [(mmapOrigin_iff low).mpr ⟨offers, rfl⟩] at none
    cases none
  | some base =>
    obtain ⟨before, i, after, list, here, skipped⟩ := List.findSome?_eq_some_iff.mp found
    have inside : i ∈ List.range map.mmapEntryCount := by simp [list]
    have place : before.length = i := by
      have at_i := congrArg (fun l => l[before.length]?) list
      simp only [List.getElem?_append_right (Nat.le_refl _), Nat.sub_self, List.getElem?_cons_zero,
        List.getElem?_eq_some_iff] at at_i
      obtain ⟨_, eq⟩ := at_i
      rw [← eq, List.getElem_range]
    have start : before = List.range i := by
      have cut := congrArg (List.take before.length) list
      rw [List.take_left, List.take_range, place,
        Nat.min_eq_left (Nat.le_of_lt (List.mem_range.mp inside))] at cut
      exact cut.symm
    obtain ⟨offers, page⟩ := (mmapOrigin_iff low).mp here
    refine Or.inl ⟨i, ⟨List.mem_range.mp inside, offers, fun j less offer => ?_⟩, page⟩
    have none := skipped j (start ▸ List.mem_range.mpr less)
    rw [(mmapOrigin_iff low).mpr ⟨offer, rfl⟩] at none
    cases none

theorem FirstOffer.safe_iff {mem : Memory} {map : BootMap} {size i p : Nat}
    (low : map.minElf64Addr < 2 ^ 32) (offer : FirstOffer mem map size i)
    (place : p = entryOrigin mem map.minElf64Addr (map.memoryMap + 24 * i) % 2 ^ 32)
    (aligned : p % 4096 = 0) :
    (p ≠ 0 → OriginSafe mem map size p) ↔
      EntryRoom mem map.minElf64Addr size (map.memoryMap + 24 * i) ∨
        NullOrHeld mem map size i p := by
  have own := entryRoom_iff size low offer.2.1.1
  rw [← place] at own
  constructor
  · intro safe
    by_cases zero : p = 0
    · exact Or.inr (Or.inl zero)
    · obtain ⟨_, above, j, inside, here⟩ := safe zero
      by_cases same : j = i
      · exact Or.inl (own.mp ⟨above, same ▸ here⟩)
      · exact Or.inr (Or.inr ⟨above, j, inside, same, here⟩)
  · intro room nonnull
    rcases room with room | zero | ⟨above, j, inside, _, here⟩
    · obtain ⟨above, here⟩ := own.mpr room
      exact ⟨aligned, above, i, offer.1, here⟩
    · exact absurd zero nonnull
    · exact ⟨aligned, above, j, inside, here⟩

/-- A result is right if the first offer has room, or by accident. -/
theorem elf64_origin_safe_iff (mem : Memory) (map : BootMap) (size : Nat)
    (low : map.minElf64Addr < 2 ^ 32) :
    (findElf64PhysOrigin mem map size ≠ 0 →
      OriginSafe mem map size (findElf64PhysOrigin mem map size)) ↔
    ∀ i, FirstOffer mem map size i →
      EntryRoom mem map.minElf64Addr size (map.memoryMap + 24 * i) ∨
        NullOrHeld mem map size i
          (entryOrigin mem map.minElf64Addr (map.memoryMap + 24 * i) % 2 ^ 32) := by
  rcases findElf64PhysOrigin_eq low with ⟨i, offer, place⟩ | ⟨never, null⟩
  · have here := offer.safe_iff low place (findElf64PhysOrigin_place mem map size).1
    rw [here, place]
    constructor
    · intro room j offer'
      obtain rfl : i = j := firstOffer_unique offer offer'
      exact room
    · intro room
      exact room i offer
  · constructor
    · intro _ i offer
      exact absurd offer (never i)
    · intro _ nonnull
      exact absurd null nonnull

/- A memory map of one usable entry, at 0x9000. -/
def oneEntry (base length : Nat) : Memory :=
  write (write (write (fun _ => 0) 0x9000 8 base) 0x9008 8 length) 0x9010 4 1

theorem elf64_origin_safe_low :
    OriginSafe (oneEntry 0x100000 0x4000) ⟨0x9000, 1, 0x100800⟩ 0x2000 0x101000 := by
  have result : findElf64PhysOrigin (oneEntry 0x100000 0x4000) ⟨0x9000, 1, 0x100800⟩ 0x2000 =
      0x101000 := by decide
  rw [← result]
  apply (elf64_origin_safe_iff (oneEntry 0x100000 0x4000) ⟨0x9000, 1, 0x100800⟩ 0x2000
    (by decide)).mpr
  · rintro i ⟨inside, _⟩
    obtain rfl : i = 0 := Nat.lt_one_iff.mp inside
    exact Or.inl ⟨by decide, by decide⟩
  · decide

/-- An entry that ends before its first page boundary, and one above 4 GiB. -/
theorem elf64_origin_outside :
    (findElf64PhysOrigin (oneEntry 0x100800 0x100) ⟨0x9000, 1, 0x100000⟩ 0x2000 = 0x101000 ∧
      ¬ OriginSafe (oneEntry 0x100800 0x100) ⟨0x9000, 1, 0x100000⟩ 0x2000 0x101000) ∧
    (findElf64PhysOrigin (oneEntry 0x100001000 0x100000) ⟨0x9000, 1, 0x100000⟩ 0x2000 = 0x1000 ∧
      ¬ OriginSafe (oneEntry 0x100001000 0x100000) ⟨0x9000, 1, 0x100000⟩ 0x2000 0x1000) := by
  refine ⟨⟨by decide, fun safe => ?_⟩, by decide, fun safe => absurd safe.above (by decide)⟩
  obtain ⟨i, inside, here⟩ := safe.inside
  obtain rfl : i = 0 := Nat.lt_one_iff.mp inside
  exact absurd here (by decide)

end Gapxos
