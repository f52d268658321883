import Gapxos.Gdt.Table

/-! What the GDTR shows of the table while TSS entries are added. It is loaded at the end of
gdt_init and whenever the table grows, and its limit has 16 bits. -/
namespace Gapxos
open Bytes

/-- A call of gdt_add_tss, with what malloc gives for the TSS and for a larger table. -/
structure TssCall where
  tss : Alloc
  table : Alloc
  intStack : Nat

/-- The selectors so far, and the table. -/
def addTss (x : List Nat × Gdt) (c : TssCall) : List Nat × Gdt :=
  let (selector, s) := gdtAddTss c.tss c.table c.intStack x.2
  (x.1 ++ [selector], s)

/-- The GDTR is that of the table and covers the 8 bytes of every selector. -/
def GdtrCovers (x : List Nat × Gdt) : Prop :=
  x.2.gdtr.base = x.2.base ∧ ∀ selector ∈ x.1, selector + 7 ≤ x.2.gdtr.limit

/-- A table of `n` entries that grew last for entry number 2^k + 1. -/
structure GdtLoaded (n k : Nat) (x : List Nat × Gdt) : Prop where
  entries : x.2.entries = n
  size : x.2.allocatedSize = 2 ^ (k + 4)
  grown : 2 ^ k < n
  room : n ≤ 2 ^ (k + 1)
  gdtr : x.2.gdtr = ⟨x.2.base, 8 * (2 ^ k + 1) % 2 ^ 16⟩
  selectors : x.1 = (List.range n).map (8 * ·)

section Step

variable {n k : Nat} {x : List Nat × Gdt} {c : TssCall}

theorem addTss_fields (x : List Nat × Gdt) (c : TssCall) :
    (addTss x c).1 = x.1 ++ [((countEntry c.table x.2).entries + (2 ^ 64 - 1)) % 2 ^ 64 *
        gdtEntrySize % 2 ^ 64] ∧
      (addTss x c).2.entries = (countEntry c.table x.2).entries ∧
      (addTss x c).2.allocatedSize = (countEntry c.table x.2).allocatedSize ∧
      (addTss x c).2.base = (countEntry c.table x.2).base ∧
      (addTss x c).2.gdtr = (countEntry c.table x.2).gdtr := by
  have fine : ∀ base, GdtEntry.rejected ⟨base, tssSize - 1, 0b10001001⟩ = false := fun _ => rfl
  simp only [addTss, gdtAddTss, addEntry, fine, Bool.false_eq_true, if_false, countEntry]
  by_cases full : x.2.allocatedSize / gdtEntrySize = x.2.entries
  · simp only [if_pos full, and_self]
  · simp only [if_neg full, and_self]

theorem GdtLoaded.next (loaded : GdtLoaded n k x) (few : n < 2 ^ 16) :
    ∃ k, GdtLoaded (n + 1) k (addTss x c) := by
  obtain ⟨entries, size, grown, room, gdtr, selectors⟩ := loaded
  obtain ⟨log', entries', size', base', gdtr'⟩ := addTss_fields x c
  have next : (x.2.entries + 1) % 2 ^ 64 = n + 1 := by omega
  have double : 2 ^ (k + 4) = 8 * 2 ^ (k + 1) := by
    rw [Nat.pow_add, Nat.pow_add]
    omega
  have counted : (countEntry c.table x.2).entries = n + 1 := by
    unfold countEntry
    split <;> exact next
  have listed : (addTss x c).1 = (List.range (n + 1)).map (8 * ·) := by
    rw [log', counted, selectors, List.range_succ, List.map_append]
    unfold gdtEntrySize
    simp only [List.map_cons, List.map_nil, List.append_cancel_left_eq, List.cons.injEq, and_true]
    omega
  by_cases full : x.2.allocatedSize / gdtEntrySize = x.2.entries
  · have is : n = 2 ^ (k + 1) := by
      unfold gdtEntrySize at full
      omega
    rw [countEntry, if_pos full] at size' base' gdtr'
    have small : n + 1 ≤ 2 ^ 16 := few
    refine ⟨k + 1, entries'.trans counted, ?_, by omega, ?_, ?_, listed⟩
    · rw [size']
      show x.2.allocatedSize * 2 % 2 ^ 64 = _
      rw [Nat.add_right_comm, Nat.pow_succ]
      omega
    · rw [Nat.pow_succ]
      omega
    · rw [gdtr', base']
      show reloadGdt _ ((x.2.entries + 1) % 2 ^ 64 * gdtEntrySize % 2 ^ 64) = _
      rw [next, ← is, reloadGdt, gdtEntrySize,
        Nat.mod_eq_of_lt (show (n + 1) * 8 < 2 ^ 64 by omega),
        Nat.mul_comm]
  · rw [countEntry, if_neg full] at size' base' gdtr'
    have less : n ≠ 2 ^ (k + 1) := by
      unfold gdtEntrySize at full
      omega
    refine ⟨k, entries'.trans counted, size'.trans size, by omega, by omega, ?_, listed⟩
    rw [gdtr', base']
    exact gdtr

theorem GdtLoaded.run (loaded : GdtLoaded n k x) (calls : List TssCall)
    (few : n + calls.length ≤ 2 ^ 16) :
    ∃ k, GdtLoaded (n + calls.length) k (calls.foldl addTss x) := by
  induction calls generalizing n k x with
  | nil => exact ⟨k, loaded⟩
  | cons c calls ih =>
    rw [List.length_cons] at few
    obtain ⟨k', next⟩ := loaded.next (c := c) (by omega)
    have rest := ih next (by omega)
    rw [Nat.add_assoc, Nat.add_comm 1] at rest
    exact rest

theorem GdtLoaded.covers (loaded : GdtLoaded n k x) (few : n ≤ 2 ^ 13) :
    GdtrCovers x ↔ n = 2 ^ k + 1 := by
  obtain ⟨_, _, grown, room, gdtr, selectors⟩ := loaded
  have low : k < 13 := (Nat.pow_lt_pow_iff_right (by decide)).mp (Nat.lt_of_lt_of_le grown few)
  have half : 2 ^ k ≤ 2 ^ 12 := Nat.pow_le_pow_right (by decide) (Nat.le_of_lt_succ low)
  rw [GdtrCovers, gdtr, selectors]
  constructor
  · intro covers
    have last := covers.2 (8 * (n - 1)) (List.mem_map_of_mem (List.mem_range.mpr (by omega)))
    dsimp only at last
    omega
  · intro at_
    refine ⟨rfl, fun selector listed => ?_⟩
    obtain ⟨i, below, rfl⟩ := List.mem_map.mp listed
    have := List.mem_range.mp below
    dsimp only
    omega

/- What a call never does: it takes no selector back, and no limit has more than 16 bits. -/
theorem addTss_keeps (selector : Nat) (x : List Nat × Gdt) (calls : List TssCall)
    (listed : selector ∈ x.1) (small : x.2.gdtr.limit < 2 ^ 16) :
    selector ∈ (calls.foldl addTss x).1 ∧ (calls.foldl addTss x).2.gdtr.limit < 2 ^ 16 := by
  induction calls generalizing x with
  | nil => exact ⟨listed, small⟩
  | cons c calls ih =>
    obtain ⟨log, _, _, _, gdtr⟩ := addTss_fields x c
    apply ih
    · rw [log]
      exact List.mem_append_left _ listed
    · rw [gdtr, countEntry]
      split
      · exact Nat.mod_lt _ (by decide)
      · exact small

end Step

theorem gdtInit_loaded (table : Alloc) (given : Fin 5 → Alloc) (mem : Memory) (gdtr : Gdtr) :
    GdtLoaded 5 2 (gdtInit table given (Gdt.initial mem gdtr)) := by
  constructor <;> simp [gdtInit, addEntry, countEntry, GdtEntry.rejected, Gdt.initial,
    gdtEntrySize, reloadGdt, List.range_succ]

theorem GdtLoaded.tooMany {n k : Nat} {x : List Nat × Gdt} {calls : List TssCall}
    (loaded : GdtLoaded n k x) (few : n ≤ 2 ^ 13) (many : 2 ^ 13 < n + calls.length) :
    ¬GdtrCovers (calls.foldl addTss x) := by
  have parts := List.take_append_drop (2 ^ 13 + 1 - n) calls
  have taken : (calls.take (2 ^ 13 + 1 - n)).length = 2 ^ 13 + 1 - n := by
    rw [List.length_take]
    omega
  obtain ⟨k', after⟩ := loaded.run (calls.take (2 ^ 13 + 1 - n)) (by omega)
  have listed : 8 * 2 ^ 13 ∈ ((calls.take (2 ^ 13 + 1 - n)).foldl addTss x).1 := by
    rw [after.selectors]
    exact List.mem_map_of_mem (List.mem_range.mpr (by omega))
  have small : ((calls.take (2 ^ 13 + 1 - n)).foldl addTss x).2.gdtr.limit < 2 ^ 16 := by
    rw [after.gdtr]
    exact Nat.mod_lt _ (by decide)
  obtain ⟨still, limit⟩ := addTss_keeps _ _ (calls.drop (2 ^ 13 + 1 - n)) listed small
  rw [← List.foldl_append, parts] at still limit
  intro covers
  have := covers.2 _ still
  omega

theorem gdtr_covers_iff (table : Alloc) (given : Fin 5 → Alloc) (mem : Memory) (gdtr : Gdtr)
    (calls : List TssCall) :
    GdtrCovers (calls.foldl addTss (gdtInit table given (Gdt.initial mem gdtr))) ↔
      ∃ k ≤ 12, calls.length + 4 = 2 ^ k := by
  have loaded := gdtInit_loaded table given mem gdtr
  rcases Nat.lt_or_ge (2 ^ 13) (5 + calls.length) with many | few
  · refine iff_of_false (loaded.tooMany (by decide) many) ?_
    rintro ⟨k, low, count⟩
    have : 2 ^ k ≤ 2 ^ 12 := Nat.pow_le_pow_right (by decide) low
    omega
  · obtain ⟨k, after⟩ := loaded.run calls (by omega)
    rw [after.covers few]
    constructor
    · intro grown
      have low : k < 13 := (Nat.pow_lt_pow_iff_right (by decide)).mp
        (Nat.lt_of_lt_of_le after.grown few)
      exact ⟨k, Nat.le_of_lt_succ low, by omega⟩
    · rintro ⟨j, _, count⟩
      -- the count lies between 2^k and 2^(k + 1)
      have low : k ≤ j := by
        apply (Nat.pow_le_pow_iff_right (show 1 < 2 by decide)).mp
        have := after.grown
        omega
      have high : j < k + 1 := by
        apply (Nat.pow_lt_pow_iff_right (show 1 < 2 by decide)).mp
        have := after.room
        omega
      obtain rfl : j = k := by omega
      omega

def heapAt (block : Nat) : Alloc := ⟨block, id, id⟩

def oneTss : List Nat × Gdt :=
  [⟨heapAt 0x3000, heapAt 0, 0x8000⟩].foldl addTss
    (gdtInit (heapAt 0x1000) (fun _ => heapAt 0x2000) (Gdt.initial (fun _ => 0) ⟨0, 0⟩))

/-- The first TSS has selector 40, and so has the limit. -/
theorem first_tss_uncovered :
    oneTss.1 = [0, 8, 16, 24, 32, 40] ∧ oneTss.2.gdtr = ⟨0x2000, 40⟩ ∧ ¬GdtrCovers oneTss := by
  have selectors : oneTss.1 = [0, 8, 16, 24, 32, 40] := by
    simp [oneTss, addTss, gdtAddTss, gdtInit, addEntry, countEntry, GdtEntry.rejected,
      Gdt.initial, gdtEntrySize, tssSize]
  have gdtr : oneTss.2.gdtr = ⟨0x2000, 40⟩ := by
    simp [oneTss, addTss, gdtAddTss, gdtInit, addEntry, countEntry, GdtEntry.rejected,
      Gdt.initial, gdtEntrySize, tssSize, reloadGdt, heapAt]
  refine ⟨selectors, gdtr, fun covers => ?_⟩
  have last := covers.2 40 (by rw [selectors]; decide)
  rw [gdtr] at last
  exact absurd last (by decide)

end Gapxos
