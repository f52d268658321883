import Mathlib.Data.List.FinRange
import Gapxos.Lib.Spans
import Gapxos.Phys

/-! get_page_table_area: the range from the lowest to the highest page table under CR3. The
tables are read at their physical addresses. -/
namespace Gapxos
open Radix Spans

/-- The pointer that the code takes from an entry: bits 12 to 62, and bit 63 if one of the bits
56 to 59 is set. -/
def tablePtr (e : Word) : Word :=
  let ptr := e &&& 0x7ffffffffffff000#64
  if ptr &&& 0xf00000000000000#64 ≠ 0 then ptr ||| 0x8000000000000000#64 else ptr

/- One of the three nested loops, with those inside it. -/
def tableArea (mem : Mem) : Nat → Nat → Nat × Nat → Nat × Nat
  | 0, _, area => area
  | n + 1, table, area =>
    (List.finRange 512).foldl (fun area i =>
      let e := mem (table / 4096) i
      let ptr := (tablePtr e).toNat
      if ptr = 0 then area
      else if large e then area
      else tableArea mem n ptr (widen ptr area)) area

def getPageTableArea (mem : Mem) (pml4t : Nat) : Nat × Nat :=
  let area := tableArea mem 3 pml4t (pml4t, pml4t)
  (area.1, (area.2 + 0x1000) % 2 ^ 64)

/-- An entry that is zero, or present with bits 52 to 62 clear; it does not lead to frame 0. -/
structure PlainEntry (e : Word) : Prop where
  bits : e = 0 ∨ present e = true ∧ e.toNat / 2 ^ 52 % 2 ^ 11 = 0
  frame : child e ≠ some 0

/-- The entries of all tables but the last level's. -/
def PlainTables (mem : Mem) (n root : Nat) : Prop :=
  ∀ path f, path.length < n → tableAt child mem root path = some f → ∀ i, PlainEntry (mem f i)

section Entry

variable {e : Word}

theorem and_high_zero {x k : Nat} (low : x < 2 ^ 52) : x &&& 2 ^ 52 * k = 0 := by
  have upper : (x &&& 2 ^ 52 * k) / 2 ^ 52 = 0 := by
    rw [Nat.and_div_two_pow, Nat.div_eq_of_lt low, Nat.zero_and]
  have lower : (x &&& 2 ^ 52 * k) % 2 ^ 52 = 0 := by
    rw [Nat.and_mod_two_pow, Nat.mul_mod_right, Nat.and_zero]
  omega

theorem tablePtr_plain (plain : PlainEntry e) : (tablePtr e).toNat = 4096 * hwFrame e := by
  have masked : (e &&& 0x7ffffffffffff000#64).toNat = 4096 * hwFrame e := by
    have upper : (e &&& 0x7ffffffffffff000#64).toNat / 2 ^ 12 = e.toNat / 2 ^ 12 % 2 ^ 51 := by
      rw [BitVec.toNat_and, Nat.and_div_two_pow,
        show (0x7ffffffffffff000#64).toNat / 2 ^ 12 = 2 ^ 51 - 1 by decide,
        Nat.and_two_pow_sub_one_eq_mod]
    have lower : (e &&& 0x7ffffffffffff000#64).toNat % 2 ^ 12 = 0 := by
      rw [BitVec.toNat_and, Nat.and_mod_two_pow,
        show (0x7ffffffffffff000#64).toNat % 2 ^ 12 = 0 by decide, Nat.and_zero]
    have clear : e.toNat / 2 ^ 52 % 2 ^ 11 = 0 := by
      rcases plain.bits with rfl | ⟨_, clear⟩
      · rfl
      · exact clear
    rw [hwFrame]
    omega
  have low : hwFrame e < 2 ^ 40 := Nat.mod_lt _ (by decide)
  have kernel : (e &&& 0x7ffffffffffff000#64) &&& 0xf00000000000000#64 = 0 := by
    apply BitVec.eq_of_toNat_eq
    rw [BitVec.toNat_and, masked]
    exact and_high_zero (k := 0xf0) (by omega)
  rw [tablePtr, if_neg (not_not_intro kernel), masked]

theorem tablePtr_child (plain : PlainEntry e) :
    ((tablePtr e).toNat = 0 ∨ large e = true → child e = none) ∧
      ((tablePtr e).toNat ≠ 0 → large e = false →
        child e = some (hwFrame e) ∧ (tablePtr e).toNat = 4096 * hwFrame e) := by
  have ptr := tablePtr_plain plain
  constructor
  · rintro (zero | size)
    · cases next : child e with
      | none => rfl
      | some f =>
        obtain ⟨_, _, frame⟩ := child_eq_some.mp next
        have zero : f = 0 := by omega
        exact absurd (zero ▸ next) plain.frame
    · simp [child, size]
  · intro some size
    refine ⟨child_eq_some.mpr ⟨?_, size, rfl⟩, ptr⟩
    rcases plain.bits with rfl | ⟨there, _⟩
    · exact absurd (by decide) some
    · exact there

end Entry

/-- The tables under `root` that are at most `n` steps away, by their addresses. -/
def tablesBelow (mem : Mem) (n root : Nat) : Set Nat :=
  {x | ∃ path f, path ≠ [] ∧ path.length ≤ n ∧ tableAt child mem root path = some f ∧ x = 4096 * f}

def tablesThrough (mem : Mem) (n root : Nat) (i : Fin 512) : Set Nat :=
  {x | ∃ f, child (mem root i) = some f ∧ (x = 4096 * f ∨ x ∈ tablesBelow mem n f)}

section Scan

variable {mem : Mem} {n root : Nat} {i : Fin 512}

theorem tablesThrough_none (none : child (mem root i) = none) : tablesThrough mem n root i = ∅ := by
  ext x
  simp [tablesThrough, none]

theorem tablesThrough_some {f : Nat} (next : child (mem root i) = some f) :
    tablesThrough mem n root i = {4096 * f} ∪ tablesBelow mem n f := by
  ext x
  simp [tablesThrough, next]

theorem tablesBelow_zero (mem : Mem) (root : Nat) : tablesBelow mem 0 root = ∅ := by
  ext x
  constructor
  · rintro ⟨path, f, some, empty, _⟩
    exact some (List.length_eq_zero_iff.mp (Nat.le_zero.mp empty))
  · exact False.elim

theorem tablesBelow_succ (mem : Mem) (n root : Nat) : tablesBelow mem (n + 1) root =
    {x | ∃ i ∈ List.finRange 512, x ∈ tablesThrough mem n root i} := by
  ext x
  constructor
  · rintro ⟨path, g, some, short, reach, rfl⟩
    cases path with
    | nil => exact absurd rfl some
    | cons i path =>
      obtain ⟨f, next, rest⟩ := Option.bind_eq_some_iff.mp reach
      refine ⟨i, List.mem_finRange i, f, next, ?_⟩
      cases path with
      | nil =>
        cases Option.some.inj rest
        exact .inl rfl
      | cons j path =>
        exact .inr ⟨j :: path, g, by simp, by simpa using short, rest, rfl⟩
  · rintro ⟨i, _, f, next, rfl | ⟨path, g, some, short, reach, rfl⟩⟩
    · exact ⟨[i], f, by simp, by simp, by simp [tableAt, next], rfl⟩
    · exact ⟨i :: path, g, by simp, by simpa using short, by simp [tableAt, next, reach], rfl⟩

theorem PlainTables.next (plain : PlainTables mem (n + 1) root) {f : Nat}
    (next : child (mem root i) = some f) : PlainTables mem n f := by
  intro path g short reach
  exact plain (i :: path) g (by simpa using short) (by simp [tableAt, next, reach])

theorem tableArea_takes (plain : PlainTables mem n root) (area : Nat × Nat) :
    Takes (tablesBelow mem n root) area (tableArea mem n (4096 * root) area) := by
  induction n generalizing root area with
  | zero =>
    rw [tablesBelow_zero]
    exact takes_nothing area
  | succ n ih =>
    rw [tablesBelow_succ, tableArea, Nat.mul_div_cancel_left root (by decide)]
    apply takes_foldl
    intro area i
    have entry := tablePtr_child (plain [] root (Nat.succ_pos n) rfl i)
    dsimp only
    split
    · rename_i zero
      rw [tablesThrough_none (entry.1 (.inl zero))]
      exact takes_nothing area
    · rename_i some
      split
      · rename_i size
        rw [tablesThrough_none (entry.1 (.inr size))]
        exact takes_nothing area
      · rename_i size
        obtain ⟨next, ptr⟩ := entry.2 some (Bool.not_eq_true _ ▸ size)
        rw [ptr, tablesThrough_some next]
        exact (takes_widen _ area).trans (ih (plain.next next) _)

theorem tablesBelow_reached {x : Nat} (h : x = 4096 * root ∨ x ∈ tablesBelow mem n root) :
    ∃ path f, path.length ≤ n ∧ tableAt child mem root path = some f ∧ x = 4096 * f := by
  rcases h with same | ⟨path, f, _, short, reach, eq⟩
  · exact ⟨[], root, Nat.zero_le n, rfl, same⟩
  · exact ⟨path, f, short, reach, eq⟩

theorem tableAt_frame_lt {path : List (Fin 512)} {f : Nat} (low : root < 2 ^ 40)
    (reach : tableAt child mem root path = some f) : f < 2 ^ 40 := by
  induction path generalizing root with
  | nil =>
    cases Option.some.inj reach
    exact low
  | cons i path ih =>
    obtain ⟨g, next, rest⟩ := Option.bind_eq_some_iff.mp reach
    obtain ⟨_, _, rfl⟩ := child_eq_some.mp next
    exact ih (Nat.mod_lt _ (Nat.two_pow_pos 40)) rest

end Scan

/-- The range holds every table, and begins and ends with one. -/
theorem page_table_area (mem : Mem) (root : Nat) (low : root < 2 ^ 40)
    (plain : PlainTables mem 3 root) :
    let area := getPageTableArea mem (4096 * root)
    (∀ path f, path.length ≤ 3 → tableAt child mem root path = some f →
      area.1 ≤ 4096 * f ∧ 4096 * f + 4096 ≤ area.2) ∧
    (∃ path f, path.length ≤ 3 ∧ tableAt child mem root path = some f ∧ area.1 = 4096 * f) ∧
    ∃ path f, path.length ≤ 3 ∧ tableAt child mem root path = some f ∧
      area.2 = 4096 * f + 4096 := by
  have takes := tableArea_takes plain (4096 * root, 4096 * root)
  intro area
  obtain ⟨out, eq⟩ : ∃ out, out = tableArea mem 3 (4096 * root) (4096 * root, 4096 * root) :=
    ⟨_, rfl⟩
  have result : area = (out.1, (out.2 + 0x1000) % 2 ^ 64) := by
    rw [eq]
    rfl
  rw [← eq] at takes
  obtain ⟨path, f, short, reach, top⟩ := tablesBelow_reached takes.greatest
  have stop : (out.2 + 0x1000) % 2 ^ 64 = 4096 * f + 4096 := by
    have := tableAt_frame_lt low reach
    omega
  rw [result]
  refine ⟨fun path' g short' reach' => ?_, tablesBelow_reached takes.least, path, f, short, reach,
    stop⟩
  have held : out.1 ≤ 4096 * g ∧ 4096 * g ≤ out.2 := by
    cases path' with
    | nil =>
      cases Option.some.inj reach'
      exact ⟨takes.low, takes.high⟩
    | cons i path' => exact takes.holds _ ⟨i :: path', g, by simp, short', reach', rfl⟩
  exact ⟨held.1, by dsimp only; omega⟩

def scattered : Mem := fun f i =>
  if i = 0 then
    if f = 5 then 0x2003#64 else if f = 2 then 0x9003#64 else if f = 9 then 0x3003#64 else 0
  else 0

theorem page_table_area_scattered :
    (getPageTableArea scattered 0x5000).1 ≤ 0x2000 ∧
      0xa000 ≤ (getPageTableArea scattered 0x5000).2 := by
  have plain : ∀ f i, PlainEntry (scattered f i) := by
    intro f i
    have values : scattered f i = 0 ∨ scattered f i = 0x2003#64 ∨ scattered f i = 0x9003#64 ∨
        scattered f i = 0x3003#64 := by
      unfold scattered
      split
      · split
        · exact .inr (.inl rfl)
        · split
          · exact .inr (.inr (.inl rfl))
          · split
            · exact .inr (.inr (.inr rfl))
            · exact .inl rfl
      · exact .inl rfl
    rcases values with eq | eq | eq | eq <;> rw [eq] <;> exact ⟨by decide, by decide⟩
  obtain ⟨covers, -, -⟩ := page_table_area scattered 5 (by decide) fun _ f _ _ i => plain f i
  exact ⟨(covers [0] 2 (by decide) (by decide)).1, (covers [0, 0] 9 (by decide) (by decide)).2⟩

end Gapxos
