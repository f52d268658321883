import Gapxos.Pmm.Scan
import Mathlib.Logic.Relation
import Mathlib.Tactic.IntervalCases
import Mathlib.Tactic.FinCases

/-! The search for memory for the stack of free pages, check_memory_bounds. A pointer walks up
a usable region and counts the bytes since the last unsafe range; where it is inside a range it
goes on behind the end of that. -/
namespace Gapxos

/-- The range that the pointer is inside of. Its first byte does not count. -/
def insideOf (unsafeRanges : List MemoryRange) (ptr : Nat) : Option MemoryRange :=
  unsafeRanges.find? fun r => r.start.toNat < ptr ∧ ptr < r.stop.toNat

/- The loop with its passes. The increments of `ptr` and `count` come after a jump too. -/
def boundsLoop (unsafeRanges : List MemoryRange) (checkEnd reqSize : Nat) :
    Nat → Nat → Nat → Option Nat
  | 0, _, _ => none
  | passes + 1, ptr, count =>
    if ptr < checkEnd then
      if reqSize ≤ count then some ((ptr + 2 ^ 64 - count) % 2 ^ 64)
      else match insideOf unsafeRanges ptr with
        | some r => boundsLoop unsafeRanges checkEnd reqSize passes ((r.stop.toNat + 1) % 2 ^ 64) 1
        | none => boundsLoop unsafeRanges checkEnd reqSize passes ((ptr + 1) % 2 ^ 64)
          ((count + 1) % 2 ^ 64)
    else some 0

/-- There are 2^128 values of `ptr` and `count`: with more passes the loop never ends. -/
def checkMemoryBounds (base len reqSize : Nat) (unsafeRanges : List MemoryRange) : Option Nat :=
  boundsLoop unsafeRanges ((base + len) % 2 ^ 64) reqSize (2 ^ 128) base 0

/-- No byte from `p` on is in the range. -/
def MemoryRange.Off (r : MemoryRange) (p size : Nat) : Prop :=
  ∀ a, p ≤ a → a < p + size → isInRange a r = false

/-- A place in the region that shares no byte with an unsafe range. -/
structure SafePlace (base len reqSize : Nat) (unsafeRanges : List MemoryRange) (p : Nat) :
    Prop where
  start : base ≤ p
  stop : p + reqSize ≤ base + len
  off : ∀ r ∈ unsafeRanges, r.Off p reqSize

theorem MemoryRange.off_iff {r : MemoryRange} {p size : Nat} (pos : 0 < size) :
    r.Off p size ↔ r.start.toNat < r.stop.toNat →
      p + size ≤ r.start.toNat ∨ r.stop.toNat ≤ p := by
  simp only [MemoryRange.Off, isInRange, Bool.and_eq_false_iff, decide_eq_false_iff_not]
  constructor
  · intro off some
    have first := off p (Nat.le_refl p) (by omega)
    rcases Nat.lt_or_ge r.start.toNat p with below | above
    · omega
    · by_contra meets
      have here := off r.start.toNat above (by omega)
      omega
  · intro off a low high
    omega

/-- What the loop knows of the place that it has begun to count: the bytes behind the first one
are inside of no range. -/
structure Cleared (base reqSize : Nat) (unsafeRanges : List MemoryRange) (ptr count : Nat) :
    Prop where
  few : count ≤ reqSize
  start : base + count ≤ ptr
  clear : ∀ a, ptr < a + count → a < ptr → insideOf unsafeRanges a = none

section Loop

variable {base len reqSize ptr count : Nat} {unsafeRanges : List MemoryRange}

theorem insideOf_none {a : Nat} :
    insideOf unsafeRanges a = none ↔
      ∀ r ∈ unsafeRanges, ¬ (r.start.toNat < a ∧ a < r.stop.toNat) := by
  simp [insideOf, List.find?_eq_none]

theorem insideOf_some {a : Nat} {r : MemoryRange} (hit : insideOf unsafeRanges a = some r) :
    r ∈ unsafeRanges ∧ r.start.toNat < a ∧ a < r.stop.toNat := by
  have inside := List.mem_of_find?_eq_some hit
  have here := List.find?_some hit
  simp only [decide_eq_true_eq] at here
  exact ⟨inside, here⟩

theorem Cleared.jump (counted : Cleared base reqSize unsafeRanges ptr count) {r : MemoryRange}
    (hit : insideOf unsafeRanges ptr = some r) (more : count < reqSize) :
    Cleared base reqSize unsafeRanges (r.stop.toNat + 1) 1 := by
  obtain ⟨_, _, below⟩ := insideOf_some hit
  have start := counted.start
  exact ⟨by omega, by omega, fun a low high => absurd low (by omega)⟩

theorem Cleared.next (counted : Cleared base reqSize unsafeRanges ptr count)
    (miss : insideOf unsafeRanges ptr = none) (more : count < reqSize) :
    Cleared base reqSize unsafeRanges (ptr + 1) (count + 1) := by
  have start := counted.start
  refine ⟨more, by omega, fun a low high => ?_⟩
  rcases Nat.lt_or_eq_of_le (Nat.le_of_lt_succ high) with before | rfl
  · exact counted.clear a (by omega) before
  · exact miss

theorem SafePlace.behind {p : Nat} (place : SafePlace base len reqSize unsafeRanges p)
    (after : ptr ≤ p + count) {r : MemoryRange} (hit : insideOf unsafeRanges ptr = some r)
    (more : count < reqSize) : r.stop.toNat ≤ p := by
  obtain ⟨inside, above, below⟩ := insideOf_some hit
  have off := (MemoryRange.off_iff (Nat.zero_lt_of_lt more)).mp (place.off r inside) (by omega)
  omega

/- The induction is on the passes, of which there are enough: the pointer only goes up. -/
theorem boundsLoop_spec (len : Nat) {checkEnd : Nat} (bound : checkEnd < 2 ^ 64)
    (size : reqSize < 2 ^ 64) (ends : ∀ r ∈ unsafeRanges, r.stop.toNat + 1 < 2 ^ 64) {passes : Nat}
    (left : 0 < passes) (counted : Cleared base reqSize unsafeRanges ptr count)
    (enough : checkEnd < ptr + passes) :
    ∃ q, boundsLoop unsafeRanges checkEnd reqSize passes ptr count = some q ∧
      (q ≠ 0 → Cleared base reqSize unsafeRanges (q + reqSize) reqSize ∧
        q + reqSize < checkEnd) ∧
      ∀ p, SafePlace base len reqSize unsafeRanges p → ptr ≤ p + count →
        p + reqSize < checkEnd → 0 < base → q ≠ 0 := by
  induction passes generalizing ptr count with
  | zero => omega
  | succ passes ih =>
    have few := counted.few
    have start := counted.start
    by_cases within : ptr < checkEnd
    · simp only [boundsLoop, if_pos within]
      by_cases found : reqSize ≤ count
      · obtain rfl : count = reqSize := Nat.le_antisymm few found
        have result : (ptr + 2 ^ 64 - count) % 2 ^ 64 = ptr - count := by omega
        have whole : ptr - count + count = ptr := by omega
        simp only [Nat.le_refl, if_true, result]
        refine ⟨ptr - count, rfl, fun _ => ?_, fun p _ _ _ positive => by omega⟩
        rw [whole]
        exact ⟨counted, within⟩
      · have more : count < reqSize := Nat.lt_of_not_le found
        simp only [if_neg found]
        cases hit : insideOf unsafeRanges ptr with
        | some r =>
          obtain ⟨inside, above, below⟩ := insideOf_some hit
          have fits := ends r inside
          have wrap : (r.stop.toNat + 1) % 2 ^ 64 = r.stop.toNat + 1 := Nat.mod_eq_of_lt fits
          simp only [wrap]
          obtain ⟨q, eq, good, complete⟩ := ih (by omega) (counted.jump hit more) (by omega)
          refine ⟨q, eq, good, fun p place after room => complete p place ?_ room⟩
          have := place.behind after hit more
          omega
        | none =>
          have wrap : (ptr + 1) % 2 ^ 64 = ptr + 1 := Nat.mod_eq_of_lt (by omega)
          have wrap' : (count + 1) % 2 ^ 64 = count + 1 := Nat.mod_eq_of_lt (by omega)
          simp only [wrap, wrap']
          obtain ⟨q, eq, good, complete⟩ := ih (by omega) (counted.next hit more) (by omega)
          exact ⟨q, eq, good, fun p place after room => complete p place (by omega) room⟩
    · simp only [boundsLoop, if_neg within]
      refine ⟨0, rfl, fun no => absurd rfl no, fun p _ after room => ?_⟩
      omega

theorem checkMemoryBounds_spec (base len reqSize : Nat) (unsafeRanges : List MemoryRange)
    (region : base + len < 2 ^ 64) (size : reqSize < 2 ^ 64)
    (ends : ∀ r ∈ unsafeRanges, r.stop.toNat + 1 < 2 ^ 64) :
    ∃ q, checkMemoryBounds base len reqSize unsafeRanges = some q ∧
      (q ≠ 0 → Cleared base reqSize unsafeRanges (q + reqSize) reqSize ∧
        q + reqSize < base + len) ∧
      ∀ p, SafePlace base len reqSize unsafeRanges p → p + reqSize < base + len → 0 < base →
        q ≠ 0 := by
  have counted : Cleared base reqSize unsafeRanges base 0 :=
    ⟨Nat.zero_le _, Nat.le_refl _, fun a low high => absurd low (by omega)⟩
  rw [checkMemoryBounds, Nat.mod_eq_of_lt region]
  obtain ⟨q, eq, good, complete⟩ := boundsLoop_spec len region size ends
    (show 0 < 2 ^ 128 by decide) counted (by omega)
  exact ⟨q, eq, good, fun p place => complete p place place.start⟩

end Loop

/-- The ways in which a range can meet the bytes from `p` on unseen: it is a single byte, it
begins with their last byte, or it has the first one, at which the pointer came by a jump. -/
def MemoryRange.Missed (r : MemoryRange) (p size : Nat) : Prop :=
  r.start.toNat < r.stop.toNat ∧
    (r.stop.toNat = r.start.toNat + 1 ∧ p ≤ r.start.toNat ∧ r.start.toNat < p + size ∨
      r.start.toNat + 1 = p + size ∨
      r.start.toNat < p ∧ p < r.stop.toNat ∧ (r.stop.toNat = p + 1 ∨ size = 1))

/- The clear bytes are those behind the first one. -/
theorem MemoryRange.off_iff_missed {p size : Nat} {unsafeRanges : List MemoryRange}
    (pos : 0 < size) (clear : ∀ a, p < a → a < p + size → insideOf unsafeRanges a = none)
    {r : MemoryRange} (inside : r ∈ unsafeRanges) : r.Off p size ↔ ¬ r.Missed p size := by
  rw [MemoryRange.off_iff pos, MemoryRange.Missed]
  -- the byte behind the first one of the range, and the one behind `p`
  have outside : ∀ a, p < a → a < p + size → ¬ (r.start.toNat < a ∧ a < r.stop.toNat) :=
    fun a low high => insideOf_none.mp (clear a low high) r inside
  have second := outside (r.start.toNat + 1)
  have next := outside (p + 1)
  omega

section Starts

variable (base len : Nat) (unsafeRanges : List MemoryRange)

/-- A count starts at the base of the region, or behind the range that the base is inside of. -/
def FirstStart (c : Nat) : Prop :=
  0 < len ∧ match insideOf unsafeRanges base with
    | none => c = base
    | some r => c = r.stop.toNat

/-- The next start is the end of the range that the first byte above is inside of. -/
def NextStart (c next : Nat) : Prop :=
  ∃ a r, c < a ∧ a < base + len ∧ (∀ x, c < x → x < a → insideOf unsafeRanges x = none) ∧
    insideOf unsafeRanges a = some r ∧ next = r.stop.toNat

/-- The addresses of a layout at which a count starts, whatever size is asked for. -/
def Starts (c : Nat) : Prop :=
  ∃ c₀, FirstStart base len unsafeRanges c₀ ∧
    Relation.ReflTransGen (NextStart base len unsafeRanges) c₀ c

/-- The bytes from `c` on end before the region does, and those behind the first one are inside
of no range. -/
structure FitsFrom (reqSize c : Nat) : Prop where
  room : c + reqSize < base + len
  clear : ∀ a, c < a → a < c + reqSize → insideOf unsafeRanges a = none

structure LowestFit (reqSize p : Nat) : Prop where
  starts : Starts base len unsafeRanges p
  fits : FitsFrom base len unsafeRanges reqSize p
  lowest : ∀ c, Starts base len unsafeRanges c → FitsFrom base len unsafeRanges reqSize c → p ≤ c

/-- No count starts at the last address, behind which the pointer wraps, unless something fits
below it. -/
def StartsBelow (reqSize : Nat) : Prop :=
  Starts base len unsafeRanges (2 ^ 64 - 1) →
    ∃ p, Starts base len unsafeRanges p ∧ FitsFrom base len unsafeRanges reqSize p

end Starts

section Places

variable {base len reqSize c : Nat} {unsafeRanges : List MemoryRange}

theorem NextStart.lt {next : Nat} (step : NextStart base len unsafeRanges c next) : c < next := by
  obtain ⟨a, r, above, _, _, hit, rfl⟩ := step
  obtain ⟨_, _, below⟩ := insideOf_some hit
  exact Nat.lt_trans above below

theorem NextStart.unique : Relator.RightUnique (NextStart base len unsafeRanges) := by
  rintro c _ _ ⟨a, r, low, _, clear, hit, rfl⟩ ⟨a', r', low', _, clear', hit', rfl⟩
  rcases Nat.lt_trichotomy a a' with before | rfl | after
  · exact absurd (clear' a low before) (by simp [hit])
  · rw [Option.some.inj (hit.symm.trans hit')]
  · exact absurd (clear a' low' after) (by simp [hit'])

theorem FirstStart.unique {d : Nat} (first : FirstStart base len unsafeRanges c)
    (other : FirstStart base len unsafeRanges d) : c = d := by
  obtain ⟨_, first⟩ := first
  obtain ⟨_, other⟩ := other
  split at first <;> simp_all

theorem le_of_nextStarts {d : Nat}
    (steps : Relation.ReflTransGen (NextStart base len unsafeRanges) c d) : c ≤ d := by
  induction steps with
  | refl => exact Nat.le_refl c
  | tail _ step ih => exact Nat.le_of_lt (Nat.lt_of_le_of_lt ih step.lt)

theorem Starts.next {next : Nat} (starts : Starts base len unsafeRanges c)
    (step : NextStart base len unsafeRanges c next) : Starts base len unsafeRanges next := by
  obtain ⟨c₀, first, steps⟩ := starts
  exact ⟨c₀, first, steps.tail step⟩

theorem Starts.cases (starts : Starts base len unsafeRanges c) :
    c = base ∨ ∃ r ∈ unsafeRanges, c = r.stop.toNat := by
  obtain ⟨c₀, ⟨_, first⟩, steps⟩ := starts
  induction steps with
  | refl =>
    cases hit : insideOf unsafeRanges base with
    | none => exact Or.inl (by simpa only [hit] using first)
    | some r => exact Or.inr ⟨r, (insideOf_some hit).1, by simpa only [hit] using first⟩
  | tail _ step _ =>
    obtain ⟨a, r, _, _, _, hit, rfl⟩ := step
    exact Or.inr ⟨r, (insideOf_some hit).1, rfl⟩

theorem Starts.le (starts : Starts base len unsafeRanges c) : base ≤ c := by
  obtain ⟨c₀, ⟨_, first⟩, steps⟩ := starts
  refine Nat.le_trans ?_ (le_of_nextStarts steps)
  cases hit : insideOf unsafeRanges base with
  | none =>
    rw [hit] at first
    exact Nat.le_of_eq first.symm
  | some r =>
    rw [hit] at first
    obtain ⟨_, _, below⟩ := insideOf_some hit
    exact Nat.le_of_lt (first ▸ below)

theorem Starts.le_or_steps {d : Nat} (starts : Starts base len unsafeRanges c)
    (other : Starts base len unsafeRanges d) :
    d ≤ c ∨ ∃ next, NextStart base len unsafeRanges c next ∧ next ≤ d := by
  obtain ⟨c₀, first, steps⟩ := starts
  obtain ⟨d₀, first', steps'⟩ := other
  obtain rfl : c₀ = d₀ := first.unique first'
  rcases Relation.ReflTransGen.total_of_right_unique NextStart.unique steps steps' with up | down
  · rcases up.cases_head with rfl | ⟨next, step, rest⟩
    · exact Or.inl (Nat.le_refl c)
    · exact Or.inr ⟨next, step, le_of_nextStarts rest⟩
  · exact Or.inl (le_of_nextStarts down)

/-- Where the loop is: it counts from `c` on, all starts below have been given up, and no byte
that it has looked at is inside of a range. -/
structure Counting (base len reqSize : Nat) (unsafeRanges : List MemoryRange) (c count : Nat) :
    Prop where
  starts : Starts base len unsafeRanges c
  begun : 0 < count
  few : count ≤ reqSize
  clear : ∀ a, c < a → a < c + count → insideOf unsafeRanges a = none
  below : ∀ d, Starts base len unsafeRanges d → d < c → ¬ FitsFrom base len unsafeRanges reqSize d

theorem Counting.next {count : Nat} (counting : Counting base len reqSize unsafeRanges c count)
    (miss : insideOf unsafeRanges (c + count) = none) (more : count < reqSize) :
    Counting base len reqSize unsafeRanges c (count + 1) := by
  refine ⟨counting.starts, Nat.succ_pos count, more, fun a low high => ?_, counting.below⟩
  rcases Nat.lt_or_eq_of_le (Nat.le_of_lt_succ high) with before | rfl
  · exact counting.clear a low before
  · exact miss

theorem Counting.jump {count : Nat} (counting : Counting base len reqSize unsafeRanges c count)
    {r : MemoryRange} (hit : insideOf unsafeRanges (c + count) = some r) (more : count < reqSize)
    (within : c + count < base + len) :
    Counting base len reqSize unsafeRanges r.stop.toNat 1 := by
  have positive := counting.begun
  have step : NextStart base len unsafeRanges c r.stop.toNat :=
    ⟨c + count, r, by omega, within, counting.clear, hit, rfl⟩
  refine ⟨counting.starts.next step, Nat.one_pos, by omega, fun a low high => by omega, ?_⟩
  intro d starts before fits
  rcases counting.starts.le_or_steps starts with low | ⟨next, other, above⟩
  · rcases Nat.lt_or_eq_of_le low with lower | rfl
    · exact counting.below d starts lower fits
    · exact absurd (fits.clear (d + count) (by omega) (by omega)) (by simp [hit])
  · rw [NextStart.unique step other] at before
    omega

theorem Counting.exhausted {count : Nat} (counting : Counting base len reqSize unsafeRanges c count)
    (past : base + len ≤ c + count) {d : Nat} (starts : Starts base len unsafeRanges d) :
    ¬ FitsFrom base len unsafeRanges reqSize d := by
  intro fits
  have few := counting.few
  rcases counting.starts.le_or_steps starts with low | ⟨next, ⟨a, r, above, within, _, hit, _⟩, _⟩
  · rcases Nat.lt_or_eq_of_le low with lower | rfl
    · exact counting.below d starts lower fits
    · have room := fits.room
      omega
  · exact absurd (counting.clear a above (by omega)) (by simp [hit])

/-- The result of the search: the lowest start that fits, or null. -/
def Searched (base len reqSize : Nat) (unsafeRanges : List MemoryRange) (q : Nat) : Prop :=
  LowestFit base len unsafeRanges reqSize q ∨
    q = 0 ∧ ∀ d, Starts base len unsafeRanges d → ¬ FitsFrom base len unsafeRanges reqSize d

/- The induction is on the passes; the pointer is at `c + count`. -/
theorem boundsLoop_searched (region : base + len < 2 ^ 64) (size : reqSize < 2 ^ 64)
    (below : StartsBelow base len unsafeRanges reqSize) {passes count : Nat} (left : 0 < passes)
    (counting : Counting base len reqSize unsafeRanges c count)
    (enough : base + len < c + count + passes) :
    ∃ q, boundsLoop unsafeRanges (base + len) reqSize passes (c + count) count = some q ∧
      Searched base len reqSize unsafeRanges q := by
  induction passes generalizing c count with
  | zero => omega
  | succ passes ih =>
    have few := counting.few
    by_cases within : c + count < base + len
    · simp only [boundsLoop, if_pos within]
      by_cases found : reqSize ≤ count
      · obtain rfl : count = reqSize := Nat.le_antisymm few found
        have result : (c + count + 2 ^ 64 - count) % 2 ^ 64 = c := by omega
        simp only [Nat.le_refl, if_true, result]
        refine ⟨c, rfl, Or.inl ⟨counting.starts, ⟨within, counting.clear⟩, fun d starts fits => ?_⟩⟩
        by_contra lower
        exact counting.below d starts (Nat.lt_of_not_le lower) fits
      · have more : count < reqSize := Nat.lt_of_not_le found
        simp only [if_neg found]
        cases hit : insideOf unsafeRanges (c + count) with
        | some r =>
          have jumped := counting.jump hit more within
          have fits : r.stop.toNat + 1 < 2 ^ 64 := by
            have bound := r.stop.toNat_lt
            by_contra wraps
            have last : r.stop.toNat = 2 ^ 64 - 1 := by omega
            obtain ⟨p, starts, fits⟩ := below (last ▸ jumped.starts)
            have room := fits.room
            exact jumped.below p starts (by omega) fits
          obtain ⟨_, _, ahead⟩ := insideOf_some hit
          simp only [Nat.mod_eq_of_lt fits]
          exact ih (by omega) jumped (by omega)
        | none =>
          have wrap : (c + count + 1) % 2 ^ 64 = c + (count + 1) := by omega
          have wrap' : (count + 1) % 2 ^ 64 = count + 1 := by omega
          simp only [wrap, wrap']
          exact ih (by omega) (counting.next hit more) (by omega)
    · simp only [boundsLoop, if_neg within]
      exact ⟨0, rfl, Or.inr ⟨rfl, fun d => counting.exhausted (Nat.le_of_not_lt within)⟩⟩

theorem checkMemoryBounds_searched (base len reqSize : Nat) (unsafeRanges : List MemoryRange)
    (region : base + len < 2 ^ 64) (pos : 0 < reqSize) (size : reqSize < 2 ^ 64)
    (below : StartsBelow base len unsafeRanges reqSize) :
    ∃ q, checkMemoryBounds base len reqSize unsafeRanges = some q ∧
      Searched base len reqSize unsafeRanges q := by
  rw [checkMemoryBounds, Nat.mod_eq_of_lt region, show 2 ^ 128 = 2 ^ 128 - 1 + 1 by decide]
  by_cases within : base < base + len
  · have first : ∀ c, FirstStart base len unsafeRanges c →
        Counting base len reqSize unsafeRanges c 1 := by
      intro c first
      refine ⟨⟨c, first, .refl⟩, Nat.one_pos, pos, fun a low high => by omega, ?_⟩
      rintro d ⟨d₀, first', steps⟩ lower
      have := le_of_nextStarts steps
      have := first.unique first'
      omega
    simp only [boundsLoop, if_pos within, if_neg (Nat.not_le_of_lt pos)]
    cases hit : insideOf unsafeRanges base with
    | some r =>
      have counting := first r.stop.toNat ⟨by omega, by rw [hit]⟩
      have fits : r.stop.toNat + 1 < 2 ^ 64 := by
        have bound := r.stop.toNat_lt
        by_contra wraps
        have last : r.stop.toNat = 2 ^ 64 - 1 := by omega
        obtain ⟨p, starts, fits⟩ := below (last ▸ counting.starts)
        have room := fits.room
        exact counting.below p starts (by omega) fits
      simp only [Nat.mod_eq_of_lt fits]
      exact boundsLoop_searched region size below (by decide) counting (by omega)
    | none =>
      have counting := first base ⟨by omega, by rw [hit]⟩
      have wrap : (base + 1) % 2 ^ 64 = base + 1 := by omega
      simp only [wrap, Nat.zero_add, show 1 % 2 ^ 64 = 1 by decide]
      exact boundsLoop_searched region size below (by decide) counting (by omega)
  · simp only [boundsLoop, if_neg within]
    refine ⟨0, rfl, Or.inr ⟨rfl, ?_⟩⟩
    rintro d ⟨_, ⟨nonempty, _⟩, _⟩
    omega

theorem LowestFit.unique {p q : Nat} (one : LowestFit base len unsafeRanges reqSize p)
    (other : LowestFit base len unsafeRanges reqSize q) : p = q :=
  Nat.le_antisymm (one.lowest q other.starts other.fits) (other.lowest p one.starts one.fits)

theorem LowestFit.safe_iff {p : Nat} (pos : 0 < reqSize)
    (found : LowestFit base len unsafeRanges reqSize p) :
    SafePlace base len reqSize unsafeRanges p ↔ ∀ r ∈ unsafeRanges, ¬ r.Missed p reqSize := by
  constructor
  · intro place r inside
    exact (MemoryRange.off_iff_missed pos found.fits.clear inside).mp (place.off r inside)
  · intro missed
    exact ⟨found.starts.le, Nat.le_of_lt found.fits.room, fun r inside =>
      (MemoryRange.off_iff_missed pos found.fits.clear inside).mpr (missed r inside)⟩

end Places

/-- The place that is returned is safe, if no range meets the lowest start that fits in one of
the ways that the loop does not see. -/
theorem bounds_safe_iff (base len reqSize : Nat) (unsafeRanges : List MemoryRange)
    (region : base + len < 2 ^ 64) (pos : 0 < reqSize) (size : reqSize < 2 ^ 64)
    (below : StartsBelow base len unsafeRanges reqSize) :
    (∃ p, checkMemoryBounds base len reqSize unsafeRanges = some p ∧
      (p ≠ 0 → SafePlace base len reqSize unsafeRanges p)) ↔
    ∀ p, LowestFit base len unsafeRanges reqSize p → p ≠ 0 →
      ∀ r ∈ unsafeRanges, ¬ r.Missed p reqSize := by
  obtain ⟨q, eq, searched⟩ := checkMemoryBounds_searched base len reqSize unsafeRanges region pos
    size below
  rcases searched with found | ⟨rfl, never⟩
  · constructor
    · rintro ⟨p, eq', safe⟩ p' found' nonnull
      obtain rfl : q = p := Option.some.inj (eq.symm.trans eq')
      obtain rfl : p' = q := found'.unique found
      exact (found.safe_iff pos).mp (safe nonnull)
    · intro unmet
      exact ⟨q, eq, fun nonnull => (found.safe_iff pos).mpr (unmet q found nonnull)⟩
  · constructor
    · intro _ p found
      exact absurd found.fits (never p found.starts)
    · intro _
      exact ⟨0, eq, fun null => absurd rfl null⟩

theorem bounds_safe_iff_between :
    ∃ p, checkMemoryBounds 0x10 0x30 4 [⟨0x10, 0x14⟩, ⟨0x18, 0x20⟩] = some p ∧
      (p ≠ 0 → SafePlace 0x10 0x30 4 [⟨0x10, 0x14⟩, ⟨0x18, 0x20⟩] p) := by
  have fits : FitsFrom 0x10 0x30 [⟨0x10, 0x14⟩, ⟨0x18, 0x20⟩] 4 0x14 := by
    refine ⟨by decide, fun a low high => ?_⟩
    interval_cases a <;> rfl
  have first : FirstStart 0x10 0x30 [⟨0x10, 0x14⟩, ⟨0x18, 0x20⟩] 0x10 := ⟨by decide, rfl⟩
  have step : NextStart 0x10 0x30 [⟨0x10, 0x14⟩, ⟨0x18, 0x20⟩] 0x10 0x14 :=
    ⟨0x11, ⟨0x10, 0x14⟩, by decide, by decide, fun x low high => by omega, rfl, rfl⟩
  have starts : Starts 0x10 0x30 [⟨0x10, 0x14⟩, ⟨0x18, 0x20⟩] 0x14 := ⟨0x10, first, .single step⟩
  apply (bounds_safe_iff 0x10 0x30 4 [⟨0x10, 0x14⟩, ⟨0x18, 0x20⟩] (by decide) (by decide)
    (by decide) (fun _ => ⟨0x14, starts, fits⟩)).mpr
  intro p found _
  have low := found.lowest 0x14 starts fits
  -- the start below is given up at the first byte inside of the first range
  obtain rfl : p = 0x14 := by
    rcases found.starts.cases with rfl | ⟨r, inside, rfl⟩
    · exact absurd (found.fits.clear 0x11 (by decide) (by decide)) (by decide)
    · fin_cases inside
      · rfl
      · exact absurd low (by decide)
  unfold MemoryRange.Missed
  decide

/-- A place up to the first byte of a range, one over a range of a single byte, one at the end
of a range that is inside of another, and one outside of the region, when the pointer wraps
behind a range at the end of the address space. -/
theorem bounds_overlap :
    (checkMemoryBounds 0x10 0x30 5 [⟨0x14, 0x20⟩] = some 0x10 ∧
      ¬ SafePlace 0x10 0x30 5 [⟨0x14, 0x20⟩] 0x10) ∧
    (checkMemoryBounds 0x10 0x30 5 [⟨0x12, 0x13⟩] = some 0x10 ∧
      ¬ SafePlace 0x10 0x30 5 [⟨0x12, 0x13⟩] 0x10) ∧
    (checkMemoryBounds 0x10 0x30 5 [⟨0x10, 0x14⟩, ⟨0x12, 0x15⟩] = some 0x14 ∧
      ¬ SafePlace 0x10 0x30 5 [⟨0x10, 0x14⟩, ⟨0x12, 0x15⟩] 0x14) ∧
    (checkMemoryBounds (2 ^ 64 - 100) 50 5 [⟨0xffffffffffffff90, 0xffffffffffffffff⟩] =
        some (2 ^ 64 - 1) ∧
      ¬ SafePlace (2 ^ 64 - 100) 50 5 [⟨0xffffffffffffff90, 0xffffffffffffffff⟩]
        (2 ^ 64 - 1)) := by
  refine ⟨⟨by decide, fun place => ?_⟩, ⟨by decide, fun place => ?_⟩, ⟨by decide, fun place => ?_⟩,
    by decide, fun place => absurd place.stop (by decide)⟩
  · exact absurd (place.off _ List.mem_cons_self 0x14 (by decide) (by decide)) (by decide)
  · exact absurd (place.off _ List.mem_cons_self 0x12 (by decide) (by decide)) (by decide)
  · have second := place.off ⟨0x12, 0x15⟩ (by simp) 0x14 (by decide) (by decide)
    exact absurd second (by decide)

/-- A byte of the last `reqSize` ones of the region is in a range. -/
def EndMet (base len reqSize : Nat) (unsafeRanges : List MemoryRange) : Prop :=
  ∃ r ∈ unsafeRanges, ∃ a, base + len ≤ a + reqSize ∧ a < base + len ∧ isInRange a r = true

theorem endMet_iff {base len reqSize : Nat} {unsafeRanges : List MemoryRange}
    (room : reqSize ≤ len) : EndMet base len reqSize unsafeRanges ↔
      ¬ SafePlace base len reqSize unsafeRanges (base + len - reqSize) := by
  constructor
  · rintro ⟨r, inside, a, low, high, met⟩ place
    have off := place.off r inside a (by omega) (by omega)
    simp [met] at off
  · intro unsafe_
    by_contra unmet
    refine unsafe_ ⟨by omega, by omega, fun r inside a low high => ?_⟩
    by_contra met
    exact unmet ⟨r, inside, a, by omega, by omega, by simpa using met⟩

theorem startsBelow_of_ends {base len reqSize : Nat} {unsafeRanges : List MemoryRange}
    (region : base + len < 2 ^ 64) (ends : ∀ r ∈ unsafeRanges, r.stop.toNat + 1 < 2 ^ 64) :
    StartsBelow base len unsafeRanges reqSize := by
  intro starts
  have nonempty : 0 < len := by
    obtain ⟨_, ⟨nonempty, _⟩, _⟩ := starts
    exact nonempty
  rcases starts.cases with last | ⟨r, inside, last⟩
  · omega
  · have := ends r inside
    omega

/-- Only a place that ends with the region is missed, and only if no start fits. -/
theorem bounds_complete_iff (base len reqSize : Nat) (unsafeRanges : List MemoryRange)
    (positive : 0 < base) (region : base + len < 2 ^ 64) (pos : 0 < reqSize)
    (size : reqSize < 2 ^ 64) (ends : ∀ r ∈ unsafeRanges, r.stop.toNat + 1 < 2 ^ 64) :
    (∃ q, checkMemoryBounds base len reqSize unsafeRanges = some q ∧
      (q = 0 → ¬ ∃ p, SafePlace base len reqSize unsafeRanges p)) ↔
    len < reqSize ∨ EndMet base len reqSize unsafeRanges ∨
      ∃ c, Starts base len unsafeRanges c ∧ FitsFrom base len unsafeRanges reqSize c := by
  obtain ⟨q, eq, searched⟩ := checkMemoryBounds_searched base len reqSize unsafeRanges region pos
    size (startsBelow_of_ends region ends)
  rcases searched with found | ⟨rfl, never⟩
  · have nonnull : q ≠ 0 := by
      have := found.starts.le
      omega
    constructor
    · intro _
      exact Or.inr (Or.inr ⟨q, found.starts, found.fits⟩)
    · intro _
      exact ⟨q, eq, fun null => absurd null nonnull⟩
  · constructor
    · rintro ⟨q, eq', none⟩
      obtain rfl : 0 = q := Option.some.inj (eq.symm.trans eq')
      by_cases short : len < reqSize
      · exact Or.inl short
      · exact Or.inr (Or.inl ((endMet_iff (Nat.le_of_not_lt short)).mpr fun place =>
          none rfl ⟨_, place⟩))
    · intro cause
      refine ⟨0, eq, fun _ => ?_⟩
      rintro ⟨p, place⟩
      have start := place.start
      have stop := place.stop
      rcases cause with short | met | ⟨c, starts, fits⟩
      · omega
      · -- a place that ends before the region is not missed
        obtain ⟨q, eq', _, complete⟩ := checkMemoryBounds_spec base len reqSize unsafeRanges region
          size ends
        obtain rfl : 0 = q := Option.some.inj (eq.symm.trans eq')
        rcases Nat.lt_or_eq_of_le stop with before | last
        · exact complete p place before positive rfl
        · obtain rfl : p = base + len - reqSize := by omega
          exact (endMet_iff (by omega)).mp met place
      · exact never c starts fits

theorem bounds_complete_iff_small :
    ∃ q, checkMemoryBounds 0x10 0x10 8 [⟨0x14, 0x1a⟩] = some q ∧
      (q = 0 → ¬ ∃ p, SafePlace 0x10 0x10 8 [⟨0x14, 0x1a⟩] p) := by
  apply (bounds_complete_iff 0x10 0x10 8 [⟨0x14, 0x1a⟩] (by decide) (by decide) (by decide)
    (by decide) (by decide)).mpr
  exact Or.inr (Or.inl ⟨⟨0x14, 0x1a⟩, List.mem_cons_self, 0x18, by decide, by decide, by decide⟩)

/-- A region that is just large enough, and a gap of the right size at its end. -/
theorem bounds_misses_last :
    (checkMemoryBounds 0x10 8 8 [⟨0x40, 0x50⟩] = some 0 ∧
      SafePlace 0x10 8 8 [⟨0x40, 0x50⟩] 0x10) ∧
    (checkMemoryBounds 0x10 0x10 8 [⟨0x10, 0x18⟩] = some 0 ∧
      SafePlace 0x10 0x10 8 [⟨0x10, 0x18⟩] 0x18) := by
  refine ⟨⟨by decide, by decide, by decide, fun r inside => ?_⟩, by decide, by decide, by decide,
    fun r inside => ?_⟩
  · obtain rfl := List.mem_singleton.mp inside
    exact (MemoryRange.off_iff (by decide)).mpr (by decide)
  · obtain rfl := List.mem_singleton.mp inside
    exact (MemoryRange.off_iff (by decide)).mpr (by decide)

/-- The loop of kernel_main: the first usable entry of the map with a place for the stack. -/
def findSafe (required : Nat) (unsafeRanges : List MemoryRange) : List MmapEntry → Option Nat
  | [] => some 0
  | e :: rest =>
    if e.usable then
      (checkMemoryBounds e.baseAddr.toNat e.length.toNat required unsafeRanges).bind fun safe =>
        if safe ≠ 0 then some safe else findSafe required unsafeRanges rest
    else findSafe required unsafeRanges rest

end Gapxos
