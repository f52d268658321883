import Mathlib.Data.List.GetD
import Mathlib.Data.Nat.Digits.Lemmas
import Gapxos.Lib.Bytes
import Gapxos.Lib.Loops

/-! utoa. The digits come out with the least one first; each is moved as a quadword, so that
seven bytes of garbage lie ahead of it until the next one is stored. Then the string is turned
round in place. -/
namespace Gapxos
open Bytes Loops

def digitTable : List (BitVec 8) :=
  ['0', '1', '2', '3', '4', '5', '6', '7', '8', '9', 'A', 'B', 'C', 'D', 'E', 'F', 'G', 'H', 'I',
    'J', 'K', 'L', 'M', 'N', 'O', 'P', 'Q', 'R', 'S', 'T', 'U', 'V', 'W', 'X', 'Y', 'Z'].map
    fun c => BitVec.ofNat 8 c.toNat

def digitChar (d : Nat) : BitVec 8 := digitTable.getD d 0

/- The registers, and memory. The accesses are kept by address and number of bytes. -/
structure Utoa where
  rax : Nat
  rcx : Nat
  rdx : Nat
  rdi : Nat
  rsi : Nat
  r8 : Nat
  r9 : Nat
  mem : Memory
  reads : List (Nat × Nat)
  writes : List (Nat × Nat)

/-- One round of the first loop. divq faults if the divisor is 0. -/
def nextChar (s : Utoa) : Option Utoa :=
  if s.rcx = 0 then none
  else
    let rdx := s.rax % s.rcx
    let digit := (s.r9 + rdx) % 2 ^ 64
    let r8 := read s.mem digit 8
    some { s with
      rax := s.rax / s.rcx
      rdx
      r8
      rdi := (s.rdi + 1) % 2 ^ 64
      mem := write s.mem s.rdi 8 r8
      reads := s.reads ++ [(digit, 8)]
      writes := s.writes ++ [(s.rdi, 8)] }

/-- The end of the string, stored as a quadword, and the pointers to its two ends. -/
def terminate (s : Utoa) : Utoa :=
  { s with
    mem := write s.mem s.rdi 8 0
    writes := s.writes ++ [(s.rdi, 8)]
    rdi := (s.rdi + (2 ^ 64 - 1)) % 2 ^ 64
    rcx := s.rsi }

def reverse (s : Utoa) : Utoa :=
  let dl := read s.mem s.rdi 1
  let other := read s.mem s.rcx 1
  { s with
    mem := write (write s.mem s.rcx 1 dl) s.rdi 1 other
    rdx := s.rdx / 256 * 256 + other
    reads := s.reads ++ [(s.rdi, 1), (s.rcx, 1)]
    writes := s.writes ++ [(s.rcx, 1), (s.rdi, 1)]
    rdi := (s.rdi + (2 ^ 64 - 1)) % 2 ^ 64
    rcx := (s.rcx + 1) % 2 ^ 64 }

/- A loop that is not through after 2^64 rounds does not end: the first one divides a number of
64 bits, the second one moves two pointers towards each other. -/
def utoa (mem : Memory) (digits value dest radix : Nat) : Option Utoa := do
  let start : Utoa := ⟨value, radix, radix, dest, dest, 0, digits, mem, [], []⟩
  let s ← doWhile nextChar (fun s => s.rax ≠ 0) (2 ^ 64) start
  let s ← doWhile (fun s => some (reverse s)) (fun s => s.rcx < s.rdi) (2 ^ 64) (terminate s)
  some { s with rax := s.rsi }

/-- The digits of a number, the least one first; 0 has one digit. -/
def utoaDigits (radix value : Nat) : List Nat :=
  if value = 0 then [0] else Nat.digits radix value

/- The table stands in memory. The bytes that are written lie off it, and nothing runs over the
end of the address space. -/
structure UtoaCall (mem : Memory) (digits value dest radix : Nat) : Prop where
  word : value < 2 ^ 64
  low : 2 ≤ radix
  high : radix ≤ 36
  table : ∀ d < 36, mem (digits + d) = digitChar d
  space : digits + 43 ≤ 2 ^ 64
  notNull : 0 < dest
  room : dest + (utoaDigits radix value).length + 8 ≤ 2 ^ 64
  apart : dest + (utoaDigits radix value).length + 8 ≤ digits ∨ digits + 36 ≤ dest

section Digits

variable {radix value : Nat}

theorem utoaDigits_step (low : 2 ≤ radix) (value : Nat) : utoaDigits radix value =
    value % radix :: if value / radix = 0 then [] else utoaDigits radix (value / radix) := by
  by_cases zero : value = 0
  · simp [utoaDigits, zero]
  · rw [utoaDigits, if_neg zero, Nat.digits_def' (by omega) (Nat.pos_of_ne_zero zero)]
    by_cases last : value / radix = 0
    · rw [if_pos last, last, Nat.digits_zero]
    · rw [if_neg last, utoaDigits, if_neg last]

theorem utoaDigits_value (radix value : Nat) :
    Nat.ofDigits radix (utoaDigits radix value) = value := by
  by_cases zero : value = 0
  · simp [utoaDigits, zero]
  · rw [utoaDigits, if_neg zero, Nat.ofDigits_digits]

theorem utoaDigits_lt (low : 2 ≤ radix) : ∀ d ∈ utoaDigits radix value, d < radix := by
  intro d inside
  by_cases zero : value = 0
  · rw [utoaDigits, if_pos zero, List.mem_singleton] at inside
    omega
  · rw [utoaDigits, if_neg zero] at inside
    exact Nat.digits_lt_base low inside

theorem utoaDigits_ne_nil (radix value : Nat) : utoaDigits radix value ≠ [] := by
  by_cases zero : value = 0
  · simp [utoaDigits, zero]
  · rw [utoaDigits, if_neg zero]
    exact Nat.digits_ne_nil_iff_ne_zero.mpr zero

theorem utoaDigits_lead (radix value : Nat)
    (lead : (utoaDigits radix value).reverse.head? = some 0) : utoaDigits radix value = [0] := by
  by_cases zero : value = 0
  · rw [utoaDigits, if_pos zero]
  · rw [utoaDigits, if_neg zero, List.head?_reverse] at lead
    have last := Nat.getLast_digit_ne_zero radix zero
    rw [List.getLast?_eq_some_getLast (Nat.digits_ne_nil_iff_ne_zero.mpr zero)] at lead
    exact absurd (Option.some.inj lead) last

end Digits

/-- An access to bytes between two addresses only. -/
def Within (low high : Nat) (access : Nat × Nat) : Prop :=
  low ≤ access.1 ∧ access.1 + access.2 ≤ high

def LogGrown (low high : Nat) (old log : List (Nat × Nat)) : Prop :=
  ∃ more, log = old ++ more ∧ ∀ access ∈ more, Within low high access

theorem LogGrown.refl (low high : Nat) (log : List (Nat × Nat)) : LogGrown low high log log :=
  ⟨[], (List.append_nil log).symm, fun _ none => nomatch none⟩

theorem LogGrown.pair {low high : Nat} {old log : List (Nat × Nat)} {a b : Nat × Nat}
    (grown : LogGrown low high old log) (first : Within low high a) (second : Within low high b) :
    LogGrown low high old (log ++ [a, b]) := by
  obtain ⟨more, eq, inside⟩ := grown
  refine ⟨more ++ [a, b], by rw [eq, List.append_assoc], ?_⟩
  intro access mem
  rcases List.mem_append.mp mem with old | new
  · exact inside access old
  · rcases List.mem_pair.mp new with rfl | rfl
    · exact first
    · exact second

section Emit

/- The first loop after the digits in `done`. Behind the last of them lie seven bytes that nothing
is said about. -/
structure Emitting (mem : Memory) (digits dest radix : Nat) (done : List Nat) (s : Utoa) :
    Prop where
  rcx : s.rcx = radix
  rsi : s.rsi = dest
  r9 : s.r9 = digits
  rdi : s.rdi = dest + done.length
  chars : ∀ i < done.length, s.mem (dest + i) = digitChar (done.getD i 0)
  other : ∀ x, x < dest ∨ dest + done.length + 7 ≤ x → s.mem x = mem x
  reads : s.reads = done.map fun d => (digits + d, 8)
  writes : s.writes = (List.range done.length).map fun i => (dest + i, 8)

variable {mem : Memory} {digits value dest radix : Nat} {done : List Nat} {s : Utoa}

theorem emit_step (call : UtoaCall mem digits value dest radix)
    (inv : Emitting mem digits dest radix done s)
    (more : done.length < (utoaDigits radix value).length) :
    ∃ s', nextChar s = some s' ∧ s'.rax = s.rax / radix ∧
      Emitting mem digits dest radix (done ++ [s.rax % radix]) s' := by
  have ⟨_, low, high, _, space, _, room, apart⟩ := call
  have digit : s.rax % radix < radix := Nat.mod_lt _ (by omega)
  have address : (s.r9 + s.rax % s.rcx) % 2 ^ 64 = digits + s.rax % radix := by
    rw [inv.r9, inv.rcx]
    exact Nat.mod_eq_of_lt (by omega)
  -- the table is as it was: the garbage has not reached it
  have char : s.mem (digits + s.rax % radix) = digitChar (s.rax % radix) := by
    rw [inv.other _ (by omega)]
    exact call.table _ (by omega)
  refine ⟨_, if_neg (by rw [inv.rcx]; omega), by rw [inv.rcx], ?_⟩
  rw [address]
  constructor
  case rcx => exact inv.rcx
  case rsi => exact inv.rsi
  case r9 => exact inv.r9
  case rdi =>
    rw [inv.rdi, List.length_append, List.length_singleton]
    exact Nat.mod_eq_of_lt (by omega)
  case chars =>
    intro i less
    rw [List.length_append, List.length_singleton] at less
    dsimp only
    rw [inv.rdi]
    by_cases last : i = done.length
    · rw [last, write_read_first, char, List.getD_append_right _ _ _ _ (Nat.le_refl _),
        Nat.sub_self, List.getD_cons_zero]
    · rw [write_other (by omega), inv.chars i (by omega), List.getD_append _ _ _ _ (by omega)]
  case other =>
    intro x off
    rw [List.length_append, List.length_singleton] at off
    dsimp only
    rw [inv.rdi, write_other (by omega)]
    exact inv.other x (by omega)
  case reads => rw [inv.reads, List.map_append, List.map_singleton]
  case writes =>
    rw [inv.writes, inv.rdi, List.length_append, List.length_singleton, List.range_succ,
      List.map_append, List.map_singleton]

theorem emit_total (call : UtoaCall mem digits value dest radix)
    (inv : Emitting mem digits dest radix [] s) (rax : s.rax = value) :
    ∃ s', doWhile nextChar (fun s => s.rax ≠ 0) (2 ^ 64) s = some s' ∧
      Emitting mem digits dest radix (utoaDigits radix value) s' := by
  apply doWhile_total (fun s => ∃ done, Emitting mem digits dest radix done s ∧
      done ++ utoaDigits radix s.rax = utoaDigits radix value) _ (fun s => s.rax)
  · rintro s ⟨done, inv, split⟩
    rw [utoaDigits_step call.low] at split
    have more : done.length < (utoaDigits radix value).length := by
      rw [← split, List.length_append, List.length_cons]
      omega
    obtain ⟨s', eq, rax, inv'⟩ := emit_step call inv more
    refine ⟨s', eq, ?_, ?_⟩
    · intro last
      rw [decide_eq_false_iff_not, not_ne_iff, rax] at last
      rw [if_pos last] at split
      rwa [split] at inv'
    · intro again
      have some : s.rax / radix ≠ 0 := by rwa [decide_eq_true_iff, rax] at again
      rw [if_neg some, ← rax, List.append_cons] at split
      refine ⟨⟨_, inv', split⟩, ?_⟩
      rw [rax]
      exact Nat.div_lt_self (Nat.pos_of_ne_zero fun zero => some (by rw [zero, Nat.zero_div]))
        call.low
  · exact ⟨[], inv, by rw [rax, List.nil_append]⟩
  · rw [rax]
    exact call.word

end Emit

section Turning

/- The second loop after `j` rounds on `n` characters, from the state `t` on. -/
structure Reversing (t : Utoa) (dest n j : Nat) (s : Utoa) : Prop where
  rsi : s.rsi = t.rsi
  rcx : s.rcx = dest + j
  rdi : s.rdi + (j + 1) = dest + n
  turned : Turned n j (fun i => t.mem (dest + i)) (fun i => s.mem (dest + i))
  other : ∀ x, x < dest ∨ dest + n ≤ x → s.mem x = t.mem x
  reads : LogGrown dest (dest + n) t.reads s.reads
  writes : LogGrown dest (dest + n) t.writes s.writes

variable {t s : Utoa} {dest n j : Nat}

theorem reverse_mem (s : Utoa) (x : Nat) : (reverse s).mem x =
    if x = s.rdi then s.mem s.rcx else if x = s.rcx then s.mem s.rdi else s.mem x := by
  dsimp only [reverse]
  rw [write_one, write_one, read_one, read_one, BitVec.ofNat_toNat, BitVec.ofNat_toNat,
    BitVec.setWidth_eq, BitVec.setWidth_eq]

theorem reverse_step (inv : Reversing t dest n j s) (notNull : 0 < dest)
    (room : dest + n < 2 ^ 64) (fits : 2 * j < n) : Reversing t dest n (j + 1) (reverse s) := by
  have ⟨_, rcx, rdi, _, _, _, _⟩ := inv
  have last : s.rdi = dest + (n - 1 - j) := by omega
  have left : Within dest (dest + n) (s.rcx, 1) := ⟨by omega, by dsimp only; omega⟩
  have right : Within dest (dest + n) (s.rdi, 1) := ⟨by omega, by dsimp only; omega⟩
  constructor
  case rsi => exact inv.rsi
  case rcx =>
    rw [reverse, rcx]
    exact Nat.mod_eq_of_lt (by omega)
  case rdi =>
    rw [reverse]
    dsimp only
    omega
  case turned =>
    apply inv.turned.swap fits
    · rw [reverse_mem, rcx, last]
      by_cases middle : dest + j = dest + (n - 1 - j)
      · rw [if_pos middle, middle]
      · rw [if_neg middle, if_pos rfl]
    · rw [reverse_mem, last, if_pos rfl, rcx]
    · intro i less low high
      rw [reverse_mem, if_neg (by omega), if_neg (by omega)]
  case other =>
    intro x off
    rw [reverse_mem, if_neg (by omega), if_neg (by omega)]
    exact inv.other x off
  case reads => exact inv.reads.pair right left
  case writes => exact inv.writes.pair left right

theorem reverse_total (inv : Reversing t dest n 0 s) (notNull : 0 < dest)
    (room : dest + n < 2 ^ 64) (some : 0 < n) :
    ∃ s', doWhile (fun s => .some (reverse s)) (fun s => s.rcx < s.rdi) (2 ^ 64) s = .some s' ∧
      ∃ j, Reversing t dest n j s' ∧ n ≤ 2 * j + 1 := by
  apply doWhile_total (fun s => ∃ j, Reversing t dest n j s ∧ 2 * j < n) _
    (fun s => s.rdi - s.rcx)
  · rintro s ⟨j, inv, fits⟩
    have inv' := reverse_step inv notNull room fits
    have ⟨_, rcx, rdi, _, _, _, _⟩ := inv
    have ⟨_, rcx', rdi', _, _, _, _⟩ := inv'
    refine ⟨_, rfl, ?_, ?_⟩
    · intro stop
      have met : ¬ (reverse s).rcx < (reverse s).rdi := of_decide_eq_false stop
      exact ⟨j + 1, inv', by omega⟩
    · intro again
      have apart : (reverse s).rcx < (reverse s).rdi := of_decide_eq_true again
      exact ⟨⟨j + 1, inv', by omega⟩, by omega⟩
  · exact ⟨0, inv, some⟩
  · have rdi := inv.rdi
    omega

end Turning

section Call

structure UtoaDone (mem : Memory) (digits value dest radix : Nat) (out : Utoa) : Prop where
  rax : out.rax = dest
  chars : ∀ i < (utoaDigits radix value).length, out.mem (dest + i) =
    digitChar ((utoaDigits radix value).getD ((utoaDigits radix value).length - 1 - i) 0)
  zero : ∀ i < 8, out.mem (dest + (utoaDigits radix value).length + i) = 0
  other : ∀ x, x < dest ∨ dest + (utoaDigits radix value).length + 8 ≤ x → out.mem x = mem x
  reads : LogGrown dest (dest + (utoaDigits radix value).length)
    ((utoaDigits radix value).map fun d => (digits + d, 8)) out.reads
  writes : LogGrown dest (dest + (utoaDigits radix value).length)
    ((List.range ((utoaDigits radix value).length + 1)).map fun i => (dest + i, 8)) out.writes

variable {mem : Memory} {digits value dest radix : Nat}

theorem utoa_total (call : UtoaCall mem digits value dest radix) :
    ∃ out, utoa mem digits value dest radix = some out ∧
      UtoaDone mem digits value dest radix out := by
  have some := List.length_pos_of_ne_nil (utoaDigits_ne_nil radix value)
  have ⟨_, _, _, _, _, notNull, room, _⟩ := call
  obtain ⟨s, emits, emitted⟩ := emit_total call
    (s := ⟨value, radix, radix, dest, dest, 0, digits, mem, [], []⟩)
    ⟨rfl, rfl, rfl, rfl, fun _ less => absurd less (Nat.not_lt_zero _), fun _ _ => rfl, rfl, rfl⟩
    rfl
  have start : Reversing (terminate s) dest (utoaDigits radix value).length 0 (terminate s) := by
    constructor
    case rsi => rfl
    case rcx => exact emitted.rsi
    case rdi =>
      rw [terminate, emitted.rdi]
      dsimp only
      omega
    case turned => exact turned_zero _ _
    case other => exact fun _ _ => rfl
    case reads => exact LogGrown.refl _ _ _
    case writes => exact LogGrown.refl _ _ _
  obtain ⟨out, turns, j, turned, all⟩ := reverse_total start notNull (by omega) some
  refine ⟨{ out with rax := out.rsi }, ?_, ?_⟩
  · rw [utoa, emits, Option.bind_eq_bind, Option.bind_some, turns]
    rfl
  · constructor
    case rax => exact turned.rsi.trans emitted.rsi
    case chars =>
      intro i less
      rw [turned.turned.whole all less]
      dsimp only [terminate]
      rw [emitted.rdi, write_other (by omega)]
      exact emitted.chars _ (by omega)
    case zero =>
      intro i less
      rw [turned.other _ (by omega)]
      dsimp only [terminate]
      rw [emitted.rdi]
      exact (if_pos (by omega)).trans (by rw [Nat.zero_div]; rfl)
    case other =>
      intro x off
      rw [turned.other x (by omega)]
      dsimp only [terminate]
      rw [emitted.rdi, write_other (by omega)]
      exact emitted.other x (by omega)
    case reads =>
      rw [← emitted.reads]
      exact turned.reads
    case writes =>
      have written := turned.writes
      dsimp only [terminate] at written
      rw [emitted.writes, emitted.rdi] at written
      rwa [List.range_succ, List.map_append, List.map_singleton]

/-- The bytes up to the first NUL. -/
def StringAt (m : Memory) (a : Nat) : List (BitVec 8) → Prop
  | [] => m a = 0
  | c :: cs => m a = c ∧ c ≠ 0 ∧ StringAt m (a + 1) cs

/-- The number that a string of digits is in a radix. -/
def valueIn (radix : Nat) (cs : List (BitVec 8)) : Nat :=
  cs.foldl (fun v c => v * radix + digitTable.idxOf c) 0

theorem digitChar_ne_zero : ∀ d < 36, digitChar d ≠ 0 := by decide

theorem idxOf_digitChar : ∀ d < 36, digitTable.idxOf (digitChar d) = d := by decide

theorem digitChar_inj {d d' : Nat} (less : d < 36) (less' : d' < 36)
    (same : digitChar d = digitChar d') : d = d' := by
  rw [← idxOf_digitChar d less, same, idxOf_digitChar d' less']

theorem digitChar_mem {d radix : Nat} (less : d < radix) (high : radix ≤ 36) :
    digitChar d ∈ digitTable.take radix := by
  have length : digitTable.length = 36 := rfl
  apply List.mem_take_iff_getElem.mpr
  exact ⟨d, by omega, (List.getD_eq_getElem _ _ (by omega)).symm⟩

theorem stringAt_of {m : Memory} {a : Nat} {cs : List (BitVec 8)} (chars : ∀ c ∈ cs, c ≠ 0)
    (same : ∀ i < cs.length, m (a + i) = cs.getD i 0) (zero : m (a + cs.length) = 0) :
    StringAt m a cs := by
  induction cs generalizing a with
  | nil => exact zero
  | cons c cs ih =>
    refine ⟨same 0 (Nat.succ_pos _), chars c List.mem_cons_self, ?_⟩
    apply ih fun c mem => chars c (List.mem_cons_of_mem _ mem)
    · intro i less
      rw [Nat.add_assoc, Nat.add_comm 1, same (i + 1) (Nat.succ_lt_succ less),
        List.getD_cons_succ]
    · rw [Nat.add_assoc, Nat.add_comm 1]
      exact zero

theorem valueIn_reverse {ds : List Nat} (radix : Nat) (less : ∀ d ∈ ds, d < 36) :
    valueIn radix (ds.reverse.map digitChar) = Nat.ofDigits radix ds := by
  induction ds with
  | nil => rfl
  | cons d ds ih =>
    have rest := ih fun d mem => less d (List.mem_cons_of_mem _ mem)
    rw [valueIn] at rest
    rw [valueIn, List.reverse_cons, List.map_append, List.foldl_append, rest, List.map_singleton,
      List.foldl_cons, List.foldl_nil, idxOf_digitChar d (less d List.mem_cons_self),
      Nat.ofDigits_cons, Nat.mul_comm, Nat.add_comm]

/-- The string is the number: no other characters than digits of the radix, no leading zero. -/
theorem utoa_string (call : UtoaCall mem digits value dest radix) :
    ∃ out cs, utoa mem digits value dest radix = some out ∧ out.rax = dest ∧
      StringAt out.mem dest cs ∧ cs ≠ [] ∧ (∀ c ∈ cs, c ∈ digitTable.take radix) ∧
      (cs.head? = some (digitChar 0) → cs = [digitChar 0]) ∧ valueIn radix cs = value := by
  obtain ⟨out, eq, done⟩ := utoa_total call
  have less : ∀ d ∈ utoaDigits radix value, d < 36 := fun d mem =>
    Nat.lt_of_lt_of_le (utoaDigits_lt call.low d mem) call.high
  refine ⟨out, (utoaDigits radix value).reverse.map digitChar, eq, done.rax, ?_, ?_, ?_, ?_, ?_⟩
  · apply stringAt_of
    · intro c mem
      obtain ⟨d, inside, rfl⟩ := List.mem_map.mp mem
      exact digitChar_ne_zero d (less d (List.mem_reverse.mp inside))
    · intro i below
      rw [List.length_map, List.length_reverse] at below
      rw [done.chars i below, List.getD_eq_getElem _ _ (by omega),
        List.getD_eq_getElem _ _ (by rwa [List.length_map, List.length_reverse]),
        List.getElem_map, List.getElem_reverse]
    · rw [List.length_map, List.length_reverse]
      exact done.zero 0 (by decide)
  · intro empty
    apply utoaDigits_ne_nil radix value
    exact List.reverse_eq_nil_iff.mp (List.map_eq_nil_iff.mp empty)
  · intro c mem
    obtain ⟨d, inside, rfl⟩ := List.mem_map.mp mem
    exact digitChar_mem (utoaDigits_lt call.low d (List.mem_reverse.mp inside)) call.high
  · intro lead
    rw [List.head?_map, Option.map_eq_some_iff] at lead
    obtain ⟨d, first, char⟩ := lead
    have zero := digitChar_inj (less d (List.mem_reverse.mp (List.mem_of_head? first)))
      (by decide) char
    rw [zero] at first
    rw [utoaDigits_lead radix value first]
    rfl
  · rw [valueIn_reverse radix less, utoaDigits_value]

/-- A table at 0x1000, and ones everywhere else. -/
def tableMemory : Memory := fun a =>
  if 0x1000 ≤ a ∧ a < 0x1024 then digitChar (a - 0x1000) else 0xff

theorem tableMemory_call {value radix : Nat} (word : value < 2 ^ 64) (low : 2 ≤ radix)
    (high : radix ≤ 36) (short : (utoaDigits radix value).length ≤ 64) :
    UtoaCall tableMemory 0x1000 value 0x2000 radix := by
  refine ⟨word, low, high, ?_, by decide, by decide, by omega, Or.inr (by decide)⟩
  decide

theorem utoa_string_1234 : UtoaCall tableMemory 0x1000 1234 0x2000 10 ∧
    ∃ out cs, utoa tableMemory 0x1000 1234 0x2000 10 = some out ∧ out.rax = 0x2000 ∧
      StringAt out.mem 0x2000 cs ∧ cs ≠ [] ∧ (∀ c ∈ cs, c ∈ digitTable.take 10) ∧
      (cs.head? = some (digitChar 0) → cs = [digitChar 0]) ∧ valueIn 10 cs = 1234 := by
  have call : UtoaCall tableMemory 0x1000 1234 0x2000 10 :=
    tableMemory_call (by decide) (by decide) (by decide) (by simp [utoaDigits])
  exact ⟨call, utoa_string call⟩

/-- Seven bytes behind the terminator are zeroed, whatever the number; bytes behind the table are
read for a digit above 28. -/
theorem utoa_accesses (call : UtoaCall mem digits value dest radix) :
    ∃ out, utoa mem digits value dest radix = some out ∧
      (∀ x, (∃ access ∈ out.writes, access.1 ≤ x ∧ x < access.1 + access.2) ↔
        dest ≤ x ∧ x < dest + (utoaDigits radix value).length + 8) ∧
      (∀ i < 8, out.mem (dest + (utoaDigits radix value).length + i) = 0) ∧
      ((∀ access ∈ out.reads, Within digits (digits + 36) access ∨
          Within dest (dest + (utoaDigits radix value).length) access) ↔
        ∀ d ∈ utoaDigits radix value, d ≤ 28) := by
  obtain ⟨out, eq, done⟩ := utoa_total call
  obtain ⟨turned, writes, inside⟩ := done.writes
  obtain ⟨turnedReads, reads, insideReads⟩ := done.reads
  refine ⟨out, eq, ?_, done.zero, ?_⟩
  · intro x
    rw [writes]
    constructor
    · rintro ⟨access, mem, low, high⟩
      rcases List.mem_append.mp mem with stored | turns
      · obtain ⟨i, less, rfl⟩ := List.mem_map.mp stored
        rw [List.mem_range] at less
        dsimp only at low high
        omega
      · obtain ⟨low', high'⟩ := inside access turns
        omega
    · rintro ⟨low, high⟩
      -- the terminator covers all that lies behind the first byte of it
      have covers : ∃ i < (utoaDigits radix value).length + 1, dest + i ≤ x ∧ x < dest + i + 8 :=
        ⟨min (x - dest) (utoaDigits radix value).length, by omega, by omega, by omega⟩
      obtain ⟨i, less, first, last⟩ := covers
      exact ⟨(dest + i, 8), List.mem_append_left _ (List.mem_map.mpr
        ⟨i, List.mem_range.mpr less, rfl⟩), first, last⟩
  · rw [reads]
    constructor
    · intro all d mem
      have digit := utoaDigits_lt call.low d mem
      have ⟨_, _, high, _, _, _, _, apart⟩ := call
      rcases all (digits + d, 8) (List.mem_append_left _ (List.mem_map.mpr ⟨d, mem, rfl⟩)) with
        table | string
      · have last : digits + d + 8 ≤ digits + 36 := table.2
        omega
      · have first : dest ≤ digits + d := string.1
        have last : digits + d + 8 ≤ dest + (utoaDigits radix value).length := string.2
        omega
    · intro small access mem
      rcases List.mem_append.mp mem with digit | turns
      · obtain ⟨d, inDigits, rfl⟩ := List.mem_map.mp digit
        have less := small d inDigits
        exact Or.inl ⟨Nat.le_add_right _ _, by dsimp only; omega⟩
      · exact Or.inr (insideReads access turns)

theorem utoa_accesses_1234 : UtoaCall tableMemory 0x1000 1234 0x2000 10 ∧
    ∃ out, utoa tableMemory 0x1000 1234 0x2000 10 = some out ∧
      (∀ x, (∃ access ∈ out.writes, access.1 ≤ x ∧ x < access.1 + access.2) ↔
        0x2000 ≤ x ∧ x < 0x2000 + (utoaDigits 10 1234).length + 8) ∧
      (∀ i < 8, out.mem (0x2000 + (utoaDigits 10 1234).length + i) = 0) ∧
      ((∀ access ∈ out.reads, Within 0x1000 (0x1000 + 36) access ∨
          Within 0x2000 (0x2000 + (utoaDigits 10 1234).length) access) ↔
        ∀ d ∈ utoaDigits 10 1234, d ≤ 28) := by
  have call : UtoaCall tableMemory 0x1000 1234 0x2000 10 :=
    tableMemory_call (by decide) (by decide) (by decide) (by simp [utoaDigits])
  exact ⟨call, utoa_accesses call⟩

/-- "7" has one digit, but the third byte is written too; "Z" is read with seven bytes that are
not in the table. -/
theorem utoa_overrun : (utoaDigits 10 7).length = 1 ∧ tableMemory 0x2002 = 0xff ∧
    (utoa tableMemory 0x1000 7 0x2000 10).map (fun out => (out.mem 0x2002, out.writes)) =
      some (0, [(0x2000, 8), (0x2001, 8), (0x2000, 1), (0x2000, 1)]) ∧
    (utoa tableMemory 0x1000 35 0x2000 36).map (fun out => out.reads) =
      some [(0x1000 + 35, 8), (0x2000, 1), (0x2000, 1)] := by
  decide +kernel

end Call

end Gapxos
