import Gapxos.Gdt.Table
import Gapxos.Lib.Runs

/-! The calls of _add_entry one after the other: where the entries go, and that they stay. -/
namespace Gapxos
open Bytes Runs

/-- A call of _add_entry, with the block that malloc gives if it is asked for one. -/
structure EntryCall where
  alloc : Alloc
  entry : GdtEntry
  code64 : Nat

/-- The entries that were accepted, with their selectors, and the table. -/
def logEntry (x : List (EntryCall × Nat) × Gdt) (c : EntryCall) :
    Option (List (EntryCall × Nat) × Gdt) :=
  let (selector, s) := addEntry c.alloc c.entry c.code64 x.2
  some (if c.entry.rejected then x.1 else x.1 ++ [(c, selector)], s)

/-- A fresh block for a table of twice the size. Until it is freed the table keeps its bytes, as
does the new one from then on. -/
structure FreshBlock (s : Gdt) (a : Alloc) : Prop where
  fits : a.block + s.allocatedSize * 2 % 2 ^ 64 ≤ 2 ^ 64
  apart : a.block + s.allocatedSize * 2 % 2 ^ 64 ≤ s.base ∨ s.base + s.allocatedSize ≤ a.block
  malloc : ∀ mem x, s.base ≤ x → x < s.base + s.allocatedSize → a.malloc mem x = mem x
  free : ∀ mem x, a.block ≤ x → x < a.block + s.allocatedSize * 2 % 2 ^ 64 → a.free mem x = mem x

def Granted (x : List (EntryCall × Nat) × Gdt) (c : EntryCall) : Prop :=
  c.entry.rejected = false → x.2.allocatedSize / gdtEntrySize = x.2.entries →
    FreshBlock x.2 c.alloc

/-- The table as gdt_init allocates it. -/
structure FirstTable (s : Gdt) : Prop where
  entries : s.entries = 0
  size : s.allocatedSize = 32
  fits : s.base + 32 ≤ 2 ^ 64

/-- The entries lie in the table, each at its selector with its bytes. -/
structure EntriesKept (x : List (EntryCall × Nat) × Gdt) : Prop where
  count : x.2.entries = x.1.length
  inside : gdtEntrySize * x.2.entries ≤ x.2.allocatedSize
  selectors : x.1.map Prod.snd = (List.range x.1.length).map (gdtEntrySize * ·)
  bytes : ∀ y ∈ x.1, ∀ i < gdtEntrySize, x.2.mem (x.2.base + y.2 + i) =
    (descriptor y.1.entry y.1.code64).getD i 0

structure TableSize (s : Gdt) : Prop where
  whole : gdtEntrySize ∣ s.allocatedSize
  some_ : 32 ≤ s.allocatedSize
  fits : s.base + s.allocatedSize ≤ 2 ^ 64

section Step

variable {s : Gdt} {a : Alloc} {log : List (EntryCall × Nat)} {c : EntryCall}

structure Counted (s t : Gdt) : Prop where
  entries : t.entries = s.entries + 1
  inside : gdtEntrySize * t.entries ≤ t.allocatedSize
  size : TableSize t
  bytes : ∀ d < gdtEntrySize * s.entries, t.mem (t.base + d) = s.mem (s.base + d)

theorem countEntry_counted (size : TableSize s)
    (inside : gdtEntrySize * s.entries ≤ s.allocatedSize) (few : s.entries < 2 ^ 60)
    (fresh : s.allocatedSize / gdtEntrySize = s.entries → FreshBlock s a) :
    Counted s (countEntry a s) := by
  obtain ⟨whole, some_, fits⟩ := size
  unfold gdtEntrySize at *
  have next : (s.entries + 1) % 2 ^ 64 = s.entries + 1 := Nat.mod_eq_of_lt (by omega)
  unfold countEntry
  by_cases full : s.allocatedSize / gdtEntrySize = s.entries
  · obtain ⟨fitsNew, apart, malloc, free⟩ := fresh full
    unfold gdtEntrySize at *
    -- below 2^60 entries the doubled size does not wrap
    have double : s.allocatedSize * 2 % 2 ^ 64 = s.allocatedSize * 2 :=
      Nat.mod_eq_of_lt (by omega)
    rw [double] at fitsNew apart free
    simp only [if_pos full, double, next, Nat.mul_div_cancel _ (show 0 < 2 by decide)]
    refine ⟨rfl, ?_, ⟨?_, ?_, ?_⟩, ?_⟩ <;> dsimp only
    · unfold gdtEntrySize; omega
    · unfold gdtEntrySize; omega
    · omega
    · exact fitsNew
    · intro d before
      unfold gdtEntrySize at before
      rw [free _ _ (by omega) (by omega), memcpy_apply (by omega), if_pos (by omega),
        Nat.add_sub_cancel_left, malloc _ _ (by omega) (by omega)]
  · simp only [if_neg full, next]
    refine ⟨rfl, ?_, ⟨whole, some_, fits⟩, fun _ _ => rfl⟩
    unfold gdtEntrySize at *
    dsimp only
    omega

theorem addEntry_counted {t : Gdt} (fine : c.entry.rejected = false) (few : s.entries < 2 ^ 60)
    (is : countEntry c.alloc s = t) (counted : Counted s t) :
    addEntry c.alloc c.entry c.code64 s = (gdtEntrySize * s.entries, { t with
      mem := storeBytes t.mem (t.base + gdtEntrySize * s.entries)
        (descriptor c.entry c.code64) }) := by
  obtain ⟨entries, inside, ⟨_, _, fits⟩, _⟩ := counted
  rw [entries] at inside
  unfold gdtEntrySize at inside
  have last : (t.entries + (2 ^ 64 - 1)) % 2 ^ 64 = s.entries := by
    rw [entries]
    omega
  have selector : s.entries * gdtEntrySize % 2 ^ 64 = gdtEntrySize * s.entries := by
    unfold gdtEntrySize
    omega
  have target : (t.base + s.entries * gdtEntrySize) % 2 ^ 64 =
      t.base + gdtEntrySize * s.entries := by
    unfold gdtEntrySize
    omega
  simp only [addEntry, fine, Bool.false_eq_true, if_false, is, last, selector, target]

theorem storeBytes_other {mem : Memory} {b x : Nat} {bytes : List (BitVec 8)} (off : x < b) :
    storeBytes mem b bytes x = mem x := if_neg (by omega)

theorem storeBytes_at {mem : Memory} {b i : Nat} {bytes : List (BitVec 8)}
    (inside : i < bytes.length) : storeBytes mem b bytes (b + i) = bytes.getD i 0 := by
  rw [storeBytes, if_pos (by omega), Nat.add_sub_cancel_left]

theorem EntriesKept.selector_lt {x : List (EntryCall × Nat) × Gdt} (kept : EntriesKept x)
    {y : EntryCall × Nat} (inside : y ∈ x.1) : y.2 + gdtEntrySize ≤ gdtEntrySize * x.2.entries := by
  have listed : y.2 ∈ x.1.map Prod.snd := List.mem_map_of_mem inside
  rw [kept.selectors] at listed
  obtain ⟨k, below, at_⟩ := List.mem_map.mp listed
  have := List.mem_range.mp below
  rw [← at_, kept.count]
  unfold gdtEntrySize
  omega

theorem logEntry_kept {x : List (EntryCall × Nat) × Gdt} (kept : EntriesKept x)
    (size : TableSize x.2) (granted : Granted x c)
    (few : c.entry.rejected = false → x.1.length < 2 ^ 60) :
    ∃ y, logEntry x c = some y ∧ EntriesKept y ∧ TableSize y.2 ∧
      y.1.map Prod.fst = x.1.map Prod.fst ++ [c].filter (!·.entry.rejected) := by
  obtain ⟨log, s⟩ := x
  cases fine : c.entry.rejected with
  | true =>
    refine ⟨(log, s), ?_, kept, size, ?_⟩
    · simp [logEntry, addEntry, fine]
    · simp [fine]
  | false =>
    have count : s.entries = log.length := kept.count
    have room : s.entries < 2 ^ 60 := count ▸ few fine
    obtain ⟨t, is⟩ : ∃ t, countEntry c.alloc s = t := ⟨_, rfl⟩
    have counted := is ▸ countEntry_counted size kept.inside room (granted fine)
    have eq : logEntry (log, s) c = some (log ++ [(c, gdtEntrySize * s.entries)], { t with
        mem := storeBytes t.mem (t.base + gdtEntrySize * s.entries)
          (descriptor c.entry c.code64) }) := by
      simp only [logEntry, addEntry_counted fine room is counted, fine, Bool.false_eq_true,
        if_false]
    refine ⟨_, eq, ?_, ⟨counted.size.whole, counted.size.some_, counted.size.fits⟩,
      by simp [fine]⟩
    constructor
    · show t.entries = (log ++ [_]).length
      rw [counted.entries, List.length_append, List.length_singleton, count]
    · exact counted.inside
    · show (log ++ [_]).map Prod.snd = _
      rw [List.map_append, kept.selectors, List.length_append, List.length_singleton,
        List.range_succ, List.map_append]
      simp only [List.map_cons, List.map_nil, count]
    · intro y listed i inside
      rcases List.mem_append.mp listed with before | new
      · have lt := kept.selector_lt before
        have same := counted.bytes (y.2 + i) (by omega)
        dsimp only at lt ⊢
        rw [storeBytes_other (by omega), Nat.add_assoc, same, ← Nat.add_assoc]
        exact kept.bytes y before i inside
      · cases List.mem_singleton.mp new
        exact storeBytes_at inside

theorem logEntries_kept {calls : List EntryCall} {x : List (EntryCall × Nat) × Gdt}
    (kept : EntriesKept x) (size : TableSize x.2) (granted : All logEntry Granted x calls)
    (few : x.1.length + (calls.filter (!·.entry.rejected)).length ≤ 2 ^ 60) :
    ∃ y, run logEntry x calls = some y ∧ EntriesKept y ∧ TableSize y.2 ∧
      y.1.map Prod.fst = x.1.map Prod.fst ++ calls.filter (!·.entry.rejected) := by
  induction calls generalizing x with
  | nil => exact ⟨x, rfl, kept, size, by simp⟩
  | cons c calls ih =>
    obtain ⟨now, later⟩ := granted
    have room : c.entry.rejected = false → x.1.length < 2 ^ 60 := by
      intro fine
      rw [List.filter_cons_of_pos (by simp [fine]), List.length_cons] at few
      omega
    obtain ⟨y, eq, keptY, sizeY, logY⟩ := logEntry_kept kept size now room
    have length : y.1.length = x.1.length + ([c].filter (!·.entry.rejected)).length := by
      simpa using congrArg List.length logY
    obtain ⟨z, eq', keptZ, sizeZ, logZ⟩ := ih keptY sizeY (later y eq) (by
      rw [length, Nat.add_assoc, ← List.length_append, ← List.filter_append]
      exact few)
    refine ⟨z, by rw [run, eq, Option.bind_some, eq'], keptZ, sizeZ, ?_⟩
    rw [logZ, logY, List.append_assoc, ← List.filter_append]
    rfl

end Step

theorem addEntry_sequence (s : Gdt) (calls : List EntryCall) (first : FirstTable s)
    (granted : All logEntry Granted ([], s) calls)
    (few : (calls.filter (!·.entry.rejected)).length ≤ 2 ^ 60) :
    ∃ log t, run logEntry ([], s) calls = some (log, t) ∧ EntriesKept (log, t) ∧
      log.map Prod.fst = calls.filter (!·.entry.rejected) ∧
      ∀ c : EntryCall, c.entry.rejected → addEntry c.alloc c.entry c.code64 t = (0, t) := by
  have kept : EntriesKept ([], s) :=
    ⟨first.entries, by rw [first.entries]; exact Nat.zero_le _, rfl, by simp⟩
  have size : TableSize s :=
    ⟨by rw [first.size]; decide, by rw [first.size], by rw [first.size]; exact first.fits⟩
  obtain ⟨⟨log, t⟩, eq, keptT, _, logT⟩ :=
    logEntries_kept kept size granted (by simpa using few)
  exact ⟨log, t, eq, keptT, logT, fun c bad => if_pos bad⟩

section Doubling

/-- The `i`-th call, for a segment of one byte. A table of `n` bytes lies at address `n`. -/
def doubling (i : Nat) : EntryCall := ⟨⟨if i = 2 ^ 60 then 8 else 16 * i, id, id⟩, ⟨0, 0, 0⟩, 0⟩

def tableAt32 : Gdt := ⟨fun _ => 0, 32, 0, 32, 0, 0, ⟨0, 0⟩⟩

structure Doubled (i : Nat) (s : Gdt) : Prop where
  entries : s.entries = i
  base : s.base = s.allocatedSize
  power : ∃ m, 5 ≤ m ∧ m ≤ 63 ∧ s.allocatedSize = 2 ^ m
  inside : 8 * i ≤ s.allocatedSize

variable {i n : Nat} {x : List (EntryCall × Nat) × Gdt}

theorem Doubled.le (doubled : Doubled i x.2) : x.2.allocatedSize ≤ 2 ^ 63 := by
  obtain ⟨m, _, high, size⟩ := doubled.power
  rw [size]
  exact Nat.pow_le_pow_right (by decide) high

theorem Doubled.full (doubled : Doubled i x.2) (few : i < 2 ^ 60)
    (full : x.2.allocatedSize / gdtEntrySize = i) : x.2.allocatedSize = 8 * i ∧
      ∃ m, 5 ≤ m ∧ m ≤ 63 ∧ x.2.allocatedSize * 2 = 2 ^ m ∧ 2 ^ m ≤ 2 ^ 63 := by
  obtain ⟨m, low, high, size⟩ := doubled.power
  have whole : x.2.allocatedSize = 8 * i := by
    obtain ⟨k, rfl⟩ := Nat.exists_eq_add_of_le low
    rw [size, Nat.pow_add] at full ⊢
    unfold gdtEntrySize at full
    omega
  have below : m < 63 := by
    apply Nat.lt_of_le_of_ne high
    rintro rfl
    omega
  exact ⟨whole, m + 1, by omega, below, by rw [size, Nat.pow_succ],
    Nat.pow_le_pow_right (by decide) below⟩

theorem Doubled.granted (doubled : Doubled i x.2) (few : i ≤ 2 ^ 60) :
    Granted x (doubling i) := by
  intro _ full
  rw [doubled.entries] at full
  rcases Nat.lt_or_eq_of_le few with less | all
  · obtain ⟨whole, m, _, _, double, bound⟩ := doubled.full less full
    have block : (doubling i).alloc.block = 16 * i := if_neg (Nat.ne_of_lt less)
    constructor
    · rw [block]
      omega
    · rw [block, doubled.base]
      omega
    · exact fun _ _ _ _ => rfl
    · exact fun _ _ _ _ => rfl
  · have block : (doubling i).alloc.block = 8 := if_pos all
    have le := doubled.le
    have inside := doubled.inside
    constructor
    · rw [block]
      omega
    · rw [block, doubled.base]
      omega
    · exact fun _ _ _ _ => rfl
    · exact fun _ _ _ _ => rfl

theorem logEntry_doubling (i : Nat) (x : List (EntryCall × Nat) × Gdt) :
    ∃ y, logEntry x (doubling i) = some y ∧ ∃ mem,
      y.2 = { countEntry (doubling i).alloc x.2 with mem := mem } :=
  ⟨_, rfl, _, rfl⟩

theorem doubling_next (doubled : Doubled i x.2) (few : i < 2 ^ 60) :
    ∃ y, logEntry x (doubling i) = some y ∧ Doubled (i + 1) y.2 := by
  obtain ⟨y, eq, mem, is⟩ := logEntry_doubling i x
  refine ⟨y, eq, ?_⟩
  have next : (x.2.entries + 1) % 2 ^ 64 = i + 1 := by
    rw [doubled.entries]
    omega
  have inside := doubled.inside
  rw [is]
  by_cases full : x.2.allocatedSize / gdtEntrySize = x.2.entries
  · obtain ⟨whole, m, low, high, double, bound⟩ := doubled.full few (doubled.entries ▸ full)
    have block : (doubling i).alloc.block = 16 * i := if_neg (Nat.ne_of_lt few)
    have many : 2 ^ 5 ≤ 2 ^ m := Nat.pow_le_pow_right (by decide) low
    simp only [countEntry, if_pos full, next, block]
    exact ⟨rfl, by dsimp only; omega, ⟨m, low, high, by dsimp only; omega⟩, by dsimp only; omega⟩
  · simp only [countEntry, if_neg full, next]
    rw [doubled.entries] at full
    unfold gdtEntrySize at full
    exact ⟨rfl, doubled.base, doubled.power, by dsimp only; omega⟩

theorem doubling_granted (doubled : Doubled i x.2) (few : i + n ≤ 2 ^ 60 + 1) :
    All logEntry Granted x ((List.range' i n).map doubling) := by
  induction n generalizing i x with
  | zero => trivial
  | succ n ih =>
    refine ⟨doubled.granted (by omega), fun y eq => ?_⟩
    rcases Nat.lt_or_ge i (2 ^ 60) with less | all
    · obtain ⟨y', eq', next⟩ := doubling_next doubled less
      cases eq.symm.trans eq'
      exact ih next (by omega)
    · obtain rfl : n = 0 := by omega
      trivial

theorem doubling_wraps (doubled : Doubled i x.2) (few : i + n = 2 ^ 60) :
    ∃ y, run logEntry x ((List.range' i (n + 1)).map doubling) = some y ∧
      y.2.entries = 2 ^ 60 + 1 ∧ y.2.allocatedSize = 0 := by
  induction n generalizing i x with
  | zero =>
    obtain ⟨y, eq, mem, is⟩ := logEntry_doubling i x
    have le := doubled.le
    have inside := doubled.inside
    have size : x.2.allocatedSize = 2 ^ 63 := by omega
    have full : x.2.allocatedSize / gdtEntrySize = x.2.entries := by
      rw [doubled.entries, size]
      unfold gdtEntrySize
      omega
    refine ⟨y, by rw [List.range'_one, List.map_singleton, run, eq]; rfl, ?_, ?_⟩
    · rw [is, countEntry, if_pos full]
      show (x.2.entries + 1) % 2 ^ 64 = _
      rw [doubled.entries]
      omega
    · rw [is, countEntry, if_pos full]
      show x.2.allocatedSize * 2 % 2 ^ 64 = 0
      omega
  | succ n ih =>
    obtain ⟨y, eq, next⟩ := doubling_next doubled (by omega)
    obtain ⟨z, eq', wraps⟩ := ih next (by omega)
    refine ⟨z, ?_, wraps⟩
    rw [List.range'_succ, List.map_cons, run, eq, Option.bind_some, eq']

theorem doubled_first (log : List (EntryCall × Nat)) : Doubled 0 (log, tableAt32).2 :=
  ⟨rfl, rfl, ⟨5, by decide, by decide, rfl⟩, Nat.zero_le _⟩

theorem firstTable_at32 : FirstTable tableAt32 := ⟨rfl, rfl, by decide⟩

end Doubling

theorem addEntry_sequence_five : FirstTable tableAt32 ∧
    ∃ log t, run logEntry ([], tableAt32) ((List.range' 0 5).map doubling) = some (log, t) ∧
      EntriesKept (log, t) ∧ log.map Prod.snd = [0, 8, 16, 24, 32] ∧ t.base = 64 := by
  obtain ⟨log, t, eq, kept, _⟩ := addEntry_sequence tableAt32 ((List.range' 0 5).map doubling)
    firstTable_at32 (doubling_granted (doubled_first []) (by decide)) (by decide)
  refine ⟨firstTable_at32, log, t, eq, kept, ?_⟩
  cases eq
  exact ⟨by decide, by decide⟩

theorem addEntry_size_wraps : FirstTable tableAt32 ∧
    All logEntry Granted ([], tableAt32) ((List.range' 0 (2 ^ 60 + 1)).map doubling) ∧
    ∃ y, run logEntry ([], tableAt32) ((List.range' 0 (2 ^ 60 + 1)).map doubling) = some y ∧
      ¬gdtEntrySize * y.2.entries ≤ y.2.allocatedSize := by
  refine ⟨firstTable_at32, doubling_granted (doubled_first []) (by omega), ?_⟩
  obtain ⟨y, eq, entries, size⟩ := doubling_wraps (doubled_first []) (Nat.zero_add (2 ^ 60))
  refine ⟨y, eq, ?_⟩
  rw [entries, size]
  unfold gdtEntrySize
  omega

end Gapxos
