import Gapxos.Vmm.NodeList

/-! find_0_bit with its two loops. Both count upwards until a test stops them or their bound
does; the second one runs over the bits of the word at which the first one ended. -/
namespace Gapxos
open Radix

/- A loop from `i` on that makes at most `n` rounds: where it ends, and the indices that were
tested. -/
def countUp (stop : Nat → Bool) : Nat → Nat → Nat × List Nat
  | 0, i => (i, [])
  | n + 1, i =>
    if stop i then (i, [i])
    else
      let rest := countUp stop n (i + 1)
      (rest.1, i :: rest.2)

def header64s : Nat := nodesPerPage / 64

def headerWord (page : Fin 512 → Word) (i : Nat) : Word := page (2 + Fin.ofNat 512 i)

/- The result, and the indices of the words of the header that are read. The first loop reads
a word in each round; the second one reads the same word again and again. -/
def find0BitLoops (page : Fin 512 → Word) : Option Nat × List Nat :=
  let words := countUp (fun i => headerWord page i != BitVec.allOnes 64) header64s 0
  let i := words.1
  let maxBit := if header64s ≤ i then headerBits else 64
  let bits := countUp (fun j => !(headerWord page i).getLsbD j) maxBit 0
  (if maxBit ≤ bits.1 then none else some (i * 64 + bits.1), words.2 ++ bits.2.map fun _ => i)

/-- The least of the first `n` bits that is 0; none if all are 1. -/
def FirstClear (bit : Nat → Bool) (n : Nat) : Option Nat → Prop
  | none => ∀ k < n, bit k = true
  | some i => i < n ∧ bit i = false ∧ ∀ k < i, bit k = true

theorem FirstClear.unique {bit : Nat → Bool} {n : Nat} {r r' : Option Nat}
    (first : FirstClear bit n r) (first' : FirstClear bit n r') : r = r' := by
  cases r with
  | none =>
    cases r' with
    | none => rfl
    | some i => exact absurd (first i first'.1) (by simp [first'.2.1])
  | some i =>
    cases r' with
    | none => exact absurd (first' i first.1) (by simp [first.2.1])
    | some j =>
      rcases Nat.lt_trichotomy i j with less | same | more
      · exact absurd (first'.2.2 i less) (by simp [first.2.1])
      · rw [same]
      · exact absurd (first.2.2 j more) (by simp [first'.2.1])

theorem FirstClear.eq_iff {bit : Nat → Bool} {n : Nat} {r r' : Option Nat}
    (first : FirstClear bit n r) : r = r' ↔ FirstClear bit n r' := by
  constructor
  · rintro rfl
    exact first
  · exact first.unique

section Loop

variable {stop : Nat → Bool} {n i : Nat}

structure CountedUp (stop : Nat → Bool) (n i : Nat) (r : Nat × List Nat) : Prop where
  low : i ≤ r.1
  high : r.1 ≤ i + n
  passed : ∀ k, i ≤ k → k < r.1 → stop k = false
  stopped : r.1 < i + n → stop r.1 = true
  tested : ∀ k ∈ r.2, k ≤ r.1 ∧ k < i + n

theorem countUp_spec (stop : Nat → Bool) (n i : Nat) : CountedUp stop n i (countUp stop n i) := by
  induction n generalizing i with
  | zero =>
    constructor
    · exact Nat.le_refl i
    · exact Nat.le_refl i
    · intro k low high
      exact absurd high (Nat.not_lt.mpr low)
    · exact fun less => absurd less (Nat.lt_irrefl i)
    · exact fun k no => nomatch no
  | succ n ih =>
    rw [countUp]
    split
    · rename_i here
      constructor
      · exact Nat.le_refl i
      · exact Nat.le_add_right i (n + 1)
      · intro k low high
        exact absurd high (Nat.not_lt.mpr low)
      · exact fun _ => here
      · intro k inside
        rw [List.mem_singleton.mp inside]
        exact ⟨Nat.le_refl i, by omega⟩
    · rename_i on
      have rest := ih (i + 1)
      have low := rest.low
      have high := rest.high
      constructor
      · exact Nat.le_of_succ_le low
      · dsimp only
        omega
      · intro k from_ upto
        rcases Nat.eq_or_lt_of_le from_ with rfl | later
        · exact Bool.eq_false_iff.mpr on
        · exact rest.passed k later upto
      · intro less
        exact rest.stopped (by dsimp only at less; omega)
      · intro k inside
        rcases List.mem_cons.mp inside with rfl | inside
        · exact ⟨Nat.le_of_succ_le low, by omega⟩
        · have bound := rest.tested k inside
          exact ⟨bound.1, by omega⟩

end Loop

section Header

variable {page : Fin 512 → Word} {i j k : Nat}

theorem slotBit_word (page : Fin 512 → Word) (i : Nat) (less : j < 64) :
    slotBit page (i * 64 + j) = (headerWord page i).getLsbD j := by
  rw [slotBit, slotWord, headerWord, show (i * 64 + j) / 64 = i by omega,
    show (i * 64 + j) % 64 = j by omega]

theorem slotBit_full (full : headerWord page (k / 64) = BitVec.allOnes 64) :
    slotBit page k = true := by
  have less : k % 64 < 64 := Nat.mod_lt k (by decide)
  rw [← Nat.div_add_mod' k 64, slotBit_word page _ less, full, BitVec.getLsbD_allOnes]
  exact decide_eq_true less

theorem word_full_iff {w : Word} : w = BitVec.allOnes 64 ↔ ∀ j < 64, w.getLsbD j = true := by
  constructor
  · rintro rfl j less
    rw [BitVec.getLsbD_allOnes, decide_eq_true less]
  · intro all
    apply BitVec.eq_of_getLsbD_eq
    intro j less
    rw [all j less, BitVec.getLsbD_allOnes, decide_eq_true less]

end Header

/- The end of both loops. A word that is not full ends the first one, so the second one has a
bit to find in it; behind the full words there are the bits of the last one. -/
theorem loops_firstClear {page : Fin 512 → Word} {words bits : Nat × List Nat} {maxBit : Nat}
    (first : CountedUp (fun i => headerWord page i != BitVec.allOnes 64) header64s 0 words)
    (bound : maxBit = if header64s ≤ words.1 then headerBits else 64)
    (second : CountedUp (fun j => !(headerWord page words.1).getLsbD j) maxBit 0 bits) :
    FirstClear (slotBit page) nodesPerPage
      (if maxBit ≤ bits.1 then none else some (words.1 * 64 + bits.1)) := by
  have sizes : header64s * 64 + headerBits = nodesPerPage := by decide
  have few : headerBits < 64 := by decide
  have range := first.high
  have upto := second.high
  have width : maxBit ≤ 64 ∧ words.1 * 64 + maxBit ≤ nodesPerPage := by
    split at bound <;> omega
  have set_ : ∀ k < words.1 * 64 + bits.1, slotBit page k = true := by
    intro k less
    by_cases word : k / 64 < words.1
    · have full := first.passed (k / 64) (Nat.zero_le _) word
      exact slotBit_full (by simpa using full)
    · have bit := second.passed (k - words.1 * 64) (Nat.zero_le _) (by omega)
      rw [show k = words.1 * 64 + (k - words.1 * 64) by omega, slotBit_word page _ (by omega)]
      simpa using bit
  by_cases all : maxBit ≤ bits.1
  · rw [if_pos all]
    by_cases last : header64s ≤ words.1
    · rw [if_pos last] at bound
      intro k less
      exact set_ k (by omega)
    · -- the first loop stopped at this word because it is not full
      rw [if_neg last] at bound
      have part : headerWord page words.1 ≠ BitVec.allOnes 64 := by
        simpa using first.stopped (by omega)
      refine absurd (word_full_iff.mpr fun j less => ?_) part
      rw [← slotBit_word page _ less]
      exact set_ _ (by omega)
  · rw [if_neg all]
    have clear := second.stopped (by omega)
    refine ⟨by omega, ?_, set_⟩
    rw [slotBit_word page _ (by omega)]
    simpa using clear

theorem find0BitLoops_firstClear (page : Fin 512 → Word) :
    FirstClear (slotBit page) nodesPerPage (find0BitLoops page).1 :=
  loops_firstClear (countUp_spec _ _ _) rfl (countUp_spec _ _ _)

theorem find0BitLoops_reads (page : Fin 512 → Word) :
    ∀ i ∈ (find0BitLoops page).2, i * 8 + 8 ≤ headerBytes := by
  have bytes : (header64s + 1) * 8 = headerBytes := by decide
  have words := countUp_spec (fun i => headerWord page i != BitVec.allOnes 64) header64s 0
  intro i inside
  rcases List.mem_append.mp inside with read | read
  · have := (words.tested i read).2
    omega
  · obtain ⟨_, _, rfl⟩ := List.mem_map.mp read
    have := words.high
    omega

theorem countUp_find (stop : Nat → Bool) (n i : Nat) : (List.range' i n).find? stop =
    if i + n ≤ (countUp stop n i).1 then none else some (countUp stop n i).1 := by
  induction n generalizing i with
  | zero => simp [countUp]
  | succ n ih =>
    rw [List.range'_succ, List.find?_cons, countUp]
    cases here : stop i with
    | true => simp
    | false =>
      simp only [ih, Bool.false_eq_true, if_false]
      rw [Nat.add_right_comm, Nat.add_assoc i n 1]

theorem find0Bit_loops (page : Fin 512 → Word) : find0Bit page = (find0BitLoops page).1 := by
  have one : header64s = 1 := rfl
  have words : (countUp (fun i => headerWord page i != BitVec.allOnes 64) header64s 0).1 =
      if page 2 ≠ BitVec.allOnes 64 then 0 else 1 := by
    have two : headerWord page 0 = page 2 := rfl
    rw [one, countUp, two]
    by_cases full : page 2 = BitVec.allOnes 64
    · rw [full, bne_self_eq_false, if_neg (by decide), if_neg (not_not_intro rfl), countUp]
    · rw [if_pos (bne_iff_ne.mpr full), if_pos full]
  simp only [find0Bit, find0BitLoops, words, List.range_eq_range', countUp_find, Nat.zero_add]
  generalize (if page 2 ≠ BitVec.allOnes 64 then 0 else 1) = i
  rw [one]
  unfold headerWord
  split
  · split
    · rfl
    · rfl
  · split
    · rfl
    · rfl

theorem find0Bit_firstClear (page : Fin 512 → Word) :
    FirstClear (slotBit page) nodesPerPage (find0Bit page) := by
  rw [find0Bit_loops]
  exact find0BitLoops_firstClear page

theorem find0Bit_some {header : Fin 512 → Word} {idx : Nat} (h : find0Bit header = some idx) :
    idx < nodesPerPage ∧ slotBit header idx = false ∧
      (64 ≤ idx → header 2 = BitVec.allOnes 64) := by
  have first := find0Bit_firstClear header
  rw [h] at first
  obtain ⟨less, clear, before⟩ := first
  refine ⟨less, clear, fun above => word_full_iff.mpr fun j small => ?_⟩
  have bit := before (0 * 64 + j) (by omega)
  rwa [slotBit_word header 0 small] at bit

theorem find0Bit_none {header : Fin 512 → Word} :
    find0Bit header = none ↔ ∀ k < nodesPerPage, slotBit header k = true :=
  (find0Bit_firstClear header).eq_iff

/-- Whatever the header holds, in its bits behind the last node too. -/
theorem find0Bit_finds_least (page : Fin 512 → Word) :
    (∀ i, (find0BitLoops page).1 = some i ↔
      i < nodesPerPage ∧ slotBit page i = false ∧ ∀ k < i, slotBit page k = true) ∧
    ((find0BitLoops page).1 = none ↔ ∀ k < nodesPerPage, slotBit page k = true) ∧
    ∀ i ∈ (find0BitLoops page).2, i * 8 + 8 ≤ headerBytes := by
  have first := find0BitLoops_firstClear page
  exact ⟨fun i => first.eq_iff, first.eq_iff, find0BitLoops_reads page⟩

end Gapxos
