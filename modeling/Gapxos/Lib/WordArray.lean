import Mathlib.Data.List.Basic
import Gapxos.Lib.Bytes

/-! An array of 64-bit words in byte memory, and the list of its words. -/
namespace WordArray
open Bytes

/-- The `n` words from address `a` on. -/
def words (m : Memory) (a n : Nat) : List Nat := (List.range n).map fun i => read m (a + 8 * i) 8

variable {m m' : Memory} {a n i w : Nat}

@[simp] theorem words_length (m : Memory) (a n : Nat) : (words m a n).length = n := by
  simp [words]

theorem words_getElem? (m : Memory) (a : Nat) (less : i < n) :
    (words m a n)[i]? = some (read m (a + 8 * i) 8) := by
  simp [words, less]

theorem words_succ (m : Memory) (a n : Nat) :
    words m a (n + 1) = words m a n ++ [read m (a + 8 * n) 8] := by
  simp [words, List.range_succ]

theorem words_congr (same : ∀ x, a ≤ x → x < a + 8 * n → m' x = m x) :
    words m' a n = words m a n := by
  apply List.map_congr_left
  intro i inside
  rw [List.mem_range] at inside
  exact read_congr fun x low high => same x (by omega) (by omega)

theorem read_write_word (m : Memory) (a : Nat) (small : w < 2 ^ 64) :
    read (write m a 8 w) a 8 = w := by
  rw [read_write_same, show 256 ^ 8 = 2 ^ 64 by decide, Nat.mod_eq_of_lt small]

theorem words_push (m : Memory) (a n : Nat) (small : w < 2 ^ 64) :
    words (write m (a + 8 * n) 8 w) a (n + 1) = words m a n ++ [w] := by
  have before : words (write m (a + 8 * n) 8 w) a n = words m a n := by
    apply words_congr
    intro x _ high
    exact write_other (.inl high)
  rw [words_succ, before, read_write_word m (a + 8 * n) small]

theorem words_set (m : Memory) (a : Nat) (less : i < n) (small : w < 2 ^ 64) :
    words (write m (a + 8 * i) 8 w) a n = (words m a n).set i w := by
  apply List.ext_getElem?
  intro j
  rcases Nat.lt_or_ge j n with inside | outside
  · rw [words_getElem? _ a inside, List.getElem?_set, words_length, words_getElem? m a inside]
    by_cases same : i = j
    · rw [if_pos same, if_pos less, ← same, read_write_word m (a + 8 * i) small]
    · rw [if_neg same, read_write_other (by omega)]
  · rw [List.getElem?_eq_none (by simpa using outside),
      List.getElem?_eq_none (by simpa using outside)]

end WordArray
