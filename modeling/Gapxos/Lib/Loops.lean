import Mathlib.Tactic.Common

/-! Do-while loops, and the state of one that turns a sequence round from both ends. -/
namespace Loops

section DoWhile

variable {S : Type} {body : S → Option S} {again : S → Bool}

def doWhile (body : S → Option S) (again : S → Bool) : Nat → S → Option S
  | 0, _ => none
  | n + 1, s => (body s).bind fun s => if again s then doWhile body again n s else some s

theorem doWhile_total (Inv Post : S → Prop) (measure : S → Nat)
    (step : ∀ s, Inv s → ∃ s', body s = some s' ∧ (again s' = false → Post s') ∧
      (again s' = true → Inv s' ∧ measure s' < measure s))
    {n : Nat} {s : S} (inv : Inv s) (enough : measure s < n) :
    ∃ s', doWhile body again n s = some s' ∧ Post s' := by
  induction n generalizing s with
  | zero => exact absurd enough (Nat.not_lt_zero _)
  | succ n ih =>
    obtain ⟨s', eq, ends, goes⟩ := step s inv
    rw [doWhile, eq, Option.bind_some]
    cases more : again s' with
    | false => exact ⟨s', if_neg Bool.false_ne_true, ends more⟩
    | true =>
      obtain ⟨inv', less⟩ := goes more
      rw [if_pos rfl]
      exact ih inv' (by omega)

end DoWhile

section Turn

variable {α : Type} {n j : Nat} {f g g' : Nat → α}

/-- `g` is `f` with the first and the last `j` of its `n` places exchanged. -/
def Turned (n j : Nat) (f g : Nat → α) : Prop :=
  ∀ i < n, g i = if i < j ∨ n ≤ i + j then f (n - 1 - i) else f i

theorem turned_zero (n : Nat) (f : Nat → α) : Turned n 0 f f := by
  intro i less
  rw [if_neg (by omega)]

theorem Turned.swap (turned : Turned n j f g) (fits : 2 * j < n) (first : g' j = g (n - 1 - j))
    (last : g' (n - 1 - j) = g j) (rest : ∀ i < n, i ≠ j → i ≠ n - 1 - j → g' i = g i) :
    Turned n (j + 1) f g' := by
  intro i less
  by_cases low : i = j
  · rw [low, first, turned (n - 1 - j) (by omega), if_neg (by omega), if_pos (by omega)]
  · by_cases high : i = n - 1 - j
    · rw [high, last, turned j (by omega), if_neg (by omega), if_pos (by omega)]
      congr 1
      omega
    · rw [rest i less low high, turned i less]
      split
      · rw [if_pos (by omega)]
      · rw [if_neg (by omega)]

theorem Turned.whole (turned : Turned n j f g) (all : n ≤ 2 * j + 1) {i : Nat} (less : i < n) :
    g i = f (n - 1 - i) := by
  rw [turned i less]
  split
  · rfl
  · congr 1
    omega

end Turn

end Loops
