import Gapxos.Lib.Bytes
import Mathlib.Data.Set.Function
import Mathlib.Order.Interval.Set.Defs

/-! Byte memory behind a translation of addresses that is itself kept in the memory. A program
that only changes bytes off the translation of what it uses runs as if there were none. -/
namespace Translated
open Bytes

/-- A number of `n` bytes, each of them looked up. -/
def load (at_ : Nat → Option Nat) (m : Memory) (a : Nat) : Nat → Option Nat
  | 0 => some 0
  | n + 1 => do
    let x ← at_ a
    let rest ← load at_ m (a + 1) n
    some ((m x).toNat + 256 * rest)

def store (at_ : Nat → Option Nat) (m : Memory) (a : Nat) : Nat → Nat → Option Memory
  | 0, _ => some m
  | n + 1, w => do
    let x ← at_ a
    store at_ (write m x 1 w) (a + 1) n (w / 256)

/-- What is at its own address in `m₀` is so in every memory that differs only in `W`. -/
def Steady (translate : Memory → Nat → Option Nat) (W : Set Nat) (m₀ : Memory) : Prop :=
  ∀ m, Set.EqOn m m₀ Wᶜ → ∀ a, translate m₀ a = some a → translate m a = some a

/-- The bytes of `W` that are at their own addresses. -/
def Own (translate : Memory → Nat → Option Nat) (W : Set Nat) (m₀ : Memory) : Set Nat :=
  {x | x ∈ W ∧ translate m₀ x = some x}

section Self

variable {at_ : Nat → Option Nat} {a n : Nat}

theorem load_self (m : Memory) (self : ∀ x ∈ Set.Ico a (a + n), at_ x = some x) :
    load at_ m a n = some (read m a n) := by
  induction n generalizing a with
  | zero => rfl
  | succ n ih =>
    have rest : load at_ m (a + 1) n = some (read m (a + 1) n) :=
      ih fun x inside => self x ⟨by have := inside.1; omega, by have := inside.2; omega⟩
    rw [load, self a ⟨Nat.le_refl a, by omega⟩, Option.bind_eq_bind, Option.bind_some, rest,
      Bytes.read]
    rfl

theorem write_succ (m : Memory) (a n w : Nat) :
    write (write m a 1 w) (a + 1) n (w / 256) = write m a (n + 1) w := by
  funext x
  by_cases first : x = a
  · subst first
    rw [write_other (by omega), write_one, if_pos rfl, write, if_pos (by omega), Nat.sub_self,
      Nat.pow_zero, Nat.div_one]
  · by_cases rest : a + 1 ≤ x ∧ x < a + 1 + n
    · obtain ⟨d, rfl⟩ := Nat.exists_eq_add_of_le rest.1
      rw [write, if_pos rest, write, if_pos (by omega), Nat.div_div_eq_div_mul, ← Nat.pow_succ',
        Nat.add_sub_cancel_left, show a + 1 + d - a = d + 1 by omega]
    · rw [write_other (by omega), write_other (by omega), write_other (by omega)]

theorem store_self (m : Memory) (w : Nat) (self : ∀ x ∈ Set.Ico a (a + n), at_ x = some x) :
    store at_ m a n w = some (write m a n w) := by
  induction n generalizing a m w with
  | zero =>
    rw [store]
    congr 1
    funext x
    exact (write_other (by omega)).symm
  | succ n ih =>
    rw [store, self a ⟨Nat.le_refl a, by omega⟩, Option.bind_eq_bind, Option.bind_some,
      ih (write m a 1 w) (w / 256), write_succ]
    exact fun x inside => self x ⟨by have := inside.1; omega, by have := inside.2; omega⟩

end Self

section Steady

variable {translate : Memory → Nat → Option Nat} {W W' : Set Nat} {m₀ m : Memory} {a n w : Nat}

theorem Steady.load (steady : Steady translate W m₀) (now : Set.EqOn m m₀ Wᶜ)
    (self : ∀ x ∈ Set.Ico a (a + n), translate m₀ x = some x) :
    load (translate m) m a n = some (read m a n) :=
  load_self m fun x inside => steady m now x (self x inside)

theorem Steady.store (steady : Steady translate W m₀) (now : Set.EqOn m m₀ Wᶜ)
    (own : Set.Ico a (a + n) ⊆ Own translate W m₀) (w : Nat) :
    store (translate m) m a n w = some (write m a n w) :=
  store_self m w fun x inside => steady m now x (own inside).2

theorem eqOn_write (now : Set.EqOn m m₀ Wᶜ) (inside : Set.Ico a (a + n) ⊆ W) :
    Set.EqOn (write m a n w) m₀ Wᶜ := by
  intro x off
  rw [write_other, now off]
  by_contra hit
  exact off (inside ⟨by omega, by omega⟩)

theorem Steady.mono (steady : Steady translate W m₀) (less : W' ⊆ W) : Steady translate W' m₀ :=
  fun m now => steady m (now.mono (Set.compl_subset_compl.mpr less))

end Steady

end Translated
