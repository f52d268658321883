import Mathlib.Data.Set.Insert
import Mathlib.Order.Defs.LinearOrder

/-! A running least and greatest element. A scan widens a pair of bounds to hold the set that it
visits; scans that follow each other, or lie in each other, are put together from their parts. -/
namespace Spans

variable {α ι : Type} [LinearOrder α]

/-- From the bounds `a` to the bounds `b` the set `S` was taken in, and nothing else. -/
structure Takes (S : Set α) (a b : α × α) : Prop where
  low : b.1 ≤ a.1
  high : a.2 ≤ b.2
  holds : ∀ x ∈ S, b.1 ≤ x ∧ x ≤ b.2
  least : b.1 = a.1 ∨ b.1 ∈ S
  greatest : b.2 = a.2 ∨ b.2 ∈ S

def widen (x : α) (a : α × α) : α × α :=
  (if x < a.1 then x else a.1, if x > a.2 then x else a.2)

variable {S T : Set α} {a b c : α × α}

theorem takes_nothing (a : α × α) : Takes ∅ a a :=
  ⟨le_refl _, le_refl _, fun _ no => no.elim, .inl rfl, .inl rfl⟩

theorem takes_widen (x : α) (a : α × α) : Takes {x} a (widen x a) := by
  have low : (widen x a).1 ≤ a.1 ∧ (widen x a).1 ≤ x ∧
      ((widen x a).1 = a.1 ∨ (widen x a).1 = x) := by
    unfold widen
    split
    · rename_i less
      exact ⟨le_of_lt less, le_refl x, .inr rfl⟩
    · rename_i above
      exact ⟨le_refl _, not_lt.mp above, .inl rfl⟩
  have high : a.2 ≤ (widen x a).2 ∧ x ≤ (widen x a).2 ∧
      ((widen x a).2 = a.2 ∨ (widen x a).2 = x) := by
    unfold widen
    dsimp only
    split
    · rename_i more
      exact ⟨le_of_lt more, le_refl x, .inr rfl⟩
    · rename_i below
      exact ⟨le_refl _, not_lt.mp below, .inl rfl⟩
  refine ⟨low.1, high.1, ?_, low.2.2, high.2.2⟩
  rintro y rfl
  exact ⟨low.2.1, high.2.1⟩

theorem Takes.trans (first : Takes S a b) (second : Takes T b c) : Takes (S ∪ T) a c := by
  constructor
  · exact le_trans second.low first.low
  · exact le_trans first.high second.high
  · rintro x (inS | inT)
    · obtain ⟨low, high⟩ := first.holds x inS
      exact ⟨le_trans second.low low, le_trans high second.high⟩
    · exact second.holds x inT
  · rcases second.least with same | inT
    · rw [same]
      exact first.least.imp id .inl
    · exact .inr (.inr inT)
  · rcases second.greatest with same | inT
    · rw [same]
      exact first.greatest.imp id .inl
    · exact .inr (.inr inT)

theorem takes_foldl {f : α × α → ι → α × α} {S : ι → Set α} (step : ∀ a i, Takes (S i) a (f a i))
    (l : List ι) (a : α × α) : Takes {x | ∃ i ∈ l, x ∈ S i} a (l.foldl f a) := by
  induction l generalizing a with
  | nil => simpa using takes_nothing a
  | cons i l ih =>
    have all : {x | ∃ j ∈ i :: l, x ∈ S j} = S i ∪ {x | ∃ j ∈ l, x ∈ S j} := by
      ext x
      simp
    rw [all, List.foldl_cons]
    exact (step a i).trans (ih (f a i))

end Spans
