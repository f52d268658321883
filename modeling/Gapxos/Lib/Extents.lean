import Mathlib.Algebra.GroupWithZero.Nat
import Mathlib.Data.List.Pairwise
import Mathlib.Order.Interval.Finset.Nat

/-! Pieces of an address space that do not overlap. A piece is named by its first address;
`ext` says how far it extends. -/
namespace Extents

def Off (ext : Nat → Nat) (a b : Nat) : Prop := a + ext a ≤ b ∨ b + ext b ≤ a

def Apart (ext : Nat → Nat) (xs : List Nat) : Prop := xs.Pairwise (Off ext)

variable {ext ext' : Nat → Nat} {xs ys : List Nat} {x y : Nat}

instance : Std.Symm (Off ext) := ⟨fun _ _ => Or.symm⟩

theorem Apart.perm (h : Apart ext xs) (p : xs.Perm ys) : Apart ext ys :=
  (p.pairwise_iff fun off => Or.symm off).mp h

theorem Apart.off (h : Apart ext xs) (one : x ∈ xs) (other : y ∈ xs) (ne : x ≠ y) : Off ext x y :=
  List.Pairwise.forall h one other ne

theorem Apart.nodup (h : Apart ext xs) (pos : ∀ x ∈ xs, 0 < ext x) : xs.Nodup := by
  refine (List.Pairwise.and_mem.mp h).imp fun {a b} both same => ?_
  obtain ⟨one, _, off⟩ := both
  have := pos a one
  subst same
  rcases off with off | off <;> omega

theorem Apart.rest (h : Apart ext xs) (same : ∀ z ∈ xs, ext' z = ext z) : Apart ext' xs := by
  refine (List.Pairwise.and_mem.mp h).imp fun {a b} both => ?_
  obtain ⟨one, other, off⟩ := both
  rw [Off, same a one, same b other]
  exact off

theorem Apart.split (h : Apart ext (x :: xs)) (same : ∀ z ∈ xs, ext' z = ext z)
    (low : x + ext' x ≤ y) (high : y + ext' y ≤ x + ext x) : Apart ext' (y :: x :: xs) := by
  obtain ⟨off, apart⟩ := List.pairwise_cons.mp h
  refine List.pairwise_cons.mpr ⟨fun z inside => ?_,
    List.pairwise_cons.mpr ⟨fun z inside => ?_, Apart.rest apart same⟩⟩
  · rcases List.mem_cons.mp inside with rfl | inside
    · exact .inr low
    · have kept := same z inside
      rcases off z inside with below | above
      · exact .inl (by omega)
      · exact .inr (by omega)
  · have kept := same z inside
    rcases off z inside with below | above
    · exact .inl (by omega)
    · exact .inr (by omega)

theorem Apart.join (h : Apart ext (x :: y :: xs)) (same : ∀ z ∈ xs, ext' z = ext z)
    (pos : ∀ z ∈ xs, 0 < ext z) (meet : x + ext x = y) (size : ext' x = ext x + ext y) :
    Apart ext' (x :: xs) := by
  obtain ⟨first, tail⟩ := List.pairwise_cons.mp h
  obtain ⟨second, apart⟩ := List.pairwise_cons.mp tail
  refine List.pairwise_cons.mpr ⟨fun z inside => ?_, Apart.rest apart same⟩
  have kept := same z inside
  have some := pos z inside
  -- nothing lies between the two
  rcases first z (List.mem_cons_of_mem y inside) with below | above
  · rcases second z inside with below' | above'
    · exact .inl (by omega)
    · omega
  · exact .inr (by omega)

theorem sum_le_of_apart {ranges : List (Nat × Nat)} {lo hi : Nat}
    (apart : ranges.Pairwise fun r s =>
      ∀ a, ¬ ((r.1 ≤ a ∧ a < r.1 + r.2) ∧ s.1 ≤ a ∧ a < s.1 + s.2))
    (inside : ∀ r ∈ ranges, lo ≤ r.1 ∧ r.1 + r.2 ≤ hi) :
    (ranges.map Prod.snd).sum ≤ hi - lo := by
  -- the numbers that are covered, counted
  have cover : ∃ S : Finset Nat, S.card = (ranges.map Prod.snd).sum ∧
      ∀ a, a ∈ S ↔ ∃ r ∈ ranges, r.1 ≤ a ∧ a < r.1 + r.2 := by
    clear inside
    induction ranges with
    | nil => exact ⟨∅, by simp, by simp⟩
    | cons r ranges ih =>
      obtain ⟨off, apart⟩ := List.pairwise_cons.mp apart
      obtain ⟨S, card, mem⟩ := ih apart
      have disjoint : Disjoint (Finset.Ico r.1 (r.1 + r.2)) S := by
        refine Finset.disjoint_left.mpr fun a low high => ?_
        obtain ⟨s, there, range⟩ := (mem a).mp high
        exact off s there a ⟨Finset.mem_Ico.mp low, range⟩
      refine ⟨Finset.Ico r.1 (r.1 + r.2) ∪ S, ?_, fun a => ?_⟩
      · rw [Finset.card_union_of_disjoint disjoint, Nat.card_Ico, card]
        simp
      · simp [mem]
  obtain ⟨S, card, mem⟩ := cover
  rw [← card, ← Nat.card_Ico]
  refine Finset.card_le_card fun a covered => ?_
  obtain ⟨r, there, low, high⟩ := (mem a).mp covered
  have := inside r there
  exact Finset.mem_Ico.mpr (by omega)

end Extents
