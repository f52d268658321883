import Mathlib.Data.List.Basic

/-! Lists of blocks that cover an interval of addresses without gap or overlap.
A block is anything with a first address and a length. -/
namespace Tiling

variable {β : Type} (first len : β → Nat)

/-- The blocks, in order, cover exactly the addresses from `lo` up to `hi`. -/
def Tiles (lo hi : Nat) : List β → Prop
  | [] => lo = hi
  | b :: bs => first b = lo ∧ 0 < len b ∧ Tiles (lo + len b) hi bs

instance decidableTiles (hi : Nat) : ∀ lo bs, Decidable (Tiles first len lo hi bs)
  | lo, [] => inferInstanceAs (Decidable (lo = hi))
  | lo, b :: bs =>
    have := decidableTiles hi (lo + len b) bs
    inferInstanceAs (Decidable (first b = lo ∧ 0 < len b ∧ Tiles first len (lo + len b) hi bs))

variable {first len} {lo hi : Nat}

theorem tiles_append {xs ys : List β} : Tiles first len lo hi (xs ++ ys) ↔
    ∃ mid, Tiles first len lo mid xs ∧ Tiles first len mid hi ys := by
  induction xs generalizing lo with
  | nil => simp [Tiles]
  | cons b xs ih => simp [Tiles, ih, and_assoc]

theorem tiles_middle {xs ys : List β} {b : β} : Tiles first len lo hi (xs ++ b :: ys) ↔
    Tiles first len lo (first b) xs ∧ 0 < len b ∧
      Tiles first len (first b + len b) hi ys := by
  rw [tiles_append]
  constructor
  · rintro ⟨mid, before, rfl, pos, after⟩
    exact ⟨before, pos, after⟩
  · rintro ⟨before, pos, after⟩
    exact ⟨first b, before, rfl, pos, after⟩

theorem tiles_le {bs : List β} (h : Tiles first len lo hi bs) : lo ≤ hi := by
  induction bs generalizing lo with
  | nil => exact Nat.le_of_eq h
  | cons b bs ih =>
    have := ih h.2.2
    omega

theorem tiles_mem {bs : List β} (h : Tiles first len lo hi bs) {b : β} (inside : b ∈ bs) :
    lo ≤ first b ∧ 0 < len b ∧ first b + len b ≤ hi := by
  obtain ⟨xs, ys, rfl⟩ := List.append_of_mem inside
  obtain ⟨before, pos, after⟩ := tiles_middle.mp h
  exact ⟨tiles_le before, pos, tiles_le after⟩

theorem tiles_length {bs : List β} {k : Nat} (h : Tiles first len lo hi bs)
    (large : ∀ b ∈ bs, k ≤ len b) : lo + k * bs.length ≤ hi := by
  induction bs generalizing lo with
  | nil =>
    have same : lo = hi := h
    simp [same]
  | cons b bs ih =>
    have rest := ih h.2.2 fun c inside => large c (List.mem_cons_of_mem _ inside)
    have here := large b List.mem_cons_self
    rw [List.length_cons, Nat.mul_succ]
    omega

theorem tiles_pairwise {bs : List β} (h : Tiles first len lo hi bs) :
    bs.Pairwise fun b c => first b + len b ≤ first c := by
  induction bs generalizing lo with
  | nil => exact List.Pairwise.nil
  | cons b bs ih =>
    refine List.Pairwise.cons (fun c inside => ?_) (ih h.2.2)
    have := (tiles_mem h.2.2 inside).1
    have := h.1
    omega

theorem tiles_sorted {bs : List β} (h : Tiles first len lo hi bs) :
    bs.Pairwise fun b c => first b < first c := by
  refine (tiles_pairwise h).imp_of_mem fun {b c} inside _ before => ?_
  have := (tiles_mem h inside).2.1
  omega

theorem tiles_apart {bs : List β} (h : Tiles first len lo hi bs) {b c : β} (one : b ∈ bs)
    (other : c ∈ bs) (ne : first b ≠ first c) :
    first b + len b ≤ first c ∨ first c + len c ≤ first b := by
  obtain ⟨xs, ys, rfl⟩ := List.append_of_mem one
  obtain ⟨before, _, after⟩ := tiles_middle.mp h
  rw [List.mem_append, List.mem_cons] at other
  rcases other with left | rfl | right
  · exact .inr (tiles_mem before left).2.2
  · exact absurd rfl ne
  · exact .inl (tiles_mem after right).1

theorem tiles_empty {bs : List β} (h : Tiles first len lo lo bs) : bs = [] := by
  cases bs with
  | nil => rfl
  | cons b bs =>
    have := tiles_le h.2.2
    have := h.2.1
    omega

theorem tiles_before {xs ys : List β} {b c : β} (h : Tiles first len lo hi (xs ++ c :: ys))
    (inside : b ∈ xs ++ c :: ys) (ends : first b + len b = first c) : ∃ zs, xs = zs ++ [b] := by
  obtain ⟨before, pos, after⟩ := tiles_middle.mp h
  rw [List.mem_append, List.mem_cons] at inside
  rcases inside with inside | rfl | inside
  · obtain ⟨zs, ws, rfl⟩ := List.append_of_mem inside
    have rest := (tiles_middle.mp before).2.2
    rw [ends] at rest
    exact ⟨zs, by rw [tiles_empty rest]⟩
  · omega
  · have := (tiles_mem after inside).1
    omega

theorem tiles_after {xs ys : List β} {b c : β} (h : Tiles first len lo hi (xs ++ c :: ys))
    (inside : b ∈ xs ++ c :: ys) (begins : first b = first c + len c) : ∃ zs, ys = b :: zs := by
  obtain ⟨before, pos, after⟩ := tiles_middle.mp h
  rw [List.mem_append, List.mem_cons] at inside
  rcases inside with inside | rfl | inside
  · have := (tiles_mem before inside).2.2
    omega
  · omega
  · obtain ⟨zs, ws, rfl⟩ := List.append_of_mem inside
    have gap := (tiles_middle.mp after).1
    rw [begins] at gap
    exact ⟨ws, by rw [tiles_empty gap]; rfl⟩

theorem tiles_congr {bs cs : List β}
    (same : bs.map (fun b => (first b, len b)) = cs.map fun b => (first b, len b)) :
    Tiles first len lo hi bs ↔ Tiles first len lo hi cs := by
  induction bs generalizing lo cs with
  | nil =>
    cases cs with
    | nil => exact Iff.rfl
    | cons c cs => cases same
  | cons b bs ih =>
    cases cs with
    | nil => cases same
    | cons c cs =>
      simp only [List.map_cons, List.cons.injEq, Prod.mk.injEq] at same
      simp only [Tiles, same.1.1, same.1.2, ih same.2]

end Tiling
