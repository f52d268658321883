import Mathlib.Data.List.Basic

/-! Lists linked through a store. The pointers are read by functions, so a write to the
store is a change of these functions at one place. -/
namespace Linked

variable {P : Type}

def Seg (null : P) (next : P → P) : P → List P → P → Prop
  | p, [], q => p = q
  | p, x :: xs, q => p = x ∧ x ≠ null ∧ Seg null next (next x) xs q

/-- The back-pointers of `xs` lead to the element before, that of the first one to `b`. -/
def Back (prev : P → P) : P → List P → Prop
  | _, [] => True
  | b, x :: xs => prev x = b ∧ Back prev x xs

variable {null : P} {next next' prev prev' : P → P} {b p q : P} {xs ys : List P}

theorem seg_append : Seg null next p (xs ++ ys) q ↔
    ∃ m, Seg null next p xs m ∧ Seg null next m ys q := by
  induction xs generalizing p with
  | nil => simp [Seg]
  | cons x xs ih => simp [Seg, ih, and_assoc]

theorem seg_middle {x : P} : Seg null next p (xs ++ x :: ys) q ↔
    Seg null next p xs x ∧ x ≠ null ∧ Seg null next (next x) ys q := by
  rw [seg_append]
  constructor
  · rintro ⟨m, before, rfl, ne, after⟩
    exact ⟨before, ne, after⟩
  · rintro ⟨before, ne, after⟩
    exact ⟨x, before, rfl, ne, after⟩

theorem seg_congr (same : ∀ x ∈ xs, next' x = next x) :
    Seg null next' p xs q ↔ Seg null next p xs q := by
  induction xs generalizing p with
  | nil => exact Iff.rfl
  | cons x xs ih =>
    rw [Seg, Seg, same x (by simp), ih fun y inside => same y (by simp [inside])]

theorem seg_ne (h : Seg null next p xs q) : ∀ x ∈ xs, x ≠ null := by
  induction xs generalizing p with
  | nil => simp
  | cons y xs ih =>
    intro x inside
    rcases List.mem_cons.mp inside with rfl | inside
    · exact h.2.1
    · exact ih h.2.2 x inside

theorem seg_unique (first : Seg null next p xs null) (second : Seg null next p ys null) :
    xs = ys := by
  induction xs generalizing p ys with
  | nil =>
    cases ys with
    | nil => rfl
    | cons y ys => exact absurd (second.1.symm.trans first) second.2.1
  | cons x xs ih =>
    cases ys with
    | nil => exact absurd (first.1.symm.trans second) first.2.1
    | cons y ys =>
      obtain ⟨rfl, _, rest⟩ := first
      obtain ⟨rfl, _, rest'⟩ := second
      rw [ih rest rest']

theorem back_append : Back prev b (xs ++ ys) ↔
    Back prev b xs ∧ Back prev (xs.getLastD b) ys := by
  induction xs generalizing b with
  | nil => simp [Back]
  | cons x xs ih =>
    rw [List.cons_append, Back, Back, ih, List.getLastD_cons, and_assoc]

theorem back_congr (same : ∀ x ∈ xs, prev' x = prev x) :
    Back prev' b xs ↔ Back prev b xs := by
  induction xs generalizing b with
  | nil => exact Iff.rfl
  | cons x xs ih =>
    rw [Back, Back, same x (by simp), ih fun y inside => same y (by simp [inside])]

theorem seg_unlink {a y : P} (h : Seg null next p (xs ++ a :: y :: ys) q)
    (skip : next' a = next y) (same : ∀ x ∈ xs ++ ys, next' x = next x) :
    Seg null next' p (xs ++ a :: ys) q := by
  obtain ⟨before, ne, _, _, after⟩ := seg_middle.mp h
  rw [seg_middle, skip, seg_congr fun x inside => same x (by simp [inside]),
    seg_congr fun x inside => same x (by simp [inside])]
  exact ⟨before, ne, after⟩

theorem back_unlink {y z : P} (h : Back prev b (xs ++ y :: z :: ys))
    (skip : prev' z = prev y) (same : ∀ x ∈ xs ++ ys, prev' x = prev x) :
    Back prev' b (xs ++ z :: ys) := by
  obtain ⟨before, here, _, after⟩ := back_append.mp h
  rw [back_append, Back, skip, here, back_congr fun x inside => same x (by simp [inside]),
    back_congr fun x inside => same x (by simp [inside])]
  exact ⟨before, rfl, after⟩

end Linked
