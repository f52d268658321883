import Mathlib.Data.List.Basic

/-! Binary search trees that keep a number (a height) in each node. What a tree holds is
its in-order list; a search by key is a search for a place in that list. Nothing is
assumed about how the tree is balanced. -/
namespace SearchTree

variable {α : Type}

inductive KeyTree (α : Type)
  | nil
  | node (v : α) (height : Nat) (left right : KeyTree α)
deriving DecidableEq, Repr

namespace KeyTree

def toList : KeyTree α → List α
  | nil => []
  | node v _ l r => l.toList ++ v :: r.toList

@[simp] theorem toList_nil : (nil : KeyTree α).toList = [] := rfl

@[simp] theorem toList_node (v : α) (h : Nat) (l r : KeyTree α) :
    (node v h l r).toList = l.toList ++ v :: r.toList := rfl

def map (f : α → α) : KeyTree α → KeyTree α
  | nil => nil
  | node v h l r => node (f v) h (l.map f) (r.map f)

@[simp] theorem toList_map (f : α → α) (t : KeyTree α) : (t.map f).toList = t.toList.map f := by
  induction t with
  | nil => rfl
  | node v h l r left right => simp [map, left, right]

def mirror : KeyTree α → KeyTree α
  | nil => nil
  | node v h l r => node v h r.mirror l.mirror

@[simp] theorem mirror_mirror (t : KeyTree α) : t.mirror.mirror = t := by
  induction t with
  | nil => rfl
  | node v h l r left right => simp [mirror, left, right]

@[simp] theorem toList_mirror (t : KeyTree α) : t.mirror.toList = t.toList.reverse := by
  induction t with
  | nil => rfl
  | node v h l r left right => simp [mirror, left, right]

variable (key : α → Nat)

def find (k : Nat) : KeyTree α → Option α
  | nil => none
  | node v _ l r => if key v = k then some v else if k < key v then l.find k else r.find k

/-- The least element, and the tree in which its right subtree takes its place. -/
def takeMin : KeyTree α → Option (α × KeyTree α)
  | nil => none
  | node v _ nil r => some (v, r)
  | node v h (node w i a b) r => (takeMin (node w i a b)).map fun m => (m.1, node v h m.2 r)

end KeyTree

section Place

variable {key : α → Nat} {k : Nat}

/- The place of a key in the list of a node: `M` is what the list holds for the key, at
most one element. A comparison with the node decides which subtree has the place. -/
variable {l r A M B : List α} {v : α}

theorem place_left (split : l ++ v :: r = A ++ M ++ B) (below : ∀ x ∈ A, key x < k)
    (here : ∀ x ∈ M, key x = k) (less : k < key v) :
    ∃ C, B = C ++ v :: r ∧ l = A ++ M ++ C := by
  rcases List.append_eq_append_iff.mp split with ⟨C, before, after⟩ | ⟨C, before, after⟩
  · cases C with
    | nil => exact ⟨[], after.symm, by simpa using before.symm⟩
    | cons w C =>
      cases (List.cons.inj after).1
      have inside : v ∈ A ++ M := by simp [before]
      rcases List.mem_append.mp inside with inside | inside
      · have := below v inside
        omega
      · have := here v inside
        omega
  · exact ⟨C, after, before⟩

theorem place_right (split : l ++ v :: r = A ++ M ++ B) (here : ∀ x ∈ M, key x = k)
    (above : ∀ x ∈ B, k < key x) (more : key v < k) :
    ∃ C, A = l ++ v :: C ∧ r = C ++ M ++ B := by
  rw [List.append_assoc] at split
  rcases List.append_eq_append_iff.mp split with ⟨C, before, after⟩ | ⟨C, before, after⟩
  · cases C with
    | nil =>
      have inside : v ∈ M ++ B := by rw [← List.nil_append (M ++ B), ← after]; simp
      rcases List.mem_append.mp inside with inside | inside
      · have := here v inside
        omega
      · have := above v inside
        omega
    | cons w C =>
      obtain ⟨rfl, tail⟩ := List.cons.inj after
      exact ⟨C, before, by rw [List.append_assoc]; exact tail⟩
  · have inside : v ∈ M ++ B := by simp [after]
    rcases List.mem_append.mp inside with inside | inside
    · have := here v inside
      omega
    · have := above v inside
      omega

theorem place_here {b : α} (split : l ++ v :: r = A ++ b :: B) (below : ∀ x ∈ A, key x < k)
    (above : ∀ x ∈ B, k < key x) (equal : key v = k) : l = A ∧ v = b ∧ r = B := by
  rcases List.append_eq_append_iff.mp split with ⟨C, before, after⟩ | ⟨C, before, after⟩
  · cases C with
    | nil =>
      obtain ⟨same, tail⟩ := List.cons.inj after
      exact ⟨by simpa using before.symm, same, tail⟩
    | cons w C =>
      cases (List.cons.inj after).1
      have := below v (by simp [before])
      omega
  · cases C with
    | nil =>
      obtain ⟨same, tail⟩ := List.cons.inj after
      exact ⟨by simpa using before, same.symm, tail.symm⟩
    | cons w C =>
      obtain ⟨rfl, tail⟩ := List.cons.inj after
      have := above v (by simp [tail])
      omega

theorem place_exists {xs : List α} (sorted : xs.Pairwise fun a b => key a < key b) (k : Nat) :
    ∃ A M B, xs = A ++ M ++ B ∧ (∀ x ∈ A, key x < k) ∧ (∀ x ∈ B, k < key x) ∧
      (M = [] ∨ ∃ b, M = [b] ∧ key b = k) := by
  induction xs with
  | nil => exact ⟨[], [], [], rfl, by simp, by simp, .inl rfl⟩
  | cons x xs ih =>
    obtain ⟨first, rest⟩ := List.pairwise_cons.mp sorted
    by_cases less : key x < k
    · obtain ⟨A, M, B, rfl, below, above, here⟩ := ih rest
      refine ⟨x :: A, M, B, by simp, ?_, above, here⟩
      intro y inside
      rcases List.mem_cons.mp inside with rfl | inside
      · exact less
      · exact below y inside
    · by_cases equal : key x = k
      · exact ⟨[], [x], xs, rfl, by simp, fun y inside => equal ▸ first y inside,
          .inr ⟨x, rfl, equal⟩⟩
      · refine ⟨[], [], x :: xs, rfl, by simp, ?_, .inl rfl⟩
        intro y inside
        rcases List.mem_cons.mp inside with rfl | inside
        · omega
        · have := first y inside
          omega

end Place

section Search

variable {key : α → Nat} {k : Nat} {t : KeyTree α}

theorem find_some {v : α} (h : t.find key k = some v) : v ∈ t.toList ∧ key v = k := by
  induction t with
  | nil => cases h
  | node w i l r left right =>
    unfold KeyTree.find at h
    split at h
    · cases Option.some.inj h
      exact ⟨by simp, by assumption⟩
    · split at h
      · exact ⟨by simp [(left h).1], (left h).2⟩
      · exact ⟨by simp [(right h).1], (right h).2⟩

theorem find_of_mem (sorted : t.toList.Pairwise fun a b => key a < key b) {v : α}
    (h : v ∈ t.toList) : t.find key (key v) = some v := by
  induction t with
  | nil => cases h
  | node w i l r left right =>
    rw [KeyTree.toList_node, List.pairwise_append, List.pairwise_cons] at sorted
    obtain ⟨lower, ⟨above, upper⟩, across⟩ := sorted
    rw [KeyTree.toList_node, List.mem_append, List.mem_cons] at h
    unfold KeyTree.find
    rcases h with inside | rfl | inside
    · have less := across v inside w (by simp)
      rw [if_neg (by omega), if_pos less, left lower inside]
    · rw [if_pos rfl]
    · have more := above v inside
      rw [if_neg (by omega), if_neg (by omega), right upper inside]

theorem find_none (sorted : t.toList.Pairwise fun a b => key a < key b)
    (h : t.find key k = none) : ∀ v ∈ t.toList, key v ≠ k := by
  rintro v inside rfl
  rw [find_of_mem sorted inside] at h
  cases h

theorem takeMin_toList {m : α} {rest : KeyTree α} (h : t.takeMin = some (m, rest)) :
    t.toList = m :: rest.toList := by
  induction t generalizing rest with
  | nil => cases h
  | node v i l r left _ =>
    cases l with
    | nil =>
      cases h
      rfl
    | node w j a b =>
      rw [KeyTree.takeMin, Option.map_eq_some_iff] at h
      obtain ⟨⟨m', rest'⟩, inner, eq⟩ := h
      cases eq
      rw [KeyTree.toList_node, left inner]
      rfl

theorem takeMin_isSome (h : t ≠ .nil) : ∃ m rest, t.takeMin = some (m, rest) := by
  induction t with
  | nil => exact absurd rfl h
  | node v i l r left _ =>
    cases l with
    | nil => exact ⟨v, r, rfl⟩
    | node w j a b =>
      obtain ⟨m, rest, inner⟩ := left (by simp)
      exact ⟨m, _, by rw [KeyTree.takeMin, inner, Option.map_some]⟩

end Search

end SearchTree
