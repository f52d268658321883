import Mathlib.Data.List.Perm.Basic

/-! Lists of records found by a key, where a record that is missing is put in front. -/
namespace Keyed

variable {α κ : Type} [DecidableEq κ] (key : α → κ)

def update (k : κ) (f : α → α) : List α → Option (List α)
  | [] => none
  | x :: xs => if key x = k then some (f x :: xs) else (update k f xs).map (x :: ·)

def upsert (k : κ) (f : α → α) (new : α) (xs : List α) : List α :=
  (update key k f xs).getD (new :: xs)

def find (xs : List α) (k : κ) : Option α := xs.find? fun x => key x = k

variable {key} {k j : κ} {f : α → α} {new : α} {xs : List α}

theorem find_cons (x : α) (xs : List α) (j : κ) :
    find key (x :: xs) j = if key x = j then some x else find key xs j := by
  by_cases at_ : key x = j <;> simp [find, at_]

theorem find_isSome : (find key xs j).isSome ↔ j ∈ xs.map key := by
  simp [find, List.find?_isSome]

theorem find_key {x : α} (found : find key xs j = some x) : key x = j := by
  simpa using List.find?_some found

theorem find_of_mem {x : α} (nodup : (xs.map key).Nodup) (inside : x ∈ xs) :
    find key xs (key x) = some x := by
  induction xs with
  | nil => cases inside
  | cons y xs ih =>
    rw [List.map_cons, List.nodup_cons] at nodup
    rw [find_cons]
    rcases List.mem_cons.mp inside with rfl | later
    · rw [if_pos rfl]
    · have other : key y ≠ key x := by
        intro same
        rw [same] at nodup
        exact nodup.1 (List.mem_map_of_mem later)
      rw [if_neg other, ih nodup.2 later]

theorem find_map (g : α → α) (keeps : ∀ x, key (g x) = key x) (j : κ) :
    find key (xs.map g) j = (find key xs j).map g := by
  induction xs with
  | nil => rfl
  | cons x xs ih =>
    rw [List.map_cons, find_cons, find_cons, keeps, ih]
    split <;> rfl

theorem update_none (missing : find key xs k = none) : update key k f xs = none := by
  induction xs with
  | nil => rfl
  | cons x xs ih =>
    rw [find_cons] at missing
    split at missing
    · cases missing
    · rename_i other
      rw [update, if_neg other, ih missing, Option.map_none]

theorem update_some {x : α} (keeps : ∀ x, key (f x) = key x) (found : find key xs k = some x) :
    ∃ ys, update key k f xs = some ys ∧ ys.map key = xs.map key ∧
      ∀ j, find key ys j = if j = k then some (f x) else find key xs j := by
  induction xs with
  | nil => cases found
  | cons y xs ih =>
    rw [find_cons] at found
    split at found
    · rename_i here
      cases found
      refine ⟨f x :: xs, by rw [update, if_pos here], by rw [List.map_cons, keeps]; rfl, ?_⟩
      intro j
      rw [find_cons, find_cons, keeps, here]
      by_cases at_ : k = j
      · rw [if_pos at_, if_pos at_.symm]
      · rw [if_neg at_, if_neg (Ne.symm at_), if_neg at_]
    · rename_i other
      obtain ⟨ys, updated, keys, finds⟩ := ih found
      refine ⟨y :: ys, by rw [update, if_neg other, updated]; rfl, by
        rw [List.map_cons, keys]; rfl, ?_⟩
      intro j
      rw [find_cons, find_cons, finds]
      by_cases at_ : key y = j
      · rw [if_pos at_, if_pos at_, if_neg fun same => other (at_.trans same)]
      · rw [if_neg at_, if_neg at_]

theorem find_upsert (keeps : ∀ x, key (f x) = key x) (at_ : key new = k) (j : κ) :
    find key (upsert key k f new xs) j =
      if j = k then some (((find key xs k).map f).getD new) else find key xs j := by
  cases found : find key xs k with
  | none =>
    rw [upsert, update_none found, Option.getD_none, find_cons, at_]
    by_cases here : k = j
    · rw [if_pos here, if_pos here.symm]
      rfl
    · rw [if_neg here, if_neg (Ne.symm here)]
  | some x =>
    obtain ⟨ys, updated, _, finds⟩ := update_some keeps found
    rw [upsert, updated, Option.getD_some, finds]
    rfl

theorem nodup_upsert (keeps : ∀ x, key (f x) = key x) (at_ : key new = k)
    (nodup : (xs.map key).Nodup) : ((upsert key k f new xs).map key).Nodup := by
  cases found : find key xs k with
  | none =>
    rw [upsert, update_none found, Option.getD_none, List.map_cons, List.nodup_cons, at_]
    refine ⟨fun inside => ?_, nodup⟩
    have := find_isSome.mpr inside
    rw [found] at this
    cases this
  | some x =>
    obtain ⟨ys, updated, keys, _⟩ := update_some keeps found
    rw [upsert, updated, Option.getD_some, keys]
    exact nodup

def lastOf {α β : Type} (p : α → Option β) (xs : List α) : Option β := (xs.filterMap p).getLast?

theorem lastOf_snoc {α β : Type} (p : α → Option β) (xs : List α) (x : α) :
    lastOf p (xs ++ [x]) = (p x).or (lastOf p xs) := by
  rw [lastOf, List.filterMap_append]
  cases taken : p x with
  | none => simp [taken, lastOf]
  | some y => simp [taken]

theorem lastOf_mem {α β : Type} {p : α → Option β} {xs : List α} {y : β}
    (last : lastOf p xs = some y) : ∃ x ∈ xs, p x = some y :=
  List.mem_filterMap.mp (List.mem_of_getLast? last)

theorem lastOf_map_isSome {α β γ : Type} {p : α → Option β} {f : γ → α} {xs : List γ} :
    (lastOf p (xs.map f)).isSome ↔ ∃ x ∈ xs, (p (f x)).isSome := by
  simp [lastOf, Option.isSome_iff_ne_none]

theorem lastOf_perm {α β : Type} {p : α → Option β} {xs ys : List α} (perm : xs.Perm ys)
    (one : (xs.filterMap p).length ≤ 1) : lastOf p xs = lastOf p ys := by
  have same := perm.filterMap p
  rw [lastOf, lastOf]
  cases taken : xs.filterMap p with
  | nil =>
    rw [taken] at same
    rw [same.nil_eq]
  | cons x rest =>
    rw [taken, List.length_cons] at one
    rw [taken, List.length_eq_zero_iff.mp (show rest.length = 0 by omega)] at same
    rw [List.length_eq_zero_iff.mp (show rest.length = 0 by omega), List.singleton_perm.mp same]

end Keyed
