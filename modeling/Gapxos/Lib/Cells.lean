import Gapxos.Lib.Linked
import Gapxos.Lib.Radix

/-! Lists of records that hang from a cell of another record. Every record has the same
fields, and `z` is the one that leads on; the end of a list is changed by one store. -/
namespace Linked
open Radix

variable {P K : Type} (null : P) (z : K)

def Hung (F : P → K → P) (x : P) (k : K) (xs : List P) (q : P) : Prop :=
  Seg null (fun y => F y z) (F x k) xs q

def lastCell (x : P) (k : K) : List P → P × K
  | [] => (x, k)
  | y :: ys => lastCell y z ys

variable {null z} {F F' : P → K → P} {x y q u : P} {k : K} {xs ys : List P}

theorem hung_append : Hung null z F x k (xs ++ y :: ys) q ↔
    Hung null z F x k xs y ∧ y ≠ null ∧ Hung null z F y z ys q :=
  seg_middle

theorem hung_congr (first : F' x k = F x k) (same : ∀ y ∈ xs, F' y z = F y z) :
    Hung null z F' x k xs q ↔ Hung null z F x k xs q := by
  rw [Hung, first]
  exact seg_congr same

theorem lastCell_append : lastCell z x k (xs ++ [y]) = (y, z) := by
  induction xs generalizing x k with
  | nil => rfl
  | cons a xs ih => exact ih

theorem lastCell_cases (z : K) (x : P) (k : K) (xs : List P) :
    lastCell z x k xs = (x, k) ∧ xs = [] ∨ ∃ y ys, xs = ys ++ [y] ∧ lastCell z x k xs = (y, z) := by
  rcases List.eq_nil_or_concat' xs with rfl | ⟨ys, y, rfl⟩
  · exact .inl ⟨rfl, rfl⟩
  · exact .inr ⟨y, ys, rfl, lastCell_append⟩

theorem lastCell_mem (z : K) (x : P) (k : K) (xs : List P) :
    lastCell z x k xs = (x, k) ∨ ∃ y ∈ xs, lastCell z x k xs = (y, z) := by
  rcases lastCell_cases z x k xs with ⟨eq, _⟩ | ⟨y, ys, rfl, eq⟩
  · exact .inl eq
  · exact .inr ⟨y, by simp, eq⟩

theorem lastCell_ne (x : P) (ne : k ≠ z) (out : y ∉ xs) :
    ¬ (y = (lastCell z x k xs).1 ∧ z = (lastCell z x k xs).2) := by
  rintro ⟨record, field⟩
  rcases lastCell_mem z x k xs with eq | ⟨a, inside, eq⟩
  · rw [eq] at field
    exact ne field.symm
  · rw [eq] at record
    exact out (record ▸ inside)

theorem hung_at (hung : Hung null z F x k xs q) :
    F (lastCell z x k xs).1 (lastCell z x k xs).2 = q := by
  induction xs generalizing x k with
  | nil => exact hung
  | cons y xs ih => exact ih hung.2.2

variable [DecidableEq P] [DecidableEq K]

theorem hung_frame {j : K} (first : ¬ (x = y ∧ k = j)) (same : ∀ a ∈ xs, ¬ (a = y ∧ z = j)) :
    Hung null z (store F y j u) x k xs q ↔ Hung null z F x k xs q :=
  hung_congr (store_other first) fun a inside => store_other (same a inside)

theorem hung_last (hung : Hung null z F x k xs q) (once : xs.Nodup) (other : x ∉ xs ∨ k ≠ z) :
    Hung null z (store F (lastCell z x k xs).1 (lastCell z x k xs).2 u) x k xs u := by
  rcases lastCell_cases z x k xs with ⟨eq, rfl⟩ | ⟨y, ys, rfl, eq⟩
  · rw [eq]
    exact store_same ..
  · rw [eq]
    obtain ⟨before, ne, _⟩ := hung_append.mp hung
    have fresh : y ∉ ys := fun inside => (List.nodup_append.mp once).2.2 y inside y (by simp) rfl
    refine hung_append.mpr ⟨(hung_congr ?_ fun a inside => ?_).mpr before, ne, store_same ..⟩
    · refine store_other fun hit => ?_
      rcases other with out | ne
      · exact out (by simp [hit.1])
      · exact ne hit.2
    · refine store_other fun hit => ?_
      obtain rfl : a = y := hit.1
      exact fresh inside

theorem hung_other {j : K} (ne : j ≠ k) (first : j ≠ z) (second : k ≠ z)
    (apart : ∀ a ∈ xs, a ∉ ys) :
    Hung null z (store F (lastCell z x k xs).1 (lastCell z x k xs).2 u) x j ys q ↔
      Hung null z F x j ys q := by
  rcases lastCell_mem z x k xs with eq | ⟨a, inside, eq⟩
  · rw [eq]
    exact hung_frame (fun hit => ne hit.2) fun _ _ hit => second hit.2.symm
  · rw [eq]
    refine hung_frame (fun hit => first hit.2) fun b there hit => ?_
    obtain rfl : b = a := hit.1
    exact apart b inside there

theorem hung_unlink (hung : Hung null z F x k (xs ++ y :: ys) q) (once : (xs ++ y :: ys).Nodup)
    (other : x ∉ xs ++ y :: ys ∨ k ≠ z) :
    Hung null z (store F (lastCell z x k xs).1 (lastCell z x k xs).2 (F y z)) x k (xs ++ ys) q := by
  obtain ⟨before, _, after⟩ := hung_append.mp hung
  obtain ⟨left, right, apart⟩ := List.nodup_append.mp once
  refine seg_append.mpr ⟨F y z, hung_last before left ?_, (seg_congr fun a inside => ?_).mpr after⟩
  · exact other.imp (fun out inside => out (List.mem_append_left _ inside)) id
  · refine store_other fun hit => ?_
    rcases lastCell_mem z x k xs with eq | ⟨b, there, eq⟩
    · rw [eq] at hit
      obtain ⟨rfl, rfl⟩ : a = x ∧ z = k := hit
      rcases other with out | ne
      · exact out (List.mem_append_right _ (List.mem_cons_of_mem y inside))
      · exact ne rfl
    · rw [eq] at hit
      exact apart b there a (List.mem_cons_of_mem y inside) hit.1.symm

theorem hung_push (hung : Hung null z F x k xs q) (once : xs.Nodup) (other : x ∉ xs ∨ k ≠ z)
    (ne : y ≠ null) (leads : F y z = q) (fresh : y ∉ xs) (out : y ≠ x ∨ k ≠ z) :
    Hung null z (store F (lastCell z x k xs).1 (lastCell z x k xs).2 y) x k (xs ++ [y]) q := by
  refine hung_append.mpr ⟨hung_last hung once other, ne, ?_⟩
  show store F _ _ y y z = q
  rw [store_other, leads]
  intro hit
  rcases lastCell_mem z x k xs with eq | ⟨b, there, eq⟩
  · rw [eq] at hit
    rcases out with out | out
    · exact out hit.1
    · exact out hit.2.symm
  · rw [eq] at hit
    exact fresh (hit.1 ▸ there)

end Linked
