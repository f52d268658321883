import Mathlib.Algebra.Group.Int.Defs
import Mathlib.Algebra.Group.Nat.Defs
import Mathlib.Data.List.Perm.Basic
import Mathlib.Data.Int.Basic

/-! `_get_low_page`: the draw that `_init_paging` makes from the stack of free pages.
The scan keeps its index in an int, so its result is about stacks of every length,
those with more entries than an int can count included. -/
namespace Gapxos

def int32 (n : Nat) : Int := Int.bmod n (2 ^ 32)

/-- `_free_pages[idx]`: none when the index is not one of the stack's. -/
def readAt (pages : List Nat) (idx : Int) : Option Nat :=
  if 0 ≤ idx then pages[idx.toNat]? else none

def lowestIdx (pages : List Nat) : Nat → Option Int
  | 0 => some 0
  | i + 1 => do
    let lowest ← lowestIdx pages i
    let page ← pages[i]?
    let best ← readAt pages lowest
    some (if page < best then int32 i else lowest)

def moveDown (pages : List Nat) (i : Nat) : List Nat := pages.set (i - 1) (pages.getD i 0)

/-- The loop that moves the entries from `start` on down by one place. -/
def shiftDown (pages : List Nat) (start : Nat) : List Nat :=
  (List.range' start (pages.length - start)).foldl moveDown pages

/- An empty stack has no entry to read, and `lowest_idx + 1` must itself be an int. -/
def getLowPage (pages : List Nat) : Option (Nat × List Nat) := do
  let lowest ← lowestIdx pages pages.length
  let val ← readAt pages lowest
  if lowest + 1 < 2 ^ 31 then some (val, (shiftDown pages (lowest.toNat + 1)).dropLast) else none

theorem int32_small {n : Nat} (h : n < 2 ^ 31) : int32 n = n := by
  unfold int32
  rw [Int.bmod_def]
  omega

theorem int32_nonneg {n : Nat} (h : n < 2 ^ 32) (pos : 0 ≤ int32 n) : n < 2 ^ 31 := by
  unfold int32 at pos
  rw [Int.bmod_def] at pos
  omega

theorem readAt_some {pages : List Nat} {idx : Int} {v : Nat} (h : readAt pages idx = some v) :
    ∃ k : Nat, idx = k ∧ pages[k]? = some v := by
  unfold readAt at h
  split at h
  · rename_i pos
    exact ⟨idx.toNat, by omega, h⟩
  · cases h

@[simp] theorem readAt_natCast (pages : List Nat) (k : Nat) : readAt pages k = pages[k]? := by
  simp [readAt]

theorem shift_length (pages : List Nat) (is : List Nat) :
    (is.foldl moveDown pages).length = pages.length := by
  induction is generalizing pages with
  | nil => rfl
  | cons i is ih =>
    rw [List.foldl_cons, ih]
    simp [moveDown]

theorem shift_loop (pages : List Nat) (k c j : Nat) (fits : k + 1 + c ≤ pages.length) :
    ((List.range' (k + 1) c).foldl moveDown pages)[j]? =
      if k ≤ j ∧ j < k + c then pages[j + 1]? else pages[j]? := by
  induction c generalizing j with
  | zero =>
    rw [if_neg (by omega)]
    rfl
  | succ c ih =>
    have moved := ih j (by omega)
    have next := ih (k + 1 + c) (by omega)
    rw [if_neg (by omega), List.getElem?_eq_getElem (l := pages) (by omega)] at next
    rw [List.range'_concat, List.foldl_append, Nat.one_mul, List.foldl_cons, List.foldl_nil,
      moveDown, List.getD_eq_getElem?_getD, next, List.getElem?_set, shift_length, moved]
    by_cases here : k + c = j
    · -- the entry this round moves
      subst here
      rw [if_pos (by omega), if_pos (by omega), if_pos (by omega),
        List.getElem?_eq_getElem (by omega)]
      simp only [Option.getD_some, show k + 1 + c = k + c + 1 by omega]
    · rw [if_neg (by omega)]
      by_cases below : k ≤ j ∧ j < k + c
      · rw [if_pos below, if_pos (by omega)]
      · rw [if_neg below, if_neg (by omega)]

theorem shiftDown_eraseIdx {pages : List Nat} {k : Nat} (h : k < pages.length) :
    (shiftDown pages (k + 1)).dropLast = pages.eraseIdx k := by
  apply List.ext_getElem?
  intro j
  have loop := shift_loop pages k (pages.length - (k + 1)) j (by omega)
  rw [List.getElem?_dropLast, shiftDown, shift_length, loop, List.getElem?_eraseIdx]
  by_cases last : j < pages.length - 1
  · rw [if_pos last]
    by_cases below : j < k
    · rw [if_neg (by omega), if_pos below]
    · rw [if_pos (by omega), if_neg below]
  · rw [if_neg last, if_neg (by omega), List.getElem?_eq_none (by omega)]

structure Least (pages : List Nat) (n k : Nat) : Prop where
  inside : k < n
  before : ∀ j x y, j < k → pages[j]? = some x → pages[k]? = some y → y < x
  after : ∀ j x y, j < n → pages[j]? = some x → pages[k]? = some y → y ≤ x

theorem Least.next {pages : List Nat} {n k v b : Nat} (least : Least pages n k)
    (here : pages[n]? = some v) (best : pages[k]? = some b) :
    Least pages (n + 1) (if v < b then n else k) := by
  have low := least.inside
  split
  · rename_i smaller
    refine ⟨by omega, ?_, ?_⟩
    · intro j x y hj hx hy
      have := least.after j x b hj hx best
      cases Option.some.inj (here.symm.trans hy)
      omega
    · intro j x y hj hx hy
      cases Option.some.inj (here.symm.trans hy)
      rcases Nat.lt_succ_iff_lt_or_eq.mp hj with hj | rfl
      · have := least.after j x b hj hx best
        omega
      · cases Option.some.inj (here.symm.trans hx)
        omega
  · rename_i larger
    refine ⟨by omega, least.before, ?_⟩
    intro j x y hj hx hy
    rcases Nat.lt_succ_iff_lt_or_eq.mp hj with hj | rfl
    · exact least.after j x y hj hx hy
    · cases Option.some.inj (here.symm.trans hx)
      cases Option.some.inj (best.symm.trans hy)
      omega

/- With the least entry within an int's reach the scan finds it: the entries it took
before were in earlier places still. -/
theorem lowestIdx_near {pages : List Nat} {k : Nat} (least : Least pages pages.length k)
    (near : k < 2 ^ 31) (n : Nat) (fits : n < pages.length) :
    ∃ j : Nat, lowestIdx pages (n + 1) = some (j : Int) ∧ Least pages (n + 1) j := by
  have bestAt : ∃ b, pages[k]? = some b := ⟨_, List.getElem?_eq_getElem least.inside⟩
  obtain ⟨b, hb⟩ := bestAt
  induction n with
  | zero =>
    have head := List.getElem?_eq_getElem fits
    refine ⟨0, by simp [lowestIdx, readAt, head], by omega, by omega, ?_⟩
    intro j x y hj hx hy
    obtain rfl : j = 0 := by omega
    cases Option.some.inj (hx.symm.trans hy)
    exact Nat.le_refl x
  | succ n ih =>
    obtain ⟨j, eq, sofar⟩ := ih (by omega)
    have here := List.getElem?_eq_getElem fits
    have inside : j < pages.length := by have := sofar.inside; omega
    have best := List.getElem?_eq_getElem inside
    have step := sofar.next here best
    refine ⟨_, ?_, step⟩
    rw [lowestIdx, eq]
    simp only [Option.bind_eq_bind, Option.bind_some, here, readAt_natCast, best]
    split
    · -- a new least entry: not past `k`, where nothing smaller comes
      rename_i smaller
      have reach : n + 1 ≤ k := by
        by_contra past
        have := least.after (n + 1) _ b (by omega) here hb
        have := sofar.after k b _ (by omega) hb best
        omega
      rw [int32_small (by omega)]
    · rfl

theorem Least.unique {pages : List Nat} {n j k : Nat} (h : Least pages n j) (h' : Least pages n k)
    (fits : n ≤ pages.length) : j = k := by
  have hj := List.getElem?_eq_getElem (Nat.lt_of_lt_of_le h.inside fits)
  have hk := List.getElem?_eq_getElem (Nat.lt_of_lt_of_le h'.inside fits)
  rcases Nat.lt_trichotomy j k with less | same | more
  · have := h'.before j _ _ less hj hk
    have := h.after k _ _ h'.inside hk hj
    omega
  · exact same
  · have := h.before k _ _ more hk hj
    have := h'.after j _ _ h.inside hj hk
    omega

/- On a stack of at most 2^32 entries an index that wrapped is negative and ends the scan
at its next read, so a scan that survives holds the least entry. -/
theorem lowestIdx_least {pages : List Nat} (short : pages.length ≤ 2 ^ 32) {n : Nat} {x : Int}
    (fits : n < pages.length) (h : lowestIdx pages (n + 1) = some x) :
    ∃ k, x = int32 k ∧ Least pages (n + 1) k := by
  induction n generalizing x with
  | zero =>
    have head := List.getElem?_eq_getElem fits
    have start : x = 0 := by simpa [lowestIdx, readAt, head] using h.symm
    refine ⟨0, by rw [start, int32_small (by omega)]; rfl, by omega, by omega, ?_⟩
    intro j a b hj ha hb
    obtain rfl : j = 0 := by omega
    cases Option.some.inj (ha.symm.trans hb)
    exact Nat.le_refl a
  | succ n ih =>
    rw [lowestIdx] at h
    simp only [Option.bind_eq_bind, Option.bind_eq_some_iff, Option.some.injEq] at h
    obtain ⟨lowest, before, page, here, best, read, rfl⟩ := h
    obtain ⟨k, held, sofar⟩ := ih (by omega) before
    obtain ⟨j, eq, at_j⟩ := readAt_some read
    have inside := sofar.inside
    have small : k < 2 ^ 31 := int32_nonneg (by omega) (by omega)
    obtain rfl : k = j := by
      rw [int32_small small] at held
      omega
    refine ⟨_, ?_, sofar.next here at_j⟩
    split
    · rfl
    · exact held

def low (pages : List Nat) : Nat := pages.min?.getD 0

theorem low_least {pages : List Nat} (ne : pages ≠ []) :
    low pages ∈ pages ∧ Least pages pages.length (pages.idxOf (low pages)) := by
  obtain ⟨a, eq⟩ : ∃ a, pages.min? = some a := by
    cases h : pages.min? with
    | none => exact absurd (List.min?_eq_none_iff.mp h) ne
    | some a => exact ⟨a, rfl⟩
  have least := List.min?_eq_some_iff.mp eq
  have value : low pages = a := by rw [low, eq, Option.getD_some]
  rw [value]
  have first := List.getElem?_idxOf least.1
  refine ⟨least.1, List.idxOf_lt_length_of_mem least.1, ?_, ?_⟩
  · intro j x y hj hx hy
    cases Option.some.inj (first.symm.trans hy)
    have bound := least.2 x (List.mem_of_getElem? hx)
    have other : x ≠ a := by
      rintro rfl
      obtain ⟨inside, rfl⟩ := List.getElem?_eq_some_iff.mp hx
      have later := List.not_of_lt_findIdx hj
      simp at later
    omega
  · intro j x y _ hx hy
    cases Option.some.inj (first.symm.trans hy)
    exact least.2 x (List.mem_of_getElem? hx)

theorem getLowPage_perm {pages rest : List Nat} {v : Nat}
    (h : getLowPage pages = some (v, rest)) : pages.Perm (v :: rest) := by
  simp only [getLowPage, Option.bind_eq_bind, Option.bind_eq_some_iff,
    Option.ite_none_right_eq_some, Option.some.injEq, Prod.mk.injEq] at h
  obtain ⟨lowest, -, val, read, -, rfl, rfl⟩ := h
  obtain ⟨k, rfl, at_k⟩ := readAt_some read
  obtain ⟨inside, rfl⟩ := List.getElem?_eq_some_iff.mp at_k
  rw [Int.toNat_natCast, shiftDown_eraseIdx inside]
  exact (List.getElem_cons_eraseIdx_perm inside).symm

/-- The least entry lies where `lowest_idx + 1` is still an int. -/
def NearLow (pages : List Nat) : Prop := pages.idxOf (low pages) + 1 < 2 ^ 31

theorem getLowPage_low {pages : List Nat} (ne : pages ≠ []) (near : NearLow pages) :
    getLowPage pages = some (low pages, pages.erase (low pages)) := by
  have least := low_least ne
  have inside := least.2.inside
  unfold NearLow at near
  obtain ⟨j, eq, found⟩ :=
    lowestIdx_near least.2 (by omega) (pages.length - 1) (by omega)
  rw [Nat.sub_add_cancel (by omega)] at eq found
  obtain rfl := found.unique least.2 (Nat.le_refl _)
  have int : ((pages.idxOf (low pages) : Nat) : Int) + 1 < 2 ^ 31 := by omega
  simp only [getLowPage, eq, Option.bind_eq_bind, Option.bind_some, readAt_natCast,
    List.getElem?_idxOf least.1, if_pos int, Int.toNat_natCast, shiftDown_eraseIdx inside,
    List.eraseIdx_idxOf_eq_erase]

theorem getLowPage_near {pages : List Nat} {r : Nat × List Nat} (short : pages.length ≤ 2 ^ 32)
    (h : getLowPage pages = some r) : pages ≠ [] ∧ NearLow pages := by
  simp only [getLowPage, Option.bind_eq_bind, Option.bind_eq_some_iff,
    Option.ite_none_right_eq_some] at h
  obtain ⟨lowest, scan, val, read, int, -⟩ := h
  obtain ⟨j, rfl, at_j⟩ := readAt_some read
  have nonempty : pages ≠ [] := by
    rintro rfl
    cases at_j
  have pos := List.length_pos_iff.mpr nonempty
  rw [← Nat.sub_add_cancel pos] at scan
  obtain ⟨k, eq, found⟩ := lowestIdx_least short (by omega) scan
  rw [Nat.sub_add_cancel pos] at found
  have inside := found.inside
  have small : k < 2 ^ 31 := int32_nonneg (by omega) (by omega)
  rw [int32_small small] at eq
  obtain rfl := found.unique (low_least nonempty).2 (Nat.le_refl _)
  refine ⟨nonempty, ?_⟩
  unfold NearLow
  omega

def drawLow : Nat → List Nat → Option (List Nat)
  | 0, pages => some pages
  | d + 1, pages => (getLowPage pages).bind fun r => drawLow d r.2

theorem drawLow_add (c d : Nat) (pages : List Nat) :
    drawLow (c + d) pages = (drawLow c pages).bind (drawLow d) := by
  induction c generalizing pages with
  | zero => rw [Nat.zero_add]; rfl
  | succ c ih =>
    rw [Nat.succ_add]
    cases draw : getLowPage pages with
    | none => simp [drawLow, draw]
    | some r => simp [drawLow, draw, ih]

/-- The stack after the `d` draws that take the least entry each time. -/
def dropLow : Nat → List Nat → List Nat
  | 0, pages => pages
  | d + 1, pages => dropLow d (pages.erase (low pages))

theorem drawLow_dropLow {d : Nat} {pages : List Nat} (enough : d ≤ pages.length)
    (near : ∀ c < d, NearLow (dropLow c pages)) : drawLow d pages = some (dropLow d pages) := by
  induction d generalizing pages with
  | zero => rfl
  | succ d ih =>
    have ne : pages ≠ [] := by rintro rfl; simp at enough
    have member := (low_least ne).1
    rw [drawLow, getLowPage_low ne (near 0 (by omega)), Option.bind_some]
    apply ih
    · rw [List.length_erase_of_mem member]
      omega
    · exact fun c hc => near (c + 1) (by omega)

theorem nearLow_short {pages : List Nat} (short : pages.length < 2 ^ 31) : NearLow pages := by
  unfold NearLow
  by_cases ne : pages = []
  · subst ne
    simp
  · have := (low_least ne).2.inside
    omega

theorem dropLow_length (d : Nat) (pages : List Nat) : (dropLow d pages).length ≤ pages.length := by
  induction d generalizing pages with
  | zero => exact Nat.le_refl _
  | succ d ih => exact Nat.le_trans (ih _) List.length_erase_le

theorem low_le {pages : List Nat} {page : Nat} (inside : page ∈ pages) : low pages ≤ page := by
  obtain ⟨least, eq⟩ : ∃ least, pages.min? = some least :=
    Option.isSome_iff_exists.mp (List.isSome_min?_of_mem inside)
  rw [low, eq, Option.getD_some]
  exact (List.min?_eq_some_iff.mp eq).2 page inside

/-- A draw takes the least entry out of the stack, at one place, and leaves the others in their
order. -/
theorem getLowPage_takes_least (pages : List Nat) (ne : pages ≠ [])
    (short : pages.length < 2 ^ 31) :
    ∃ before val after, pages = before ++ val :: after ∧ (∀ page ∈ pages, val ≤ page) ∧
      getLowPage pages = some (val, before ++ after) ∧
      (before ++ after).length + 1 = pages.length := by
  obtain ⟨before, after, -, split, rest⟩ := List.exists_erase_eq (low_least ne).1
  refine ⟨before, low pages, after, split, fun page inside => low_le inside, ?_, ?_⟩
  · rw [getLowPage_low ne (nearLow_short short), rest]
  · rw [← rest, List.length_erase_of_mem (low_least ne).1]
    exact Nat.sub_add_cancel (List.length_pos_iff.mpr ne)

theorem getLowPage_takes_least_twice :
    ∃ before val after, [0x3000, 0x1000, 0x2000, 0x1000] = before ++ val :: after ∧
      (∀ page ∈ [0x3000, 0x1000, 0x2000, 0x1000], val ≤ page) ∧
      getLowPage [0x3000, 0x1000, 0x2000, 0x1000] = some (val, before ++ after) ∧
      (before ++ after).length + 1 = [0x3000, 0x1000, 0x2000, 0x1000].length :=
  getLowPage_takes_least [0x3000, 0x1000, 0x2000, 0x1000] (by decide) (by decide)

end Gapxos
