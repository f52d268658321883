import Gapxos.Pmm.DirectMap

/-! `_init_paging` as the processor runs it: pages are stored to at their physical addresses,
through the table that is loaded while it grows. The loader maps the start of memory at itself,
and the function draws the lowest pages because of that. -/
namespace Gapxos
open Radix

/-- The frame behind a linear address, which the hardware takes only in its canonical form. -/
def reached (m : Mem) (cr3 a : Nat) : Option Nat :=
  if a < 2 ^ 47 ∨ 2 ^ 64 - 2 ^ 47 ≤ a then walk m cr3 a else none

namespace Linear

/- CR0.WP is not set: what is mapped can be stored to. -/
def load (pml4t : Nat) (s : Phys) (a : Nat) : Option Word :=
  (reached s.mem (pml4t / 4096) a).map fun f => s.mem f (Fin.ofNat 512 (a / 8))

def storeWord (pml4t : Nat) (s : Phys) (a : Nat) (w : Word) : Option Phys :=
  (reached s.mem (pml4t / 4096) a).map fun f => s.write f (Fin.ofNat 512 (a / 8)) w

def fillPage (pml4t : Nat) (s : Phys) (page : Nat) (word : Fin 512 → Word) : Option Phys :=
  (List.finRange 512).foldlM (fun s (j : Fin 512) => storeWord pml4t s (page + 8 * j) (word j)) s

/- The code clears a page byte by byte, here it is done by words. -/
def zeroPage (pml4t : Nat) (s : Phys) (page : Nat) : Option Phys :=
  fillPage pml4t s page fun _ => 0

def zeroedLowPage (pml4t : Nat) (s : Phys) : Option (Nat × Phys) := do
  let (page, freePages) ← getLowPage s.freePages
  let s ← zeroPage pml4t { s with freePages } page
  some (page, s)

/-- The entry at `entry`, with a PDPT made for it if it is not present. -/
def openPdpt (pml4t : Nat) (s : Phys) (entry : Nat) : Option (Word × Phys) := do
  let pml4 ← load pml4t s entry
  if present pml4 then some (pml4, s)
  else do
    let (ptr, s) ← zeroedLowPage pml4t s
    let s ← storeWord pml4t s entry (tableEntry ptr)
    some (tableEntry ptr, s)

def mapGib (pml4t : Nat) (s : Phys) (i : Nat) : Option Phys := do
  let (page, s) ← zeroedLowPage pml4t s
  let s ← fillPage pml4t s page (gibEntry i)
  let offset := (physicalMapOffset &&& 0xffffffffffff) + i
  let (pml4, s) ← openPdpt pml4t s (pml4t + 8 * (offset / 0x8000000000))
  let pdpt := (pml4 &&& 0xfffffffffffff000#64).toNat
  storeWord pml4t s (pdpt + 8 * (offset % 0x8000000000 / 0x40000000)) (tableEntry page)

def initPaging (s : Phys) (pml4t physMemLength : Nat) : Option Phys :=
  (List.range (gibs physMemLength)).foldlM (fun s n => mapGib pml4t s (0x40000000 * n)) s

end Linear

/-- The page at `a` is mapped at its own address. -/
def AtSelf (m : Mem) (cr3 a : Nat) : Prop := reached m cr3 a = some (a / 4096)

/-- The `d` lowest entries of the stack. -/
def lowest : Nat → List Nat → List Nat
  | 0, _ => []
  | d + 1, pages => low pages :: lowest d (pages.erase (low pages))

section Draws

end Draws

/- Stores into a frame that is no table leave every walk as it is. -/
section Frames

variable {s : Phys} {cr3 k : Nat}

theorem Unused.agree {m m' : Mem} (unused : Unused child 3 m cr3 k)
    (same : ∀ f, f ≠ k → m' f = m f) (p : List (Fin 512)) (f : Nat) (short : p.length ≤ 3)
    (reach : tableAt child m cr3 p = some f) : m f = m' f := by
  refine (same f ?_).symm
  rintro rfl
  exact unused p short reach

theorem reached_congr {m m' : Mem} (unused : Unused child 3 m cr3 k)
    (same : ∀ f, f ≠ k → m' f = m f) (a : Nat) : reached m' cr3 a = reached m cr3 a := by
  have walks : walk m' cr3 a = walk m cr3 a := by
    rw [walk, walk, trace_agree (Unused.agree unused same) (by rw [path_length])]
  rw [reached, reached, walks]

theorem unused_congr {m m' : Mem} (unused : Unused child 3 m cr3 k)
    (same : ∀ f, f ≠ k → m' f = m f) : Unused child 3 m' cr3 k := by
  intro p short reach
  rw [tableAt_agree (Unused.agree unused same) (by omega)] at reach
  exact unused p short reach

theorem reached_within {m : Mem} {a : Nat} (small : k < 2 ^ 40) (low : 4096 * k ≤ a)
    (high : a < 4096 * k + 4096) : reached m cr3 a = reached m cr3 (4096 * k) := by
  have same : walk m cr3 a = walk m cr3 (4096 * k) := by
    apply walk_samePage
    unfold pageOf
    omega
  have form : (a < 2 ^ 47 ∨ 2 ^ 64 - 2 ^ 47 ≤ a) ↔
      (4096 * k < 2 ^ 47 ∨ 2 ^ 64 - 2 ^ 47 ≤ 4096 * k) := by omega
  simp only [reached, form, same]

theorem reached_page {m : Mem} (small : k < 2 ^ 40) (j : Fin 512) :
    reached m cr3 (4096 * k + 8 * j) = reached m cr3 (4096 * k) :=
  reached_within small (Nat.le_add_right _ _) (by omega)

theorem storeWord_self {pml4t : Nat} (root : pml4t / 4096 = cr3) (small : k < 2 ^ 40)
    (self : AtSelf s.mem cr3 (4096 * k)) (j : Fin 512) (w : Word) :
    Linear.storeWord pml4t s (4096 * k + 8 * j) w = some (s.write k j w) := by
  have index : Fin.ofNat 512 ((4096 * k + 8 * j) / 8) = j := by
    apply Fin.ext
    rw [Fin.val_ofNat]
    omega
  rw [AtSelf, Nat.mul_div_cancel_left k (by omega)] at self
  rw [Linear.storeWord, root, reached_page small, self, Option.map_some, index]

theorem load_self {pml4t : Nat} (root : pml4t / 4096 = cr3) (small : k < 2 ^ 40)
    (self : AtSelf s.mem cr3 (4096 * k)) (j : Fin 512) :
    Linear.load pml4t s (4096 * k + 8 * j) = some (s.mem k j) := by
  have index : Fin.ofNat 512 ((4096 * k + 8 * j) / 8) = j := by
    apply Fin.ext
    rw [Fin.val_ofNat]
    omega
  rw [AtSelf, Nat.mul_div_cancel_left k (by omega)] at self
  rw [Linear.load, root, reached_page small, self, Option.map_some, index]

theorem fillPage_self {pml4t : Nat} (root : pml4t / 4096 = cr3) (small : k < 2 ^ 40)
    (self : AtSelf s.mem cr3 (4096 * k)) (unused : Unused child 3 s.mem cr3 k)
    (word : Fin 512 → Word) :
    Linear.fillPage pml4t s (4096 * k) word = some (fillPage s (4096 * k) word) := by
  rw [Linear.fillPage, fillPage, Nat.mul_div_cancel_left k (by omega)]
  generalize List.finRange 512 = js
  induction js generalizing s with
  | nil => rfl
  | cons j js ih =>
    have other : ∀ f, f ≠ k → (s.write k j (word j)).mem f = s.mem f :=
      fun f off => store_other_frame off
    rw [List.foldlM_cons, storeWord_self root small self, Option.bind_eq_bind, Option.bind_some]
    apply ih
    · rw [AtSelf, reached_congr unused other]
      exact self
    · exact unused_congr unused other

theorem zeroPage_other (s : Phys) {f : Nat} (off : f ≠ k) :
    (zeroPage s (4096 * k)).mem f = s.mem f := by
  rw [zeroPage, fillPage_eq]
  exact Function.update_of_ne off _ _

theorem fillPage_absent {pml4t : Nat} (root : pml4t / 4096 = cr3) (small : k < 2 ^ 40)
    (absent : reached s.mem cr3 (4096 * k) = none) (word : Fin 512 → Word) :
    Linear.fillPage pml4t s (4096 * k) word = none := by
  rw [Linear.fillPage, List.finRange_succ, List.foldlM_cons, Linear.storeWord, root,
    reached_page small, absent]
  rfl

end Frames

/-- A page is mapped at its own address, or not at all, and then no table that the function adds
can change that. -/
def SelfOrNone (m : Mem) (cr3 a : Nat) : Prop :=
  AtSelf m cr3 a ∨ reached m cr3 a = none ∧ NoSelfMap m cr3

section Tables

variable {s₀ s : Phys} {cr3 n : Nat} {pdpts dirs : List Nat}

theorem Built.table (boot : BootState s₀ cr3) (built : Built s₀ cr3 n pdpts dirs s)
    (q : List (Fin 512)) {f : Nat} (short : q.length ≤ 3)
    (reach : tableAt child s.mem cr3 q = some f) :
    f ∈ pdpts ++ dirs ∨ ∃ q', q'.length ≤ q.length ∧ tableAt child s₀.mem cr3 q' = some f := by
  induction q using List.reverseRecOn generalizing f with
  | nil => exact .inr ⟨[], Nat.le_refl _, reach⟩
  | append_singleton q i ih =>
    simp only [List.length_append, List.length_singleton] at short ⊢
    rw [tableAt_append, Option.bind_eq_some_iff] at reach
    obtain ⟨g, upper, edge⟩ := reach
    simp only [tableAt, Option.bind_fun_some] at edge
    rcases ih (by omega) upper with new | ⟨q', long, old⟩
    · rcases List.mem_append.mp new with isPdpt | isDir
      · obtain ⟨t, at_t⟩ := List.mem_iff_getElem?.mp isPdpt
        by_cases linked : 512 * t + i.val < n
        · obtain ⟨d, at_d, entry⟩ := built.linked t g i at_t linked
          have inside := List.mem_append_right pdpts (List.mem_of_getElem? at_d)
          rw [entry, tableEntry_child (built.drawn boot inside).1] at edge
          cases Option.some.inj edge
          exact .inl inside
        · rw [built.blank t g i at_t (by omega)] at edge
          cases edge
      · obtain ⟨k, at_k⟩ := List.mem_iff_getElem?.mp isDir
        rw [built.pages k g at_k, gibEntry_child] at edge
        cases edge
    · by_cases slot : g = cr3 ∧ 384 ≤ i.val ∧ i.val < 384 + pdpts.length
      · obtain ⟨rfl, low, high⟩ := slot
        have at_t := List.getElem?_eq_getElem (l := pdpts) (i := i.val - 384) (by omega)
        have inside := List.mem_append_left dirs (List.mem_of_getElem? at_t)
        rw [built.slots _ _ i at_t (by omega), tableEntry_child (built.drawn boot inside).1] at edge
        cases Option.some.inj edge
        exact .inl inside
      · have same := built.old_word boot (i := i) (by omega) old (by omega)
        rw [same] at edge
        exact .inr ⟨q' ++ [i], by simp; omega, tableAt_snoc old edge⟩

theorem Built.fresh_unused (boot : BootState s₀ cr3) (built : Built s₀ cr3 n pdpts dirs s)
    {k : Nat} (free : 4096 * k ∈ s.freePages) : Unused child 3 s.mem cr3 k := by
  intro q short reach
  rcases built.table boot q short reach with new | ⟨q', long, old⟩
  · exact built.off_stack boot new free
  · obtain ⟨j, -, same, unused⟩ := boot.frame (4096 * k) (built.split.mem_iff.mpr (by simp [free]))
    obtain rfl : k = j := by omega
    exact unused q' (by omega) old

theorem Built.reached_kept (boot : BootState s₀ cr3) (built : Built s₀ cr3 n pdpts dirs s)
    (few : pdpts.length ≤ 127) {a : Nat} (low : a < 2 ^ 52) (settled : SelfOrNone s₀.mem cr3 a) :
    reached s.mem cr3 a = reached s₀.mem cr3 a := by
  unfold reached
  split
  · have which : (pdpts.length ≤ 127 ∧ ∃ g, walk s₀.mem cr3 a = some g) ∨ NoSelfMap s₀.mem cr3 := by
      rcases settled with self | ⟨-, once⟩
      · rw [AtSelf, reached, if_pos ‹_›] at self
        exact .inl ⟨few, _, self⟩
      · exact .inr once
    rw [walk, walk, built.trace_kept boot which (by omega)]
  · rfl

theorem Built.self (boot : BootState s₀ cr3) (built : Built s₀ cr3 n pdpts dirs s)
    (few : pdpts.length ≤ 127) {a : Nat} (low : a < 2 ^ 52) (self : AtSelf s₀.mem cr3 a) :
    AtSelf s.mem cr3 a :=
  (built.reached_kept boot few low (.inl self)).trans self

end Tables

section Rounds

variable {s₀ s : Phys} {cr3 n : Nat} {pdpts dirs : List Nat}

theorem Built.zeroed (boot : BootState s₀ cr3) (built : Built s₀ cr3 n pdpts dirs s)
    (few : pdpts.length ≤ 127) {k : Nat} {rest : List Nat}
    (draw : getLowPage s.freePages = some (4096 * k, rest)) (small : k < 2 ^ 40)
    (settled : SelfOrNone s₀.mem cr3 (4096 * k)) :
    (AtSelf s₀.mem cr3 (4096 * k) ∧ Linear.zeroedLowPage (4096 * cr3) s =
        some (4096 * k, zeroPage { s with freePages := rest } (4096 * k))) ∨
      (¬ AtSelf s₀.mem cr3 (4096 * k) ∧ Linear.zeroedLowPage (4096 * cr3) s = none) := by
  have root : 4096 * cr3 / 4096 = cr3 := Nat.mul_div_cancel_left cr3 (by omega)
  have free := (getLowPage_perm draw).mem_iff.mpr List.mem_cons_self
  simp only [Linear.zeroedLowPage, draw, Option.bind_eq_bind, Option.bind_some, Linear.zeroPage]
  have kept := built.reached_kept boot few (show 4096 * k < 2 ^ 52 by omega) settled
  rcases settled with self | ⟨absent, -⟩
  · left
    have cleared := fillPage_self (s := { s with freePages := rest }) root small
      (built.self boot few (by omega) self) (built.fresh_unused boot free) fun _ => 0
    rw [cleared]
    exact ⟨self, rfl⟩
  · right
    have stuck := fillPage_absent (s := { s with freePages := rest }) root small
      (kept.trans absent) fun _ => 0
    rw [stuck, AtSelf, absent]
    exact ⟨by simp, rfl⟩

theorem Built.filled (boot : BootState s₀ cr3) (built : Built s₀ cr3 n pdpts dirs s)
    (few : pdpts.length ≤ 127) {k : Nat} {rest : List Nat} (free : 4096 * k ∈ s.freePages)
    (small : k < 2 ^ 40) (self : AtSelf s₀.mem cr3 (4096 * k)) (word : Fin 512 → Word) :
    Linear.fillPage (4096 * cr3) (zeroPage { s with freePages := rest } (4096 * k)) (4096 * k)
        word = some (fillPage { s with freePages := rest } (4096 * k) word) := by
  have root : 4096 * cr3 / 4096 = cr3 := Nat.mul_div_cancel_left cr3 (by omega)
  have unused := built.fresh_unused boot free
  have same : ∀ f, f ≠ k → (zeroPage { s with freePages := rest } (4096 * k)).mem f = s.mem f :=
    fun f off => zeroPage_other _ off
  rw [fillPage_self root small _ (unused_congr unused same), fill_zeroed]
  rw [AtSelf, reached_congr unused same]
  exact built.self boot few (by omega) self

end Rounds

/- The tables of the frames 1 to 3, where the directory has the first 2 MiB at themselves. -/
section Low

end Low

end Gapxos
