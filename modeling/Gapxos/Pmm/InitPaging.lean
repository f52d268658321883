import Mathlib.Data.List.Nodup
import Mathlib.Order.Fin.Basic
import Gapxos.Vmm.SetPage
import Gapxos.Pmm.LowPage

/-! `_init_paging`: the direct map of physical memory at PHYSICAL_MAP_OFFSET, built from
frames that the function takes off the stack of free pages while it runs. Here the frames are
stored to as such; `Pmm.Linear` has the same function behind the table that is loaded. -/
namespace Gapxos
open Radix

def pageSize : Word := 0x80#64
def physicalMapOffset : Nat := 0xffffc00000000000

def fillPage (s : Phys) (page : Nat) (word : Fin 512 → Word) : Phys :=
  (List.finRange 512).foldl (fun s j => s.write (page / 4096) j (word j)) s

def zeroPage (s : Phys) (page : Nat) : Phys := fillPage s page fun _ => 0

def gibEntry (i : Nat) (j : Fin 512) : Word :=
  BitVec.ofNat 64 (0x200000 * j + i) ||| pagePresent ||| pageRw ||| pageSize ||| pageGlobal

def tableEntry (ptr : Nat) : Word := BitVec.ofNat 64 ptr ||| pagePresent ||| pageRw

def zeroedLowPage (s : Phys) : Option (Nat × Phys) := do
  let (page, freePages) ← getLowPage s.freePages
  some (page, zeroPage { s with freePages } page)

def openPdpt (s : Phys) (pml4t : Nat) (slot : Fin 512) : Option Phys :=
  if present (s.mem (pml4t / 4096) slot) then some s
  else do
    let (ptr, s) ← zeroedLowPage s
    some (s.write (pml4t / 4096) slot (tableEntry ptr))

/- One round of the loop. A slot past the last one is outside the PML4. -/
def mapGib (pml4t : Nat) (s : Phys) (i : Nat) : Option Phys := do
  let (page, s) ← zeroedLowPage s
  let s := fillPage s page (gibEntry i)
  let offset := (physicalMapOffset &&& 0xffffffffffff) + i
  if slot : offset / 0x8000000000 < 512 then
    let s ← openPdpt s pml4t ⟨offset / 0x8000000000, slot⟩
    let pml4 := s.mem (pml4t / 4096) ⟨offset / 0x8000000000, slot⟩
    let pdpt := (pml4 &&& 0xfffffffffffff000#64).toNat
    let idx := Fin.ofNat 512 (offset % 0x8000000000 / 0x40000000)
    some (s.write (pdpt / 4096) idx (tableEntry page))
  else none

def gibs (physMemLength : Nat) : Nat := (physMemLength + 0x3fffffff) / 0x40000000

/- The counter of the loop cannot wrap: the PML4 ends at 64 TiB. -/
def initPaging (s : Phys) (pml4t physMemLength : Nat) : Option Phys :=
  (List.range (gibs physMemLength)).foldlM (fun s n => mapGib pml4t s (0x40000000 * n)) s

theorem fill_loop (s : Phys) (f : Nat) (word : Fin 512 → Word) (js : List (Fin 512)) :
    js.foldl (fun s j => s.write f j (word j)) s =
      { s with mem := fun g i => if g = f ∧ i ∈ js then word i else s.mem g i } := by
  induction js generalizing s with
  | nil => simp
  | cons j js ih =>
    rw [List.foldl_cons, ih]
    simp only [Phys.write, store, Phys.mk.injEq, List.mem_cons, and_true]
    funext g i
    by_cases here : g = f ∧ i ∈ js
    · rw [if_pos here, if_pos ⟨here.1, .inr here.2⟩]
    · rw [if_neg here]
      by_cases now : g = f ∧ i = j
      · rw [if_pos now, if_pos ⟨now.1, .inl now.2⟩, now.2]
      · rw [if_neg now, if_neg (by tauto)]

theorem fillPage_eq (s : Phys) (k : Nat) (word : Fin 512 → Word) :
    fillPage s (4096 * k) word = { s with mem := Function.update s.mem k word } := by
  rw [fillPage, fill_loop, Nat.mul_div_cancel_left k (by omega)]
  congr 1
  funext g i
  by_cases here : g = k
  · subst here
    simp
  · simp [here]

theorem fill_zeroed (s : Phys) (k : Nat) (word : Fin 512 → Word) :
    fillPage (zeroPage s (4096 * k)) (4096 * k) word = fillPage s (4096 * k) word := by
  rw [zeroPage, fillPage_eq, fillPage_eq, fillPage_eq]
  simp only [Function.update_idem]

section Entries

variable {k : Nat}

theorem tableEntry_child (small : k < 2 ^ 40) : child (tableEntry (4096 * k)) = some k :=
  newEntry_child pageRw_flagWord small

theorem tableEntry_writable (k : Nat) : writable (tableEntry (4096 * k)) = true := by
  simp only [writable, tableEntry, BitVec.getLsbD_or, page_low_bit k (show 1 < 12 by omega)]
  decide

theorem masked_page (w : Word) : (w &&& 0xfffffffffffff000#64).toNat % 4096 = 0 := by
  rw [BitVec.toNat_and, show 4096 = 2 ^ 12 from rfl, Nat.and_mod_two_pow]
  exact Nat.and_zero _

theorem tableEntry_masked (small : k < 2 ^ 40) :
    (tableEntry (4096 * k) &&& 0xfffffffffffff000#64).toNat / 4096 = k := by
  have mask : (0xfffffffffffff000#64).toNat / 2 ^ 12 = 2 ^ 52 - 1 := by decide
  have flags : ∀ w : Word, w = pagePresent ∨ w = pageRw → w.toNat / 2 ^ 12 = 0 := by
    rintro w (rfl | rfl) <;> decide
  rw [BitVec.toNat_and, show (4096 : Nat) = 2 ^ 12 from rfl, Nat.and_div_two_pow, mask,
    Nat.and_two_pow_sub_one_eq_mod, tableEntry, BitVec.toNat_or, BitVec.toNat_or,
    Nat.or_div_two_pow, Nat.or_div_two_pow, flags _ (.inl rfl), flags _ (.inr rfl),
    Nat.or_zero, Nat.or_zero, BitVec.toNat_ofNat]
  omega

theorem gibEntry_bits (n : Nat) (j : Fin 512) :
    present (gibEntry (0x40000000 * n) j) = true ∧ writable (gibEntry (0x40000000 * n) j) = true ∧
      large (gibEntry (0x40000000 * n) j) = true := by
  simp only [present, writable, large, gibEntry, BitVec.getLsbD_or]
  refine ⟨?_, ?_, ?_⟩ <;> simp [pagePresent, pageRw, pageSize]

theorem gibEntry_child (n : Nat) (j : Fin 512) : child (gibEntry (0x40000000 * n) j) = none := by
  rw [child, (gibEntry_bits n j).2.2]
  simp

theorem gibEntry_frame {n : Nat} (small : n < 2 ^ 16) (j : Fin 512) :
    hwFrame (gibEntry (0x40000000 * n) j) = 2 ^ 9 * j + 2 ^ 18 * n := by
  rw [gibEntry, hwFrame_or (by decide), hwFrame_or (by decide), hwFrame_or (by decide),
    hwFrame_or (by decide), hwFrame, BitVec.toNat_ofNat]
  omega

end Entries

/- What _init_paging may count on: the direct map's PML4 slots are empty and the stack
holds distinct frames that are no table. -/
structure BootState (s : Phys) (cr3 : Nat) : Prop where
  empty : ∀ i : Fin 512, 384 ≤ i.val → i.val ≤ 510 → present (s.mem cr3 i) = false
  distinct : s.freePages.Nodup
  frame : ∀ a ∈ s.freePages, ∃ k < 2 ^ 40, a = 4096 * k ∧ Unused child 3 s.mem cr3 k

/- The tables as far as they are built: one PDPT for each PML4 slot from 384 on, one
directory for each GiB, of which `n` are linked. -/
structure Built (s₀ : Phys) (cr3 n : Nat) (pdpts dirs : List Nat) (s : Phys) : Prop where
  split : s₀.freePages.Perm ((pdpts ++ dirs).map (4096 * ·) ++ s.freePages)
  others : ∀ f, f ≠ cr3 → f ∉ pdpts → f ∉ dirs → s.mem f = s₀.mem f
  root : ∀ i : Fin 512, i.val < 384 ∨ 384 + pdpts.length ≤ i.val → s.mem cr3 i = s₀.mem cr3 i
  slots : ∀ t p (i : Fin 512), pdpts[t]? = some p → i.val = 384 + t →
    s.mem cr3 i = tableEntry (4096 * p)
  linked : ∀ t p (j : Fin 512), pdpts[t]? = some p → 512 * t + j < n →
    ∃ d, dirs[512 * t + j]? = some d ∧ s.mem p j = tableEntry (4096 * d)
  blank : ∀ t p (j : Fin 512), pdpts[t]? = some p → n ≤ 512 * t + j → s.mem p j = 0
  pages : ∀ k d, dirs[k]? = some d → s.mem d = gibEntry (0x40000000 * k)

section Steps

variable {s₀ s : Phys} {cr3 n : Nat} {pdpts dirs : List Nat}

theorem Built.start (s₀ : Phys) (cr3 : Nat) : Built s₀ cr3 0 [] [] s₀ :=
  ⟨by simp, by simp, by simp, by simp, by simp, by simp, by simp⟩

theorem Built.fresh (boot : BootState s₀ cr3) (built : Built s₀ cr3 n pdpts dirs s) {a : Nat}
    (h : a ∈ s.freePages) :
    ∃ k < 2 ^ 40, a = 4096 * k ∧ k ≠ cr3 ∧ k ∉ pdpts ∧ k ∉ dirs := by
  obtain ⟨k, small, rfl, unused⟩ := boot.frame a (built.split.mem_iff.mpr (by simp [h]))
  have apart := (List.nodup_append.mp (built.split.nodup_iff.mp boot.distinct)).2.2
  have new : k ∉ pdpts ++ dirs := fun inside =>
    apart (4096 * k) (List.mem_map_of_mem inside) (4096 * k) h rfl
  rw [List.mem_append, not_or] at new
  exact ⟨k, small, rfl, fun same => unused [] (by simp) (by rw [same]; rfl), new.1, new.2⟩

theorem Built.drawn (boot : BootState s₀ cr3) (built : Built s₀ cr3 n pdpts dirs s) {k : Nat}
    (h : k ∈ pdpts ++ dirs) : k < 2 ^ 40 ∧ Unused child 3 s₀.mem cr3 k := by
  obtain ⟨j, small, eq, unused⟩ := boot.frame (4096 * k) (built.split.mem_iff.mpr (by
    rw [List.mem_append]
    exact .inl (List.mem_map_of_mem h)))
  obtain rfl : k = j := by omega
  exact ⟨small, unused⟩

theorem Built.tables (boot : BootState s₀ cr3) (built : Built s₀ cr3 n pdpts dirs s) :
    pdpts.Nodup ∧ dirs.Nodup ∧ (∀ p ∈ pdpts, p ≠ cr3 ∧ p ∉ dirs ∧ p < 2 ^ 40) ∧
      ∀ d ∈ dirs, d ≠ cr3 ∧ d < 2 ^ 40 := by
  have all := built.split.nodup_iff.mp boot.distinct
  have distinct := List.nodup_append.mp (List.Nodup.of_map _ (List.nodup_append.mp all).1)
  have bound : ∀ k ∈ pdpts ++ dirs, k ≠ cr3 ∧ k < 2 ^ 40 := by
    intro k hk
    obtain ⟨small, unused⟩ := built.drawn boot hk
    exact ⟨fun same => unused [] (by simp) (by rw [same]; rfl), small⟩
  refine ⟨distinct.1, distinct.2.1, fun p hp => ?_, fun d hd => bound d (by simp [hd])⟩
  have := bound p (by simp [hp])
  exact ⟨this.1, fun inside => distinct.2.2 p hp p inside rfl, this.2⟩

theorem Built.addDir (boot : BootState s₀ cr3) (built : Built s₀ cr3 n pdpts dirs s) {a : Nat}
    {rest : List Nat} (draw : getLowPage s.freePages = some (a, rest)) :
    ∃ d < 2 ^ 40, a = 4096 * d ∧ Built s₀ cr3 n pdpts (dirs ++ [d])
      (fillPage { s with freePages := rest } a (gibEntry (0x40000000 * dirs.length))) := by
  have perm := getLowPage_perm draw
  obtain ⟨d, small, rfl, root, noPdpt, noDir⟩ :=
    built.fresh boot (perm.mem_iff.mpr List.mem_cons_self)
  refine ⟨d, small, rfl, ?_⟩
  rw [fillPage_eq]
  dsimp only
  have keep : ∀ f, f ≠ d →
      Function.update s.mem d (gibEntry (0x40000000 * dirs.length)) f = s.mem f :=
    fun f other => Function.update_of_ne other _ _
  have away : ∀ (t p : Nat), pdpts[t]? = some p → p ≠ d := by
    rintro t p at_t rfl
    exact noPdpt (List.mem_of_getElem? at_t)
  constructor
  case split =>
    refine built.split.trans ?_
    simp only [List.map_append, List.map_cons, List.map_nil, List.append_assoc,
      List.singleton_append]
    exact (perm.append_left _).append_left _
  case others =>
    intro f other notPdpt notDir
    simp only [List.mem_append, List.mem_singleton, not_or] at notDir
    exact (keep f notDir.2).trans (built.others f other notPdpt notDir.1)
  case root =>
    intro i outside
    exact (congrFun (keep cr3 root.symm) i).trans (built.root i outside)
  case slots =>
    intro t p i at_t eq
    exact (congrFun (keep cr3 root.symm) i).trans (built.slots t p i at_t eq)
  case linked =>
    intro t p j at_t below
    obtain ⟨e, at_e, entry⟩ := built.linked t p j at_t below
    refine ⟨e, ?_, (congrFun (keep p (away t p at_t)) j).trans entry⟩
    rw [List.getElem?_append_left (List.getElem?_eq_some_iff.mp at_e).1, at_e]
  case blank =>
    intro t p j at_t above
    exact (congrFun (keep p (away t p at_t)) j).trans (built.blank t p j at_t above)
  case pages =>
    intro k e at_k
    rw [List.getElem?_append] at at_k
    split at at_k
    · have other : e ≠ d := fun same => noDir (same ▸ List.mem_of_getElem? at_k)
      exact (keep e other).trans (built.pages k e at_k)
    · -- the directory just filled is the last one
      rename_i last
      obtain ⟨at_end, rfl⟩ := List.getElem?_eq_some_iff.mp at_k
      simp only [List.length_singleton] at at_end
      obtain rfl : k = dirs.length := by omega
      simp

theorem Built.addPdpt (boot : BootState s₀ cr3) (built : Built s₀ cr3 n pdpts dirs s) {a : Nat}
    {rest : List Nat} {i : Fin 512} (draw : getLowPage s.freePages = some (a, rest))
    (full : n ≤ 512 * pdpts.length) (slot : i.val = 384 + pdpts.length) :
    ∃ p < 2 ^ 40, a = 4096 * p ∧ Built s₀ cr3 n (pdpts ++ [p]) dirs
      ((zeroPage { s with freePages := rest } a).write cr3 i (tableEntry a)) := by
  have perm := getLowPage_perm draw
  obtain ⟨p, small, rfl, root, noPdpt, noDir⟩ :=
    built.fresh boot (perm.mem_iff.mpr List.mem_cons_self)
  refine ⟨p, small, rfl, ?_⟩
  rw [zeroPage, fillPage_eq]
  dsimp only
  have tables := built.tables boot
  have keep : ∀ f, f ≠ cr3 → f ≠ p →
      store (Function.update s.mem p fun _ => 0) cr3 i (tableEntry (4096 * p)) f = s.mem f := by
    intro f other other'
    rw [store_other_frame other, Function.update_of_ne other']
  have keepRoot : ∀ j, j ≠ i →
      store (Function.update s.mem p fun _ => 0) cr3 i (tableEntry (4096 * p)) cr3 j =
        s.mem cr3 j := by
    intro j other
    rw [store_other (fun same => other same.2), Function.update_of_ne root.symm]
  have old : ∀ t q, (pdpts ++ [p])[t]? = some q →
      (pdpts[t]? = some q ∧ q ≠ p ∧ q ≠ cr3) ∨ (t = pdpts.length ∧ q = p) := by
    intro t q at_t
    rw [List.getElem?_append] at at_t
    split at at_t
    · have member := List.mem_of_getElem? at_t
      exact .inl ⟨at_t, fun same => noPdpt (same ▸ member), (tables.2.2.1 q member).1⟩
    · obtain ⟨at_end, rfl⟩ := List.getElem?_eq_some_iff.mp at_t
      simp only [List.length_singleton] at at_end
      exact .inr ⟨by omega, by simp⟩
  have new : ∀ j, store (Function.update s.mem p fun _ => 0) cr3 i (tableEntry (4096 * p)) p j =
      0 := by
    intro j
    rw [store_other_frame root, Function.update_self]
  constructor
  case split =>
    refine built.split.trans ?_
    simp only [List.map_append, List.map_cons, List.append_assoc, List.singleton_append,
      Phys.write_freePages]
    refine List.Perm.append_left _ ?_
    exact (perm.append_left _).trans List.perm_middle
  case others =>
    intro f other notPdpt notDir
    simp only [List.mem_append, List.mem_singleton, not_or] at notPdpt
    rw [Phys.write_mem, keep f other notPdpt.2, built.others f other notPdpt.1 notDir]
  case root =>
    intro j outside
    simp only [List.length_append, List.length_singleton] at outside
    have other : j ≠ i := by rintro rfl; omega
    rw [Phys.write_mem, keepRoot j other, built.root j (by omega)]
  case slots =>
    intro t q j at_t eq
    rcases old t q at_t with ⟨at_t, -, -⟩ | ⟨rfl, rfl⟩
    · have inside := (List.getElem?_eq_some_iff.mp at_t).1
      have other : j ≠ i := by rintro rfl; omega
      rw [Phys.write_mem, keepRoot j other, built.slots t q j at_t eq]
    · obtain rfl : j = i := Fin.ext (by omega)
      rw [Phys.write_mem, store_same]
  case linked =>
    intro t q j at_t below
    rcases old t q at_t with ⟨at_t, other, other'⟩ | ⟨rfl, rfl⟩
    · rw [Phys.write_mem, keep q other' other]
      exact built.linked t q j at_t below
    · omega
  case blank =>
    intro t q j at_t above
    rcases old t q at_t with ⟨at_t, other, other'⟩ | ⟨rfl, rfl⟩
    · rw [Phys.write_mem, keep q other' other]
      exact built.blank t q j at_t above
    · exact new j
  case pages =>
    intro k d at_k
    have member := List.mem_of_getElem? at_k
    have other : d ≠ p := fun same => noDir (same ▸ member)
    rw [Phys.write_mem, keep d (tables.2.2.2 d member).1 other]
    exact built.pages k d at_k

theorem Built.link (boot : BootState s₀ cr3) (built : Built s₀ cr3 n pdpts dirs s) {t p d : Nat}
    {j : Fin 512} (at_t : pdpts[t]? = some p) (here : n = 512 * t + j)
    (at_n : dirs[n]? = some d) :
    Built s₀ cr3 (n + 1) pdpts dirs (s.write p j (tableEntry (4096 * d))) := by
  have tables := built.tables boot
  have member := List.mem_of_getElem? at_t
  have apart := tables.2.2.1 p member
  have keep : ∀ f, f ≠ p → store s.mem p j (tableEntry (4096 * d)) f = s.mem f :=
    fun f other => store_other_frame other
  -- of all PDPT words only this one changes
  have row : ∀ u q (i : Fin 512), pdpts[u]? = some q → 512 * u + i ≠ n →
      store s.mem p j (tableEntry (4096 * d)) q i = s.mem q i := by
    intro u q i at_u other
    apply store_other
    rintro ⟨rfl, rfl⟩
    have inside := (List.getElem?_eq_some_iff.mp at_u).1
    obtain rfl : u = t := (List.getElem?_inj inside tables.1).mp (at_u.trans at_t.symm)
    omega
  constructor
  case split => exact built.split
  case others =>
    intro f other notPdpt notDir
    rw [Phys.write_mem, keep f (fun same => notPdpt (same ▸ member))]
    exact built.others f other notPdpt notDir
  case root =>
    intro i outside
    rw [Phys.write_mem, keep cr3 apart.1.symm, built.root i outside]
  case slots =>
    intro u q i at_u eq
    rw [Phys.write_mem, keep cr3 apart.1.symm, built.slots u q i at_u eq]
  case linked =>
    intro u q i at_u below
    by_cases now : 512 * u + i.val = n
    · obtain rfl : u = t := by omega
      obtain rfl : i = j := Fin.ext (by omega)
      cases Option.some.inj (at_u.symm.trans at_t)
      exact ⟨d, by rw [now, at_n], by rw [Phys.write_mem, store_same]⟩
    · rw [Phys.write_mem, row u q i at_u now]
      exact built.linked u q i at_u (by omega)
  case blank =>
    intro u q i at_u above
    rw [Phys.write_mem, row u q i at_u (by omega)]
    exact built.blank u q i at_u (by omega)
  case pages =>
    intro k e at_k
    have other : e ≠ p := fun same => apart.2.1 (same ▸ List.mem_of_getElem? at_k)
    rw [Phys.write_mem, keep e other, built.pages k e at_k]

/-- One draw for the directory and one more when the GiB starts a new PML4 slot. -/
def gibDraws (n : Nat) : Nat := if n % 512 = 0 then 2 else 1

theorem openPdpt_step (boot : BootState s₀ cr3) (built : Built s₀ cr3 n pdpts dirs s)
    (slots : pdpts.length = (n + 511) / 512) (bound : n < 127 * 512) {pml4t : Nat}
    (at_cr3 : pml4t / 4096 = cr3) {i : Fin 512} (slot : i.val = 384 + n / 512) :
    (openPdpt s pml4t i).map (·.freePages) = drawLow (gibDraws n - 1) s.freePages ∧
    ∀ s', openPdpt s pml4t i = some s' → ∃ pdpts' p, Built s₀ cr3 n pdpts' dirs s' ∧
      pdpts'.length = n / 512 + 1 ∧ pdpts'[n / 512]? = some p ∧ p < 2 ^ 40 := by
  by_cases first : n % 512 = 0
  · have draws : gibDraws n = 2 := by simp [gibDraws, first]
    have absent : present (s.mem cr3 i) = false := by
      rw [built.root i (by omega)]
      exact boot.empty i (by omega) (by omega)
    rw [draws, openPdpt, at_cr3, absent, zeroedLowPage]
    cases draw : getLowPage s.freePages with
    | none => simp [drawLow, draw]
    | some r =>
      obtain ⟨a, rest⟩ := r
      obtain ⟨p, small, rfl, built'⟩ := built.addPdpt boot draw (by omega) (by omega) (i := i)
      refine ⟨by simp [drawLow, draw, zeroPage, fillPage_eq], ?_⟩
      intro s' eq
      simp only [Bool.false_eq_true, if_false, Option.bind_eq_bind, Option.bind_some,
        Option.some.injEq] at eq
      subst eq
      refine ⟨pdpts ++ [p], p, built', by simp; omega, ?_, small⟩
      rw [List.getElem?_append_right (by omega), show n / 512 - pdpts.length = 0 by omega]
      rfl
  · have draws : gibDraws n = 1 := by simp [gibDraws, first]
    have inside : n / 512 < pdpts.length := by omega
    have at_t := List.getElem?_eq_getElem inside
    have small := ((built.tables boot).2.2.1 _ (List.mem_of_getElem? at_t)).2.2
    have there : present (s.mem cr3 i) = true := by
      rw [built.slots _ _ i at_t slot]
      exact (child_eq_some.mp (tableEntry_child small)).1
    rw [draws, openPdpt, at_cr3, there]
    refine ⟨by simp [drawLow], ?_⟩
    intro s' eq
    simp only [if_true, Option.some.injEq] at eq
    subst eq
    exact ⟨pdpts, _, built, by omega, at_t, small⟩

theorem direct_slot (n : Nat) :
    ((physicalMapOffset &&& 0xffffffffffff) + 0x40000000 * n) / 0x8000000000 = 384 + n / 512 ∧
    ((physicalMapOffset &&& 0xffffffffffff) + 0x40000000 * n) % 0x8000000000 / 0x40000000 =
      n % 512 := by
  have offset : (physicalMapOffset &&& 0xffffffffffff) = 0xc00000000000 := by decide
  rw [offset]
  omega

theorem mapGib_drawn {d : Nat} {rest : List Nat}
    (draw : getLowPage s.freePages = some (4096 * d, rest)) {pml4t : Nat}
    (at_cr3 : pml4t / 4096 = cr3) {i : Fin 512} (slot : i.val = 384 + n / 512) :
    mapGib pml4t s (0x40000000 * n) =
      (openPdpt (fillPage { s with freePages := rest } (4096 * d) (gibEntry (0x40000000 * n)))
        pml4t i).map fun s' =>
          s'.write ((s'.mem cr3 i &&& 0xfffffffffffff000#64).toNat / 4096) (Fin.ofNat 512 (n % 512))
            (tableEntry (4096 * d)) := by
  obtain ⟨value, inside⟩ := i
  dsimp only at slot
  subst slot
  simp only [mapGib, zeroedLowPage, draw, direct_slot, at_cr3, fill_zeroed, Option.bind_eq_bind,
    Option.bind_some, dif_pos inside, Option.map_eq_bind]
  rfl

theorem mapGib_step (boot : BootState s₀ cr3) (built : Built s₀ cr3 n pdpts dirs s)
    (many : dirs.length = n) (slots : pdpts.length = (n + 511) / 512) (bound : n < 127 * 512)
    {pml4t : Nat} (at_cr3 : pml4t / 4096 = cr3) :
    (mapGib pml4t s (0x40000000 * n)).map (·.freePages) = drawLow (gibDraws n) s.freePages ∧
    ∀ s', mapGib pml4t s (0x40000000 * n) = some s' → ∃ pdpts' dirs',
      Built s₀ cr3 (n + 1) pdpts' dirs' s' ∧ dirs'.length = n + 1 ∧
        pdpts'.length = (n + 1 + 511) / 512 := by
  have fits : 384 + n / 512 < 512 := by omega
  have draws : gibDraws n = gibDraws n - 1 + 1 := by unfold gibDraws; split <;> rfl
  rw [draws]
  cases draw : getLowPage s.freePages with
  | none => simp [mapGib, zeroedLowPage, drawLow, draw]
  | some r =>
    obtain ⟨a, rest⟩ := r
    obtain ⟨d, small, rfl, built₁⟩ := built.addDir boot draw
    rw [many] at built₁
    obtain ⟨stack, open_⟩ := openPdpt_step boot built₁ slots bound at_cr3
      (i := ⟨384 + n / 512, fits⟩) rfl
    rw [mapGib_drawn draw at_cr3 (i := ⟨384 + n / 512, fits⟩) rfl, Option.map_map]
    refine ⟨?_, ?_⟩
    · simp only [drawLow, draw, Option.bind_some]
      exact stack.trans (by rw [fillPage_eq])
    · intro s' eq
      obtain ⟨s₁, opened, rfl⟩ := Option.map_eq_some_iff.mp eq
      obtain ⟨pdpts', p, built₂, count, at_p, small'⟩ := open_ s₁ opened
      have at_n : (dirs ++ [d])[n]? = some d := by
        rw [List.getElem?_append_right (by omega), many, Nat.sub_self]
        rfl
      have here : n = 512 * (n / 512) + (Fin.ofNat 512 (n % 512)).val := by
        simp only [Fin.ofNat]
        omega
      rw [built₂.slots _ _ ⟨384 + n / 512, fits⟩ at_p rfl, tableEntry_masked small']
      exact ⟨pdpts', dirs ++ [d], built₂.link boot at_p here at_n, by simp [many], by omega⟩

theorem rounds_built (boot : BootState s₀ cr3) {pml4t : Nat} (at_cr3 : pml4t / 4096 = cr3)
    (bound : n ≤ 127 * 512) :
    ((List.range n).foldlM (fun s k => mapGib pml4t s (0x40000000 * k)) s₀).map (·.freePages) =
      drawLow (n + (n + 511) / 512) s₀.freePages ∧
    ∀ s', (List.range n).foldlM (fun s k => mapGib pml4t s (0x40000000 * k)) s₀ = some s' →
      ∃ pdpts dirs, Built s₀ cr3 n pdpts dirs s' ∧ dirs.length = n ∧
        pdpts.length = (n + 511) / 512 := by
  induction n with
  | zero =>
    refine ⟨rfl, ?_⟩
    rintro s' ⟨⟩
    exact ⟨[], [], Built.start s₀ cr3, rfl, rfl⟩
  | succ n ih =>
    obtain ⟨stack, sofar⟩ := ih (by omega)
    have draws : n + 1 + (n + 1 + 511) / 512 = n + (n + 511) / 512 + gibDraws n := by
      unfold gibDraws
      split <;> omega
    rw [List.range_succ, List.foldlM_append, draws, drawLow_add, ← stack]
    cases run : (List.range n).foldlM (fun s k => mapGib pml4t s (0x40000000 * k)) s₀ with
    | none => simp
    | some s =>
      obtain ⟨pdpts, dirs, built, many, slots⟩ := sofar s run
      have step := mapGib_step boot built many slots (by omega) at_cr3
      simpa using step

end Steps

end Gapxos
