import Mathlib.Data.List.Perm.Subperm
import Gapxos.Pmm.Scan

/-! The pages of the PMM over runs of pmm_alloc_page and pmm_free_page after pmm_init.
A page moves between the stack and its holder; none is ever made. -/
namespace Gapxos

/- `held` is history: the pages out of the PMM's hands that may still be given back. -/
structure Ledger where
  phys : Phys
  held : List Nat

def Ledger.pages (l : Ledger) : List Nat := l.held ++ l.phys.freePages

inductive PmmCall
  | alloc
  | free (addr : Nat)
deriving DecidableEq, Repr

/-- A caller may free only a page it holds; the answer 0 is no page. -/
def PmmCall.step (l : Ledger) : PmmCall → Option Ledger
  | .alloc =>
    let (page, phys) := pmmAllocPage l.phys
    some ⟨phys, if page = 0 then l.held else page :: l.held⟩
  | .free addr =>
    if addr ≠ 0 ∧ addr ∈ l.held then some ⟨pmmFreePage l.phys addr, l.held.erase addr⟩ else none

def Ledger.run (l : Ledger) (calls : List PmmCall) : Option Ledger := calls.foldlM PmmCall.step l

/-- The low page is held from the start. -/
def Pmm.ledger (p : Pmm) : Ledger := ⟨p.phys, if p.apLowPage = 0 then [] else [p.apLowPage]⟩

theorem step_pages {l l' : Ledger} {call : PmmCall} (h : call.step l = some l') :
    l'.pages.Subperm l.pages := by
  cases call with
  | alloc =>
    simp only [PmmCall.step, Option.some.injEq] at h
    subst h
    rcases List.eq_nil_or_concat l.phys.freePages with empty | ⟨rest, page, split⟩
    · rw [pmmAllocPage_empty empty]
      exact List.Subperm.refl _
    · rw [List.concat_eq_append] at split
      have draw : pmmAllocPage l.phys = (page, { l.phys with freePages := rest }) := by
        simp [pmmAllocPage, split]
      have moved : (page :: l.held ++ rest).Perm l.pages := by
        rw [Ledger.pages, split, ← List.append_assoc]
        exact (List.perm_append_singleton page _).symm
      rw [draw]
      dsimp only [Ledger.pages]
      split
      · exact (List.sublist_cons_self page _).subperm.trans moved.subperm
      · exact moved.subperm
  | free addr =>
    simp only [PmmCall.step, Option.ite_none_right_eq_some, Option.some.injEq] at h
    obtain ⟨⟨-, inside⟩, rfl⟩ := h
    have back : (l.held.erase addr ++ (l.phys.freePages ++ [addr])).Perm l.pages := by
      rw [← List.append_assoc]
      exact (List.perm_append_singleton addr _).trans
        ((List.perm_cons_erase inside).symm.append_right l.phys.freePages)
    exact back.subperm

theorem run_pages {calls : List PmmCall} {l l' : Ledger} (h : l.run calls = some l') :
    l'.pages.Subperm l.pages := by
  induction calls generalizing l with
  | nil =>
    cases Option.some.inj h
    exact List.Subperm.refl _
  | cons call calls ih =>
    simp only [Ledger.run, List.foldlM_cons, Option.bind_eq_bind, Option.bind_eq_some_iff] at h
    obtain ⟨next, step, rest⟩ := h
    exact (ih rest).trans (step_pages step)

/- The draws of _init_paging only take pages off the stack, whatever the tables hold. -/
section Draws

theorem zeroedLowPage_draw {s s' : Phys} {page : Nat} (h : zeroedLowPage s = some (page, s')) :
    getLowPage s.freePages = some (page, s'.freePages) := by
  simp only [zeroedLowPage, Option.bind_eq_bind, Option.bind_eq_some_iff, Option.some.injEq,
    Prod.mk.injEq] at h
  obtain ⟨⟨a, rest⟩, draw, rfl, rfl⟩ := h
  rw [zeroPage, fillPage, fill_loop]
  exact draw

theorem zeroedLowPage_stack {s s' : Phys} {page : Nat} (h : zeroedLowPage s = some (page, s')) :
    s'.freePages.Subperm s.freePages :=
  (List.sublist_cons_self _ _).subperm.trans (getLowPage_perm (zeroedLowPage_draw h)).symm.subperm

theorem openPdpt_stack {s s' : Phys} {pml4t : Nat} {slot : Fin 512}
    (h : openPdpt s pml4t slot = some s') : s'.freePages.Subperm s.freePages := by
  unfold openPdpt at h
  split at h
  · cases Option.some.inj h
    exact List.Subperm.refl _
  · simp only [Option.bind_eq_bind, Option.bind_eq_some_iff, Option.some.injEq] at h
    obtain ⟨⟨ptr, s₁⟩, draw, rfl⟩ := h
    show s₁.freePages.Subperm s.freePages
    exact zeroedLowPage_stack draw

theorem mapGib_draws {s s' : Phys} {pml4t i : Nat} (h : mapGib pml4t s i = some s') :
    ∃ page s₁, zeroedLowPage s = some (page, s₁) ∧ s'.freePages.Subperm s₁.freePages := by
  simp only [mapGib, Option.bind_eq_bind, Option.bind_eq_some_iff] at h
  obtain ⟨⟨page, s₁⟩, draw, rest⟩ := h
  split at rest
  · obtain ⟨s₂, opened, eq⟩ := Option.bind_eq_some_iff.mp rest
    cases Option.some.inj eq
    have filled : (fillPage s₁ page (gibEntry i)).freePages = s₁.freePages := by
      rw [fillPage, fill_loop]
    have upper := openPdpt_stack opened
    rw [filled] at upper
    exact ⟨page, s₁, draw, upper⟩
  · cases rest

theorem mapGib_stack {s s' : Phys} {pml4t i : Nat} (h : mapGib pml4t s i = some s') :
    s'.freePages.Subperm s.freePages := by
  obtain ⟨page, s₁, draw, upper⟩ := mapGib_draws h
  exact upper.trans (zeroedLowPage_stack draw)

theorem mapGibs_stack {s s' : Phys} {pml4t : Nat} {rounds : List Nat}
    (h : rounds.foldlM (fun s n => mapGib pml4t s (0x40000000 * n)) s = some s') :
    s'.freePages.Subperm s.freePages := by
  induction rounds generalizing s with
  | nil =>
    cases Option.some.inj h
    exact List.Subperm.refl _
  | cons n rest ih =>
    simp only [List.foldlM_cons, Option.bind_eq_bind, Option.bind_eq_some_iff] at h
    obtain ⟨s₁, round, rest⟩ := h
    exact (ih rest).trans (mapGib_stack round)

theorem initPaging_stack {s s' : Phys} {pml4t physMemLength : Nat}
    (h : initPaging s pml4t physMemLength = some s') : s'.freePages.Subperm s.freePages :=
  mapGibs_stack h

theorem initPaging_draws {s s' : Phys} {pml4t physMemLength : Nat}
    (h : initPaging s pml4t physMemLength = some s') (some_memory : 0 < physMemLength) :
    ∃ page s₁, zeroedLowPage s = some (page, s₁) ∧ s'.freePages.Subperm s₁.freePages := by
  obtain ⟨n, count⟩ : ∃ n, gibs physMemLength = n + 1 :=
    Nat.exists_eq_succ_of_ne_zero (by unfold gibs; omega)
  rw [initPaging, count, List.range_succ_eq_map, List.foldlM_cons] at h
  obtain ⟨s₂, first, rest⟩ := Option.bind_eq_some_iff.mp h
  obtain ⟨page, s₁, draw, upper⟩ := mapGib_draws first
  exact ⟨page, s₁, draw, (mapGibs_stack rest).trans upper⟩

end Draws

theorem pmmInit_pages {mem : Mem} {pml4t : Nat} {mmap : List MmapEntry}
    {unsafeRanges : List MemoryRange} {p : Pmm} (h : pmmInit mem pml4t mmap unsafeRanges = some p) :
    ∃ q, scanMap mem mmap unsafeRanges = some q ∧ p.ledger.pages.Subperm q.ledger.pages := by
  simp only [pmmInit, Option.bind_eq_bind, Option.bind_eq_some_iff, Option.some.injEq] at h
  obtain ⟨q, scan, phys, paging, rfl⟩ := h
  exact ⟨q, scan, (List.subperm_append_left _).mpr (initPaging_stack paging)⟩

theorem pmmInit_fewer {mem : Mem} {pml4t : Nat} {mmap : List MmapEntry}
    {unsafeRanges : List MemoryRange} {p : Pmm} (h : pmmInit mem pml4t mmap unsafeRanges = some p)
    (some_memory : 0 < maxAddr mmap) :
    ∃ q, scanMap mem mmap unsafeRanges = some q ∧
      p.ledger.pages.length < q.ledger.pages.length := by
  simp only [pmmInit, Option.bind_eq_bind, Option.bind_eq_some_iff, Option.some.injEq] at h
  obtain ⟨q, scan, phys, paging, rfl⟩ := h
  obtain ⟨page, s₁, draw, upper⟩ := initPaging_draws paging some_memory
  have drawn := (getLowPage_perm (zeroedLowPage_draw draw)).length_eq
  have left := upper.length_le
  refine ⟨q, scan, ?_⟩
  simp only [Ledger.pages, Pmm.ledger, List.length_append, List.length_cons] at drawn ⊢
  omega

theorem placePage_pages (p : Pmm) (cur : Nat) :
    (placePage p cur).ledger.pages.Subperm (p.ledger.pages ++ [cur]) := by
  unfold placePage
  split
  · rename_i unset
    simp only [Pmm.ledger, Ledger.pages, unset.1, if_true, List.nil_append]
    refine List.Subperm.trans ?_ (List.perm_append_singleton cur p.phys.freePages).symm.subperm
    split
    · exact (List.sublist_cons_self cur _).subperm
    · exact List.Subperm.refl _
  · simp only [Pmm.ledger, Ledger.pages, pmmFreePage, List.append_assoc]
    exact List.Subperm.refl _

theorem place_pages (pages : List Nat) (p : Pmm) :
    (pages.foldl placePage p).ledger.pages.Subperm (p.ledger.pages ++ pages) := by
  induction pages generalizing p with
  | nil => simp [List.Subperm.refl]
  | cons cur pages ih =>
    have step := (List.subperm_append_right pages).mpr (placePage_pages p cur)
    rw [List.append_assoc, List.singleton_append] at step
    exact (ih _).trans step

theorem place_mem (pages : List Nat) (p : Pmm) :
    (pages.foldl placePage p).phys.mem = p.phys.mem := by
  induction pages generalizing p with
  | nil => rfl
  | cons cur pages ih =>
    rw [List.foldl_cons, ih, placePage]
    split <;> rfl

theorem scanMap_pages {mem : Mem} {mmap : List MmapEntry} {unsafeRanges : List MemoryRange}
    {p : Pmm} (h : scanMap mem mmap unsafeRanges = some p) :
    p.ledger.pages.Subperm (candidates mmap unsafeRanges) ∧ p.phys.mem = mem := by
  rw [scanMap_eq, Option.ite_none_right_eq_some, Option.some.injEq] at h
  obtain ⟨-, rfl⟩ := h
  exact ⟨place_pages (candidates mmap unsafeRanges) (zeroedPmm mem), place_mem _ _⟩

end Gapxos
