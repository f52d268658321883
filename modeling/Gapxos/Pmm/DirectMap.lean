import Gapxos.Pmm.InitPaging

/-! The direct map as the hardware sees it once `_init_paging` has run: every byte of
physical memory at its offset, every other page where it was. -/
namespace Gapxos
open Radix

/-- No walk comes back to the PML4 as a table of a lower level. -/
def NoSelfMap (m : Mem) (cr3 : Nat) : Prop :=
  ∀ q, q ≠ [] → q.length ≤ 3 → tableAt child m cr3 q ≠ some cr3

section Law

variable {s₀ s : Phys} {cr3 n : Nat} {pdpts dirs : List Nat}

theorem Built.off_stack (boot : BootState s₀ cr3) (built : Built s₀ cr3 n pdpts dirs s) {k : Nat}
    (h : k ∈ pdpts ++ dirs) : 4096 * k ∉ s.freePages := by
  have apart := (List.nodup_append.mp (built.split.nodup_iff.mp boot.distinct)).2.2
  exact fun left => apart _ (List.mem_map_of_mem h) _ left rfl

theorem Built.direct (boot : BootState s₀ cr3) (built : Built s₀ cr3 n pdpts dirs s)
    (slots : pdpts.length = (n + 511) / 512) (bound : n ≤ 127 * 512) {p : Nat}
    (inside : p / 0x40000000 < n) :
    ∃ pdpt ∈ pdpts, ∃ dir ∈ dirs,
      trace child s.mem cr3 (path (physicalMapOffset + p)) = [tableEntry (4096 * pdpt),
        tableEntry (4096 * dir),
        gibEntry (0x40000000 * (p / 0x40000000)) (Fin.ofNat 512 (p / 2 ^ 21))] := by
  have indices : path (physicalMapOffset + p) = [⟨384 + p / 2 ^ 39, by omega⟩,
      Fin.ofNat 512 (p / 2 ^ 30), Fin.ofNat 512 (p / 2 ^ 21), Fin.ofNat 512 (p / 2 ^ 12)] := by
    simp only [path, physicalMapOffset, List.cons.injEq, Fin.ext_iff, Fin.ofNat, and_true]
    omega
  have at_t := List.getElem?_eq_getElem (l := pdpts) (i := p / 2 ^ 39) (by omega)
  have gib : 512 * (p / 2 ^ 39) + (Fin.ofNat 512 (p / 2 ^ 30)).val = p / 0x40000000 := by
    simp only [Fin.ofNat]
    omega
  obtain ⟨dir, at_dir, row⟩ := built.linked _ _ (Fin.ofNat 512 (p / 2 ^ 30)) at_t (by omega)
  have pdptIn := List.mem_of_getElem? at_t
  have dirIn := List.mem_of_getElem? at_dir
  have small := (built.drawn boot (List.mem_append_left dirs pdptIn)).1
  have small' := (built.drawn boot (List.mem_append_right pdpts dirIn)).1
  refine ⟨_, pdptIn, dir, dirIn, ?_⟩
  have root := built.slots _ _ ⟨384 + p / 2 ^ 39, by omega⟩ at_t rfl
  have leaf := congrFun (built.pages _ _ at_dir) (Fin.ofNat 512 (p / 2 ^ 21))
  rw [gib] at leaf
  rw [indices]
  simp only [trace, root, tableEntry_child small, row, tableEntry_child small', leaf,
    gibEntry_child]

theorem Built.maps (boot : BootState s₀ cr3) (built : Built s₀ cr3 n pdpts dirs s)
    (slots : pdpts.length = (n + 511) / 512) (bound : n ≤ 127 * 512) {p : Nat}
    (inside : p / 0x40000000 < n) :
    ∃ pdpt dir e₁ e₂ e₃, trace child s.mem cr3 (path (physicalMapOffset + p)) = [e₁, e₂, e₃] ∧
      child e₁ = some pdpt ∧ child e₂ = some dir ∧
      (∀ e ∈ [e₁, e₂, e₃], present e = true ∧ writable e = true) ∧ large e₃ = true ∧
      walk s.mem cr3 (physicalMapOffset + p) = some (p / 4096) ∧
      4096 * pdpt ∉ s.freePages ∧ 4096 * dir ∉ s.freePages := by
  obtain ⟨pdpt, pdptIn, dir, dirIn, entries⟩ := built.direct boot slots bound inside
  have edge := tableEntry_child (built.drawn boot (List.mem_append_left dirs pdptIn)).1
  have edge' := tableEntry_child (built.drawn boot (List.mem_append_right pdpts dirIn)).1
  have bits := gibEntry_bits (p / 0x40000000) (Fin.ofNat 512 (p / 2 ^ 21))
  refine ⟨pdpt, dir, _, _, _, entries, edge, edge', ?_, bits.2.2, ?_,
    built.off_stack boot (List.mem_append_left dirs pdptIn),
    built.off_stack boot (List.mem_append_right pdpts dirIn)⟩
  · simp only [List.mem_cons, List.not_mem_nil, or_false, forall_eq_or_imp, forall_eq]
    exact ⟨⟨(child_eq_some.mp edge).1, tableEntry_writable _⟩,
      ⟨(child_eq_some.mp edge').1, tableEntry_writable _⟩, bits.1, bits.2.1⟩
  · rw [walk, entries, translate, bits.1, bits.2.2, gibEntry_frame (by omega)]
    simp only [Bool.and_self, if_true, Option.some.injEq, Fin.ofNat, physicalMapOffset]
    omega

theorem Built.old_frame (boot : BootState s₀ cr3) (built : Built s₀ cr3 n pdpts dirs s)
    {q : List (Fin 512)} {f : Nat} (short : q.length ≤ 3)
    (reach : tableAt child s₀.mem cr3 q = some f) (other : f ≠ cr3) : s.mem f = s₀.mem f := by
  have old : f ∉ pdpts ++ dirs := fun new => (built.drawn boot new).2 q short reach
  rw [List.mem_append, not_or] at old
  exact built.others f other old.1 old.2

theorem Built.old_word (boot : BootState s₀ cr3) (built : Built s₀ cr3 n pdpts dirs s)
    {q : List (Fin 512)} {f : Nat} {i : Fin 512} (short : q.length ≤ 3)
    (reach : tableAt child s₀.mem cr3 q = some f)
    (slot : f = cr3 → i.val < 384 ∨ 384 + pdpts.length ≤ i.val) : s.mem f i = s₀.mem f i := by
  by_cases top : f = cr3
  · subst top
    exact built.root i (slot rfl)
  · exact congrFun (built.old_frame boot short reach top) i

theorem Built.old_slot (boot : BootState s₀ cr3) (slots : pdpts.length ≤ 127) {i : Fin 512}
    (there : present (s₀.mem cr3 i) = true) : i.val < 384 ∨ 384 + pdpts.length ≤ i.val := by
  by_contra inside
  have absent := boot.empty i (by omega) (by omega)
  rw [there] at absent
  cases absent

theorem walk_present {m : Mem} {v g f : Nat} {q r : List (Fin 512)} {i : Fin 512}
    (found : walk m cr3 v = some g) (split : path v = q ++ i :: r)
    (reach : tableAt child m cr3 q = some f) : present (m f i) = true := by
  by_contra absent
  rw [Bool.not_eq_true] at absent
  have last : (trace child m cr3 (path v)).getLast? = some (m f i) := by
    rw [split, trace_append reach, trace, child_absent absent]
    simp
  rw [walk, translate_absent last absent] at found
  cases found

/- The walk of an address is as it was if it had a result, or if the PML4 is no lower table and
the address lies in none of the slots that got a PDPT. -/
theorem Built.trace_kept (boot : BootState s₀ cr3) (built : Built s₀ cr3 n pdpts dirs s) {v : Nat}
    (which : (pdpts.length ≤ 127 ∧ ∃ g, walk s₀.mem cr3 v = some g) ∨ NoSelfMap s₀.mem cr3)
    (slot : ¬ (384 ≤ v / 2 ^ 39 % 512 ∧ v / 2 ^ 39 % 512 < 384 + pdpts.length)) :
    trace child s.mem cr3 (path v) = trace child s₀.mem cr3 (path v) := by
  apply trace_along
  intro q i r f split reach
  have short : q.length ≤ 3 := by
    have count := congrArg List.length split
    rw [path_length, List.length_append, List.length_cons] at count
    omega
  apply built.old_word boot short reach
  rintro rfl
  rcases which with ⟨few, g, found⟩ | once
  · exact Built.old_slot boot few (walk_present found split reach)
  · -- the PML4 is only the first table of the walk
    cases q with
    | nil =>
      have top : Fin.ofNat 512 (v / 2 ^ 39) = i := by
        rw [path, List.nil_append, List.cons.injEq] at split
        exact split.1
      have value : i.val = v / 2 ^ 39 % 512 := by rw [← top]; rfl
      omega
    | cons j q => exact absurd reach (once (j :: q) (by simp) short)

theorem Built.keeps (boot : BootState s₀ cr3) (built : Built s₀ cr3 n pdpts dirs s)
    (slots : pdpts.length = (n + 511) / 512) (bound : n ≤ 127 * 512)
    (once : NoSelfMap s₀.mem cr3) {v : Nat}
    (outside : ¬ (0xc00000000000 ≤ v % 2 ^ 48 ∧ v % 2 ^ 48 < 0xc00000000000 + 0x40000000 * n)) :
    view s.mem cr3 v = view s₀.mem cr3 v := by
  unfold view
  have index : (Fin.ofNat 512 (v / 2 ^ 39)).val = v / 2 ^ 39 % 512 := rfl
  have index' : (Fin.ofNat 512 (v / 2 ^ 30)).val = v / 2 ^ 30 % 512 := rfl
  by_cases new : 384 ≤ v / 2 ^ 39 % 512 ∧ v / 2 ^ 39 % 512 < 384 + pdpts.length
  · -- a slot that is new, at a GiB that is not linked: no page there, before or after
    have at_t := List.getElem?_eq_getElem (l := pdpts) (i := v / 2 ^ 39 % 512 - 384) (by omega)
    have root := built.slots _ _ (Fin.ofNat 512 (v / 2 ^ 39)) at_t (by omega)
    have edge := tableEntry_child
      (built.drawn boot (List.mem_append_left dirs (List.mem_of_getElem? at_t))).1
    have zero := built.blank _ _ (Fin.ofNat 512 (v / 2 ^ 30)) at_t (by omega)
    have absent := boot.empty (Fin.ofNat 512 (v / 2 ^ 39)) (by omega) (by omega)
    have after : trace child s.mem cr3 (path v) =
        [tableEntry (4096 * pdpts[v / 2 ^ 39 % 512 - 384]), 0] := by
      simp only [path, trace, root, edge, zero, child_absent (show present 0 = false from rfl)]
    have before : trace child s₀.mem cr3 (path v) =
        [s₀.mem cr3 (Fin.ofNat 512 (v / 2 ^ 39))] := by
      simp only [path, trace, child_absent absent]
    rw [after, before]
    rfl
  · rw [built.trace_kept boot (.inr once) (by omega)]

end Law

/-- The frames a direct map of that length needs: a directory per GiB, a PDPT per slot. -/
def tableCount (physMemLength : Nat) : Nat :=
  gibs physMemLength + (gibs physMemLength + 511) / 512

/-- At every draw the least entry is where an int can still count to. -/
def LowDraws (pages : List Nat) (physMemLength : Nat) : Prop :=
  ∀ d < tableCount physMemLength, NearLow (dropLow d pages)

theorem lowDraws_short {pages : List Nat} (short : pages.length < 2 ^ 31) (physMemLength : Nat) :
    LowDraws pages physMemLength :=
  fun d _ => nearLow_short (Nat.lt_of_le_of_lt (dropLow_length d pages) short)

theorem initPaging_built {s : Phys} {pml4t physMemLength : Nat}
    (bound : physMemLength ≤ 127 * 2 ^ 39) (boot : BootState s (pml4t / 4096)) :
    (initPaging s pml4t physMemLength).map (·.freePages) =
      drawLow (tableCount physMemLength) s.freePages ∧
    ∀ s', initPaging s pml4t physMemLength = some s' → ∃ pdpts dirs,
      Built s (pml4t / 4096) (gibs physMemLength) pdpts dirs s' ∧
        pdpts.length = (gibs physMemLength + 511) / 512 := by
  have few : gibs physMemLength ≤ 127 * 512 := by unfold gibs; omega
  obtain ⟨stack, built⟩ := rounds_built boot rfl few
  refine ⟨stack, fun s' run => ?_⟩
  obtain ⟨pdpts, dirs, built, -, slots⟩ := built s' run
  exact ⟨pdpts, dirs, built, slots⟩

/- The chain of four tables in the frames 1 to 4, with any stack of frames above them. -/
section Chain

theorem chainMem_slots (f : Nat) (i : Fin 512) (high : 384 ≤ i.val) :
    present (chainMem f i) = false := by
  have other : i ≠ 0 := by rintro rfl; simp at high
  simp [chainMem, other, present]

theorem chainMem_unused {k : Nat} (other : k = 0 ∨ 5 ≤ k) : Unused child 3 chainMem 1 k := by
  intro p short reach
  have := (chainMem_tableAt reach).2
  omega

theorem chainMem_boot {frames : List Nat} (distinct : frames.Nodup)
    (above : ∀ k ∈ frames, 5 ≤ k ∧ k < 2 ^ 40) :
    BootState ⟨chainMem, frames.map (4096 * ·), 0⟩ 1 := by
  refine ⟨?_, ?_, ?_⟩
  · exact fun i high _ => chainMem_slots 1 i high
  · exact distinct.map fun a b same => by simpa using same
  · intro a member
    obtain ⟨k, inside, rfl⟩ := List.mem_map.mp member
    exact ⟨k, (above k inside).2, rfl, chainMem_unused (.inr (above k inside).1)⟩

end Chain

end Gapxos
