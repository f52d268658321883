import Gapxos.Vmm.SetPage
import Gapxos.Vmm.Joins

/-! A request that no free block can meet. The search for a block fails, but the loop that
maps pages runs all the same, from address 0. It leaves no trace only where each of its
writes stores what is there already. -/
namespace Gapxos
open Radix SearchTree

/- set_page as one loop over the indices of the path: flags go into every entry but the
last, which becomes `c`. -/
def writePath (s : Phys) (f : Nat) (fl c : Word) : List (Fin 512) → Phys
  | [] => s
  | [i] => s.write f i c
  | i :: j :: p => writePath (nextTable s f i fl).1 (nextTable s f i fl).2 fl c (j :: p)

theorem setPage_path (s : Phys) (pml4t v paddr : Nat) (flags : PageFlags) :
    setPage s pml4t v paddr flags =
      writePath s (pml4t / 4096) (tableFlags flags) (leafEntry paddr flags) (path v) := by
  rw [setPage, getPageTableEntry_masked]
  rfl

/-- The tables the code follows have the flags in each entry, and `c` in the last one. -/
def Settled (m : Mem) (fl c : Word) : Nat → List (Fin 512) → Prop
  | _, [] => True
  | f, [i] => m f i = c
  | f, i :: j :: p => m f i ||| fl = m f i ∧ Settled m fl c (frameOf (m f i)) (j :: p)

structure Same (s s' : Phys) : Prop where
  mem : s'.mem = s.mem
  stack : s'.freePages = s.freePages

/-- A word that will not be `old` again: it has the flags now, and was `c` or had not. -/
structure Lost (fl c old w : Word) : Prop where
  changed : w ≠ old
  flags : w ||| fl = w
  was : old ||| fl = old → w = c

/- One write of the loop at an entry with index `i`: flags are added, or the entry of a
page is stored, which depends on `i` alone. A page may be drawn for it. -/
structure Touch (fl : Word) (leaf : Fin 512 → Word) (s s' : Phys) (f : Nat) (i : Fin 512)
    (w : Word) : Prop where
  mem : s'.mem = store s.mem f i w
  flags : w ||| fl = w
  kind : (s.mem f i ||| fl = s.mem f i → w = s.mem f i) ∨ w = leaf i
  stack : s'.freePages = s.freePages ∨ s'.freePages.length < s.freePages.length

structure Gone (fl : Word) (leaf : Fin 512 → Word) (old s : Phys) : Prop where
  stack : s.freePages.length ≤ old.freePages.length
  trace : s.freePages.length < old.freePages.length ∨
    ∃ f i, Lost fl (leaf i) (old.mem f i) (s.mem f i)

section Loop

variable {fl : Word} {leaf : Fin 512 → Word} {old s s' : Phys} {f : Nat} {i : Fin 512} {w : Word}

theorem Gone.not_same (gone : Gone fl leaf old s) : ¬ Same old s := by
  rintro ⟨mem, stack⟩
  rcases gone.trace with less | ⟨f, i, lost⟩
  · rw [stack] at less
    omega
  · exact lost.changed (by rw [mem])

theorem Gone.touch (gone : Gone fl leaf old s) (touch : Touch fl leaf s s' f i w) :
    Gone fl leaf old s' := by
  have stack : s'.freePages.length ≤ s.freePages.length := by
    rcases touch.stack with same | less
    · rw [same]
    · omega
  refine ⟨stack.trans gone.stack, ?_⟩
  rcases gone.trace with less | ⟨g, j, lost⟩
  · exact .inl (by omega)
  refine .inr ⟨g, j, ?_⟩
  rw [touch.mem]
  by_cases hit : g = f ∧ j = i
  · obtain ⟨rfl, rfl⟩ := hit
    rw [store_same]
    rcases touch.kind with keep | new
    · rw [keep lost.flags]
      exact lost
    · -- the entry of the page: not the old word, which had not the flags or is overwritten
      refine ⟨?_, touch.flags, fun _ => new⟩
      rintro rfl
      exact lost.changed ((lost.was touch.flags).trans new.symm)
  · rw [store_other hit]
    exact lost

theorem Same.touch (same : Same old s) (touch : Touch fl leaf s s' f i w) :
    (w = old.mem f i ∧ Same old s') ∨ Gone fl leaf old s' := by
  have length : s.freePages.length = old.freePages.length := by rw [same.stack]
  rcases touch.stack with stack | less
  · by_cases kept : w = old.mem f i
    · refine .inl ⟨kept, ?_, stack.trans same.stack⟩
      rw [touch.mem, same.mem, kept, store_self]
    · refine .inr ⟨by rw [stack, length], .inr ⟨f, i, ?_⟩⟩
      rw [touch.mem, store_same]
      refine ⟨kept, touch.flags, fun had => ?_⟩
      rcases touch.kind with keep | new
      · rw [same.mem] at keep
        exact absurd (keep had) kept
      · exact new
  · exact .inr ⟨by omega, .inl (by omega)⟩

theorem pmmAllocPage_length (s : Phys) :
    (pmmAllocPage s).2.freePages.length = s.freePages.length - 1 := by
  cases last : s.freePages.getLast? with
  | none => simp [pmmAllocPage, List.getLast?_eq_none_iff.mp last]
  | some page => simp [pmmAllocPage, last]

theorem pmmAllocPage_stack (s : Phys) : (pmmAllocPage s).2.freePages = s.freePages ∨
    (pmmAllocPage s).2.freePages.length < s.freePages.length := by
  by_cases empty : s.freePages = []
  · exact .inl (by rw [pmmAllocPage_empty empty])
  · have length := pmmAllocPage_length s
    have := List.length_pos_iff.mpr empty
    exact .inr (by omega)

theorem nextTable_touch (leaf : Fin 512 → Word) (here : present fl = true) (s : Phys) (f : Nat)
    (i : Fin 512) : ∃ w, Touch fl leaf s (nextTable s f i fl).1 f i w ∧
      (nextTable s f i fl).2 = frameOf w := by
  by_cases there : present (s.mem f i)
  · refine ⟨s.mem f i ||| fl, ?_, by simp [nextTable, there]⟩
    exact ⟨by simp [nextTable, there], or_twice _ _, .inl id, .inl (by simp [nextTable, there])⟩
  · have entry : ∃ a, (nextTable s f i fl).1.mem = store s.mem f i (a ||| fl) ∧
        (nextTable s f i fl).2 = frameOf (a ||| fl) := by
      refine ⟨BitVec.ofNat 64 (pmmAllocPage s).1 ||| pagePresent, ?_, ?_⟩ <;>
        simp [nextTable, there, store_store]
    obtain ⟨a, mem, frame⟩ := entry
    refine ⟨a ||| fl, ⟨mem, or_twice _ _, .inl fun had => ?_, ?_⟩, frame⟩
    · exact absurd (bit_of_has had here) there
    · simpa [nextTable, there] using pmmAllocPage_stack s

variable {c : Word} {p : List (Fin 512)}

theorem write_touch (ends : c = leaf i) (flags : c ||| fl = c) (s : Phys) (f : Nat) :
    Touch fl leaf s (s.write f i c) f i c :=
  ⟨rfl, flags, .inr ends, .inl rfl⟩

theorem Gone.path (here : present fl = true) (flags : c ||| fl = c)
    (ends : ∀ i, p.getLast? = some i → c = leaf i) (gone : Gone fl leaf old s) :
    Gone fl leaf old (writePath s f fl c p) := by
  induction p generalizing s f with
  | nil => exact gone
  | cons i p ih =>
    cases p with
    | nil => exact gone.touch (write_touch (ends i rfl) flags s f)
    | cons j p =>
      obtain ⟨w, touch, _⟩ := nextTable_touch leaf here s f i
      exact ih (fun k last => ends k (by simpa using last)) (gone.touch touch)

theorem Same.path (here : present fl = true) (flags : c ||| fl = c)
    (ends : ∀ i, p.getLast? = some i → c = leaf i) (same : Same old s) :
    (Settled old.mem fl c f p ∧ Same old (writePath s f fl c p)) ∨
      Gone fl leaf old (writePath s f fl c p) := by
  induction p generalizing s f with
  | nil => exact .inl ⟨trivial, same⟩
  | cons i p ih =>
    cases p with
    | nil =>
      rcases same.touch (write_touch (ends i rfl) flags s f) with ⟨kept, same'⟩ | gone
      · exact .inl ⟨kept.symm, same'⟩
      · exact .inr gone
    | cons j p =>
      have last : ∀ k, (j :: p).getLast? = some k → c = leaf k :=
        fun k last => ends k (by simpa using last)
      obtain ⟨w, touch, frame⟩ := nextTable_touch leaf here s f i
      rcases same.touch touch with ⟨kept, same'⟩ | gone
      · rcases ih (f := (nextTable s f i fl).2) last same' with ⟨settled, final⟩ | gone
        · rw [frame, kept] at settled
          exact .inl ⟨⟨kept ▸ touch.flags, settled⟩, final⟩
        · exact .inr gone
      · exact .inr (by rw [writePath]; exact gone.path here flags last)

theorem Settled.same (here : present fl = true) (same : Same old s)
    (settled : Settled old.mem fl c f p) : Same old (writePath s f fl c p) := by
  induction p generalizing s f with
  | nil => exact same
  | cons i p ih =>
    cases p with
    | nil =>
      have kept : old.mem f i = c := settled
      refine ⟨?_, same.stack⟩
      rw [writePath, Phys.write_mem, same.mem, ← kept, store_self]
    | cons j p =>
      obtain ⟨has, rest⟩ := settled
      have has' : s.mem f i ||| fl = s.mem f i := by rw [same.mem]; exact has
      have there := bit_of_has has' here
      have step : nextTable s f i fl = (s.write f i (s.mem f i), frameOf (s.mem f i)) := by
        simp [nextTable, present, there, has']
      rw [writePath, step]
      refine ih ⟨?_, same.stack⟩ (by rw [same.mem]; exact rest)
      rw [Phys.write_mem, store_self, same.mem]

/- A loop of such writes over pages: either each of them finds its page as it would leave
it, or the state is gone for good. -/
theorem loop_same {step : Phys → Nat → Phys} {Q : Nat → Prop} (n : Nat)
    (keep : ∀ s i, i < n → Same old s →
      (Q i ∧ Same old (step s i)) ∨ Gone fl leaf old (step s i))
    (lose : ∀ s i, i < n → Gone fl leaf old s → Gone fl leaf old (step s i)) :
    ((∀ i < n, Q i) ∧ Same old ((List.range n).foldl step old)) ∨
      Gone fl leaf old ((List.range n).foldl step old) := by
  induction n with
  | zero => exact .inl ⟨fun i less => absurd less (Nat.not_lt_zero i), rfl, rfl⟩
  | succ n ih =>
    rw [List.range_succ, List.foldl_append, List.foldl_cons, List.foldl_nil]
    have before := ih (fun s i less => keep s i (by omega)) fun s i less => lose s i (by omega)
    rcases before with ⟨all, same⟩ | gone
    · rcases keep _ n (by omega) same with ⟨last, same'⟩ | gone
      · refine .inl ⟨fun i less => ?_, same'⟩
        rcases Nat.lt_succ_iff_lt_or_eq.mp less with less | rfl
        · exact all i less
        · exact last
      · exact .inr gone
    · exact .inr (lose _ n (by omega) gone)

theorem loop_settled {step : Phys → Nat → Phys} (n : Nat)
    (keep : ∀ s i, i < n → Same old s → Same old (step s i)) :
    Same old ((List.range n).foldl step old) := by
  induction n with
  | zero => exact ⟨rfl, rfl⟩
  | succ n ih =>
    rw [List.range_succ, List.foldl_append, List.foldl_cons, List.foldl_nil]
    exact keep _ n (by omega) (ih fun s i less => keep s i (by omega))

theorem writePath_stack (here : present fl = true) (s : Phys) (f : Nat) (c : Word)
    (p : List (Fin 512)) : (writePath s f fl c p).freePages.length ≤ s.freePages.length := by
  induction p generalizing s f with
  | nil => exact Nat.le_refl _
  | cons i p ih =>
    cases p with
    | nil => exact Nat.le_refl _
    | cons j p =>
      obtain ⟨w, touch, _⟩ := nextTable_touch (fun _ => c) here s f i
      refine (ih _ _).trans ?_
      rcases touch.stack with same | less
      · rw [same]
      · omega

theorem foldl_stack {step : Phys → Nat → Phys}
    (le : ∀ s i, (step s i).freePages.length ≤ s.freePages.length) (is : List Nat) (s : Phys) :
    (is.foldl step s).freePages.length ≤ s.freePages.length := by
  induction is generalizing s with
  | nil => exact Nat.le_refl _
  | cons i is ih => exact (ih _).trans (le s i)

end Loop

theorem leafEntry_flags (paddr : Nat) (flags : PageFlags) :
    leafEntry paddr flags ||| tableFlags flags = leafEntry paddr flags := by
  rw [leafEntry, BitVec.or_assoc, BitVec.or_comm (ite ..), ← BitVec.or_assoc, or_twice]

/-- The first `pageCount` pages are mapped as the loop would map them. -/
def SettledPages (m : Mem) (pml4t pageCount : Nat) (paddr : Nat → Nat) (flags : PageFlags) : Prop :=
  ∀ i < pageCount, Settled m (tableFlags flags) (leafEntry (paddr i) flags) (pml4t / 4096)
    (path ((0 + i * 0x1000) % 2 ^ 64))

section Pages

variable {phys : Phys} {pml4t pageCount : Nat} {flags : PageFlags}

theorem mapFreshPage_path (pml4t addr : Nat) (flags : PageFlags) (s : Phys) (i : Nat) :
    mapFreshPage pml4t addr flags s i = writePath (pmmAllocPage s).2 (pml4t / 4096)
      (tableFlags flags) (leafEntry (pmmAllocPage s).1 flags)
      (path ((addr + i * 0x1000) % 2 ^ 64)) :=
  setPage_path ..

theorem mapFresh_draws (pml4t : Nat) (here : flags.present = true) (pos : 0 < pageCount)
    (some : phys.freePages ≠ []) :
    (mapFresh phys pml4t 0 pageCount flags).freePages.length < phys.freePages.length := by
  have fl : present (tableFlags flags) = true := (tableFlags_bits flags).1.trans here
  have pass : ∀ s i,
      (mapFreshPage pml4t 0 flags s i).freePages.length ≤ s.freePages.length - 1 := by
    intro s i
    rw [← pmmAllocPage_length, mapFreshPage_path]
    exact writePath_stack fl _ _ _ _
  obtain ⟨k, rfl⟩ := Nat.exists_eq_succ_of_ne_zero (Nat.ne_of_gt pos)
  rw [mapFresh, List.range_succ_eq_map, List.foldl_cons]
  have rest := foldl_stack (fun s i => (pass s i).trans (Nat.sub_le _ _))
    ((List.range k).map Nat.succ) (mapFreshPage pml4t 0 flags phys 0)
  have first := pass phys 0
  have := List.length_pos_iff.mpr some
  omega

theorem mapFresh_same (here : flags.present = true) (pos : 0 < pageCount) :
    Same phys (mapFresh phys pml4t 0 pageCount flags) ↔
      phys.freePages = [] ∧ SettledPages phys.mem pml4t pageCount (fun _ => 0) flags := by
  have fl : present (tableFlags flags) = true := (tableFlags_bits flags).1.trans here
  by_cases empty : phys.freePages = []
  · have pass : ∀ s i, s.freePages.length ≤ phys.freePages.length →
        mapFreshPage pml4t 0 flags s i = writePath { s with misses := s.misses + 1 }
          (pml4t / 4096) (tableFlags flags) (leafEntry 0 flags)
          (path ((0 + i * 0x1000) % 2 ^ 64)) := by
      intro s i le
      rw [empty] at le
      have none := List.length_eq_zero_iff.mp (Nat.le_zero.mp le)
      rw [mapFreshPage_path, pmmAllocPage_empty none]
    constructor
    · intro same
      have keep : ∀ s i, i < pageCount → Same phys s →
          (Settled phys.mem (tableFlags flags) (leafEntry 0 flags) (pml4t / 4096)
            (path ((0 + i * 0x1000) % 2 ^ 64)) ∧ Same phys (mapFreshPage pml4t 0 flags s i)) ∨
          Gone (tableFlags flags) (fun _ => leafEntry 0 flags) phys
            (mapFreshPage pml4t 0 flags s i) := by
        intro s i _ kept
        rw [pass s i (by rw [kept.stack])]
        exact Same.path fl (leafEntry_flags 0 flags) (fun _ _ => rfl) ⟨kept.mem, kept.stack⟩
      have lose : ∀ s i, i < pageCount →
          Gone (tableFlags flags) (fun _ => leafEntry 0 flags) phys s →
          Gone (tableFlags flags) (fun _ => leafEntry 0 flags) phys
            (mapFreshPage pml4t 0 flags s i) := by
        intro s i _ gone
        rw [pass s i gone.stack]
        exact Gone.path fl (leafEntry_flags 0 flags) (fun _ _ => rfl) ⟨gone.stack, gone.trace⟩
      rcases loop_same pageCount keep lose with ⟨all, _⟩ | gone
      · exact ⟨empty, all⟩
      · exact absurd same gone.not_same
    · rintro ⟨_, settled⟩
      refine loop_settled pageCount fun s i less kept => ?_
      rw [pass s i (by rw [kept.stack])]
      exact Settled.same fl ⟨kept.mem, kept.stack⟩ (settled i less)
  · refine iff_of_false (fun same => ?_) fun h => empty h.1
    have less := mapFresh_draws pml4t here pos empty
    rw [same.stack] at less
    omega

theorem mapRange_settled (here : flags.present = true) {mapAddr : Nat}
    (settled : SettledPages phys.mem pml4t pageCount
      (fun i => (mapAddr + i * 0x1000) % 2 ^ 64) flags) :
    Same phys (mapRange phys pml4t 0 mapAddr pageCount flags) := by
  refine loop_settled pageCount fun s i less kept => ?_
  rw [setPage_path]
  exact Settled.same ((tableFlags_bits flags).1.trans here) kept (settled i less)

theorem mapRange_same (here : flags.present = true) {mapAddr : Nat} (few : pageCount ≤ 512)
    (same : Same phys (mapRange phys pml4t 0 mapAddr pageCount flags)) :
    SettledPages phys.mem pml4t pageCount (fun i => (mapAddr + i * 0x1000) % 2 ^ 64) flags := by
  have fl : present (tableFlags flags) = true := (tableFlags_bits flags).1.trans here
  let entry (i : Nat) : Word := leafEntry ((mapAddr + i * 0x1000) % 2 ^ 64) flags
  have ends : ∀ i < pageCount, ∀ k, (path ((0 + i * 0x1000) % 2 ^ 64)).getLast? = some k →
      entry i = entry k := by
    intro i less k last
    have index : k.val = i := by
      simp only [path, List.getLast?_cons_cons, List.getLast?_singleton, Option.some.injEq] at last
      rw [← last]
      simp only [Fin.ofNat]
      omega
    rw [index]
  have keep : ∀ s i, i < pageCount → Same phys s →
      (Settled phys.mem (tableFlags flags) (entry i) (pml4t / 4096)
        (path ((0 + i * 0x1000) % 2 ^ 64)) ∧
        Same phys (setPage s pml4t ((0 + i * 0x1000) % 2 ^ 64) ((mapAddr + i * 0x1000) % 2 ^ 64)
          flags)) ∨
      Gone (tableFlags flags) (fun k => entry k) phys
        (setPage s pml4t ((0 + i * 0x1000) % 2 ^ 64) ((mapAddr + i * 0x1000) % 2 ^ 64) flags) := by
    intro s i less kept
    rw [setPage_path]
    exact Same.path fl (leafEntry_flags _ flags) (ends i less) kept
  have lose : ∀ s i, i < pageCount → Gone (tableFlags flags) (fun k => entry k) phys s →
      Gone (tableFlags flags) (fun k => entry k) phys
        (setPage s pml4t ((0 + i * 0x1000) % 2 ^ 64) ((mapAddr + i * 0x1000) % 2 ^ 64) flags) := by
    intro s i less gone
    rw [setPage_path]
    exact Gone.path fl (leafEntry_flags _ flags) (ends i less) gone
  rcases loop_same pageCount keep lose with ⟨all, _⟩ | gone
  · exact all
  · exact absurd same gone.not_same

end Pages

section Requests

variable {σ : Type}

theorem allocVirt_full (src : NodeSource σ) {m : MemoryManager} {pageCount : Nat}
    (full : ∀ v ∈ m.tree.toList, v.allocated = false → v.pageCount < pageCount)
    (ne : m.tree ≠ .nil) (st : σ × Phys) :
    allocVirt src m pageCount st = some (0, m, st) := by
  have none : avlMinSize pageCount m.tree = none := by
    cases found : avlMinSize pageCount m.tree with
    | none => rfl
    | some n =>
      obtain ⟨inside, large, free⟩ := avlMinSize_some found
      have := full n inside free
      omega
  simp [allocVirt, ne, none]

/-- NULL, and everything as it was. -/
def Refused (m : MemoryManager) (st : σ × Phys) (r : Option (Nat × MemoryManager × σ × Phys)) :
    Prop :=
  ∃ phys, r = some (0, m, st.1, phys) ∧ phys.mem = st.2.mem ∧ phys.freePages = st.2.freePages

theorem refused_iff {m : MemoryManager} {st : σ × Phys} {phys : Phys} :
    Refused m st (some (0, m, st.1, phys)) ↔ Same st.2 phys := by
  constructor
  · rintro ⟨phys', eq, mem, stack⟩
    cases eq
    exact ⟨mem, stack⟩
  · exact fun same => ⟨phys, rfl, same.mem, same.stack⟩

/-- A request that no free block can meet is refused without a trace only if the manager is
unlocked and has blocks, and the loop that maps its pages at address 0 finds them mapped
that way. -/
theorem unmet_request_iff (src : NodeSource σ) (m : MemoryManager) (st : σ × Phys) (pageCount : Nat)
    (pos : 0 < pageCount)
    (full : ∀ v ∈ m.tree.toList, v.allocated = false → v.pageCount < pageCount) :
    (∀ write exec kernel, Refused m st (mallocPages src m st pageCount write exec kernel) ↔
      m.lock = false ∧ m.tree ≠ .nil ∧ st.2.freePages = [] ∧
        SettledPages st.2.mem m.pml4t pageCount (fun _ => 0) (mallocFlags write exec kernel)) ∧
    (∀ mapAddr kernel,
      (mapAddr % 0x1000 ≠ 0 ∨ (m.lock = false ∧ m.tree ≠ .nil ∧
          SettledPages st.2.mem m.pml4t pageCount (fun i => (mapAddr + i * 0x1000) % 2 ^ 64)
            (mapFlags kernel)) →
        Refused m st (mapMemory src m st mapAddr pageCount kernel)) ∧
      (pageCount ≤ 512 → Refused m st (mapMemory src m st mapAddr pageCount kernel) →
        mapAddr % 0x1000 ≠ 0 ∨ (m.lock = false ∧ m.tree ≠ .nil ∧
          SettledPages st.2.mem m.pml4t pageCount (fun i => (mapAddr + i * 0x1000) % 2 ^ 64)
            (mapFlags kernel)))) := by
  obtain ⟨tree, pml4t, lock⟩ := m
  have ne : pageCount ≠ 0 := Nat.ne_of_gt pos
  have odd : ∀ mapAddr kernel, mapAddr % 0x1000 ≠ 0 →
      Refused ⟨tree, pml4t, lock⟩ st
        (mapMemory src ⟨tree, pml4t, lock⟩ st mapAddr pageCount kernel) :=
    fun mapAddr kernel odd => ⟨st.2, by simp [mapMemory, odd], rfl, rfl⟩
  by_cases ready : lock = false ∧ tree ≠ .nil
  · obtain ⟨rfl, some⟩ := ready
    have alloc := allocVirt_full src (m := ⟨tree, pml4t, true⟩) full some st
    refine ⟨fun write exec kernel => ?_, fun mapAddr kernel => ?_⟩
    · have run : mallocPages src ⟨tree, pml4t, false⟩ st pageCount write exec kernel =
          Option.some (0, ⟨tree, pml4t, false⟩, st.1,
            mapFresh st.2 pml4t 0 pageCount (mallocFlags write exec kernel)) := by
        simp [mallocPages, ne, alloc]
      rw [run, refused_iff, mapFresh_same rfl pos]
      exact ⟨fun cond => ⟨rfl, some, cond⟩, fun cond => cond.2.2⟩
    · by_cases aligned : mapAddr % 0x1000 = 0
      · have run : mapMemory src ⟨tree, pml4t, false⟩ st mapAddr pageCount kernel =
            Option.some (0, ⟨tree, pml4t, false⟩, st.1,
              mapRange st.2 pml4t 0 mapAddr pageCount (mapFlags kernel)) := by
          simp [mapMemory, ne, aligned, alloc]
        rw [run, refused_iff]
        exact ⟨fun cond => mapRange_settled rfl (cond.resolve_left fun odd => odd aligned).2.2,
          fun few same => .inr ⟨rfl, some, mapRange_same rfl few same⟩⟩
      · exact ⟨fun _ => odd mapAddr kernel aligned, fun _ _ => .inl aligned⟩
  · -- a locked manager keeps its caller waiting, and without a tree NULL is followed
    have stuck : ∀ st', lock = true ∨ allocVirt src ⟨tree, pml4t, true⟩ pageCount st' = none := by
      intro st'
      cases lock with
      | true => exact .inl rfl
      | false => exact .inr (by simp [allocVirt, show tree = .nil by simpa using ready])
    refine ⟨fun write exec kernel => iff_of_false ?_ fun cond => ready ⟨cond.1, cond.2.1⟩,
      fun mapAddr kernel => ⟨fun cond => ?_, fun _ refused => .inl fun aligned => ?_⟩⟩
    · rcases stuck st with rfl | none
      · simp [Refused, mallocPages, ne]
      · simp [Refused, mallocPages, ne, none]
    · exact odd mapAddr kernel (cond.resolve_right fun cond => ready ⟨cond.1, cond.2.1⟩)
    · rcases stuck st with rfl | none
      · simp [Refused, mapMemory, ne, aligned] at refused
      · simp [Refused, mapMemory, ne, aligned, none] at refused

end Requests

/- A manager of one page, in use. -/
def fullMgr : MemoryManager := ⟨.node ⟨0, 0xffff800001000000, 1, true⟩ 0 .nil .nil, 0x1000, false⟩

theorem unmet_request_settled :
    Refused fullMgr (0, ⟨fun _ _ => leafEntry 0 (mallocFlags true false true), [], 0⟩)
      (mallocPages ⟨fun _ => none, fun _ _ => none⟩ fullMgr
        (0, ⟨fun _ _ => leafEntry 0 (mallocFlags true false true), [], 0⟩) 1 true false true) := by
  refine ((unmet_request_iff _ fullMgr _ 1 (by decide) (by decide)).1 true false true).mpr
    ⟨rfl, by decide, rfl, fun i less => ?_⟩
  obtain rfl := Nat.lt_one_iff.mp less
  exact ⟨leafEntry_flags .., leafEntry_flags .., leafEntry_flags .., rfl⟩

/-- With one free page, a request for a page that the full manager cannot meet takes it and
maps it at address 0; a request for a mapping is left at address 0 as well. -/
theorem unmet_request_maps_zero :
    (∀ v ∈ fullMgr.tree.toList, v.allocated = false → v.pageCount < 1) ∧
    (∃ phys, mallocPages ⟨fun _ => none, fun _ _ => none⟩ fullMgr (0, ⟨chainMem, [0x5000], 0⟩) 1
        true false true = some (0, fullMgr, 0, phys) ∧
      phys.freePages = [] ∧ walk chainMem 1 0 = none ∧ walk phys.mem 1 0 = some 5) ∧
    ∃ phys, mapMemory ⟨fun _ => none, fun _ _ => none⟩ fullMgr (0, ⟨chainMem, [0x5000], 0⟩)
      0xb8000 1
        true = some (0, fullMgr, 0, phys) ∧ walk phys.mem 1 0 = some 0xb8 := by
  refine ⟨?_, ⟨_, rfl, rfl, ?_, ?_⟩, _, rfl, ?_⟩ <;> decide

end Gapxos
