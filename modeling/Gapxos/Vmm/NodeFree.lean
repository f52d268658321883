import Gapxos.Vmm.NodeCreate

/-! What free_node does to the headers and to the list. The index it takes is the negative of
the node's, so it is the pointer to the next page that loses a bit when the node is one of the
last twenty, and a shift by a negative count says which. -/
namespace Gapxos
open Radix Linked

section Effect

variable {head page k : Nat} {phys phys' : Phys} {live pages : List Nat} {wild : Int → Word}

theorem freedMask_wild (later : k % 64 ≠ 0) :
    freedMask wild k = wild (-((k % 64 : Nat) : Int)) := by
  rw [freedMask, oneShl, if_neg (by omega)]

theorem freed_nothing (later : k % 64 ≠ 0) : freed (fun _ => 0) page k phys = phys := by
  rw [freed, freedMask_wild later, Phys.write]
  simp only [show ~~~(0 : Word) = BitVec.allOnes 64 from rfl, BitVec.and_allOnes, store_self]

theorem pageEmpty_iff {header : Fin 512 → Word} : pageEmpty header = true ↔
    header 2 = 0 ∧ ∀ b < headerBits, (header 18).getLsbD b = false := by
  have word : (2 + Fin.ofNat 512 headerBytes : Fin 512) = 18 := by decide
  simp only [pageEmpty, word, Bool.and_eq_true, beq_iff_eq, List.all_eq_true, List.mem_range,
    Bool.not_eq_true']

theorem dropPage_pushes {f head' : Nat}
    (drop : dropPage page f (head, phys) = some (head', phys')) :
    phys'.freePages = phys.freePages ++ [page] := by
  simp only [dropPage] at drop
  split at drop
  · split at drop
    · cases drop
      rfl
    · simp only [Option.map_eq_some_iff] at drop
      obtain ⟨g, _, eq⟩ := drop
      cases eq
      rfl
  · simp only [Option.bind_eq_some_iff, Option.map_eq_some_iff] at drop
    obtain ⟨g, _, h, _, eq⟩ := drop
    cases eq
    rfl

theorem freeNode_stack (ptr : NodePtr page) (less : k < nodesPerPage) {head' : Nat}
    (free : freeNode wild (nodeSlot page k) (head, phys) = some (head', phys')) :
    phys'.freePages = phys.freePages ∨ phys'.freePages = phys.freePages ++ [page] := by
  rw [freeNode_freed wild ptr less] at free
  split at free
  · have pushed := dropPage_pushes free
    exact .inr pushed
  · cases free
    exact .inl rfl

theorem freed_eighteen : (freed wild page k phys).mem (frameNo page) 18 =
    phys.mem (frameNo page) 18 := by
  apply store_other_index
  unfold freedWord
  split <;> decide

end Effect

section OneBitLess

variable {head page k : Nat} {phys : Phys} {live pages : List Nat}

theorem NodeState.bit (state : NodeState head phys.mem live pages) (within : page ∈ pages)
    (low : k < 64) : (phys.mem (frameNo page) 2).getLsbD k = true ↔ nodeSlot page k ∈ live := by
  have less : k < nodesPerPage := by
    simp only [nodesPerPage]
    omega
  have word : slotWord k = 2 := by
    rcases (slotWord_index less).2.2 with ⟨word, _⟩ | ⟨_, high⟩
    · exact word
    · omega
  rw [← state.bits page within k less, slotBit, word, Nat.mod_eq_of_lt low]

theorem NodeState.clear_zero (state : NodeState head phys.mem live pages) (within : page ∈ pages) :
    phys.mem (frameNo page) 2 &&& ~~~1#64 = 0 ↔
      ∀ j, 0 < j → j < 64 → nodeSlot page j ∉ live := by
  constructor
  · intro zero j some low inside
    have bit := congrArg (BitVec.getLsbD · j) zero
    simp only [BitVec.getLsbD_and, (state.bit within low).mpr inside,
      keep_bit low (Nat.ne_of_gt some)] at bit
    simp at bit
  · intro none
    refine BitVec.eq_of_getLsbD_eq fun j low => ?_
    rw [BitVec.getLsbD_and]
    rcases Nat.eq_zero_or_pos j with rfl | some
    · simp
    · have unset : (phys.mem (frameNo page) 2).getLsbD j = false := by
        rw [← Bool.not_eq_true, state.bit within low]
        exact none j some low
      rw [unset]
      simp

/-- The call clears the bit of the node and does nothing else. -/
def FreesBit (wild : Int → Word) (page k head : Nat) (phys : Phys) : Prop :=
  freeNode wild (nodeSlot page k) (head, phys) = some (head, phys.write (frameNo page) (slotWord k)
    (phys.mem (frameNo page) (slotWord k) &&& ~~~BitVec.twoPow 64 (k % 64)))

theorem FreesBit.effect {wild : Int → Word} {head' : Nat} {phys' : Phys}
    (right : FreesBit wild page k head phys)
    (free : freeNode wild (nodeSlot page k) (head, phys) = some (head', phys')) :
    phys'.freePages = phys.freePages ∧ slotBit (phys'.mem (frameNo page)) k = false := by
  rw [FreesBit, free, Option.some.injEq, Prod.mk.injEq] at right
  obtain ⟨_, rfl⟩ := right
  refine ⟨rfl, ?_⟩
  rw [slotBit, Phys.write_mem, store_same, BitVec.getLsbD_and]
  simp [Nat.mod_lt]

theorem freed_keeps (less : k < nodesPerPage) (later : k ≠ 0) :
    slotBit ((freed (fun _ => 0) page k phys).mem (frameNo page)) k =
      slotBit (phys.mem (frameNo page)) k := by
  by_cases low : k % 64 = 0
  · -- node 64: the pointer to the next page is written
    have word : freedWord k = 1 := by
      rw [freedWord, if_neg (by omega)]
    rw [slotBit, freed, word, Phys.write_mem, store_other_index (slotWord_behind less).2, slotBit]
  · rw [freed_nothing low]

theorem not_freesBit (state : NodeState head phys.mem live pages) (within : page ∈ pages)
    (less : k < nodesPerPage) (inside : nodeSlot page k ∈ live) (later : k ≠ 0) :
    ¬ FreesBit (fun _ => 0) page k head phys := by
  intro right
  have free := right
  rw [FreesBit, freeNode_freed _ (state.ptrs page within) less] at free
  split at free
  · have pushed := dropPage_pushes free
    simp [Phys.write, freed] at pushed
  · rename_i busy
    have clear := (right.effect (by rw [freeNode_freed _ (state.ptrs page within) less,
      if_neg busy])).2
    rw [freed_keeps less later, (state.bits page within k less).mpr inside] at clear
    cases clear

theorem freed_first_busy (state : NodeState head phys.mem live pages) (within : page ∈ pages)
    (wild : Int → Word) :
    ¬ pageEmpty ((freed wild page 0 phys).mem (frameNo page)) = true ↔
      (∃ j, 0 < j ∧ j < 64 ∧ nodeSlot page j ∈ live) ∨
        ∃ b < headerBits, (phys.mem (frameNo page) 18).getLsbD b = true := by
  have word : freedWord 0 = 2 := rfl
  have two : (freed wild page 0 phys).mem (frameNo page) 2 =
      phys.mem (frameNo page) 2 &&& ~~~1#64 := by
    rw [freed, word, freedMask_first rfl, Phys.write_mem, store_same]
  rw [pageEmpty_iff, freed_eighteen, two, state.clear_zero within]
  simp only [not_and_or, not_forall, Classical.not_not, Bool.not_eq_false, exists_prop]

/-- free_node clears the bit of a node and does nothing else if and only if it is the first
node of its page, and another one of the first 64 is in use or the word that is taken for the
rest of the header says so. -/
theorem free_right_iff (state : NodeState head phys.mem live pages) (within : page ∈ pages)
    (less : k < nodesPerPage) (inside : nodeSlot page k ∈ live) :
    (∀ wild, FreesBit wild page k head phys) ↔
      k = 0 ∧ ((∃ j, 0 < j ∧ j < 64 ∧ nodeSlot page j ∈ live) ∨
        ∃ b < headerBits, (phys.mem (frameNo page) 18).getLsbD b = true) := by
  have ptr := state.ptrs page within
  constructor
  · intro right
    obtain rfl : k = 0 := by
      by_contra later
      exact not_freesBit state within less inside later (right _)
    refine ⟨rfl, (freed_first_busy state within fun _ => 0).mp fun empty => ?_⟩
    have free := right fun _ => 0
    rw [FreesBit, freeNode_freed _ ptr less, if_pos empty] at free
    have pushed := dropPage_pushes free
    simp [Phys.write, freed] at pushed
  · rintro ⟨rfl, busy⟩ wild
    have stays := (freed_first_busy state within wild).mpr busy
    rw [FreesBit, freeNode_freed _ ptr less, if_neg stays, freed, freedMask_first rfl]
    rfl

theorem free_right_iff_first :
    NodeState onePtr (onePage 3).mem [nodeSlot onePtr 0, nodeSlot onePtr 1] [onePtr] ∧
      ∀ wild, FreesBit wild onePtr 0 onePtr (onePage 3) :=
  ⟨onePage_state 3, (free_right_iff (onePage_state 3) (by simp) (by decide) (by decide)).mpr
    ⟨rfl, .inl ⟨1, by decide, by decide, by decide⟩⟩⟩

/- Nodes 0 and 64 of the page at 0x5000. -/
def farNodes : Phys := ⟨fun f i => if f = 5 ∧ (i = 2 ∨ i = 3) then 1 else 0, [], 0⟩

theorem farNodes_state :
    NodeState onePtr farNodes.mem [nodeSlot onePtr 0, nodeSlot onePtr 64] [onePtr] := by
  have ptr : NodePtr onePtr := ⟨by decide, by decide, by decide⟩
  refine ⟨⟨⟨rfl, by decide, Eq.refl 0⟩, ⟨by decide, trivial⟩, by simpa using ptr, by simp⟩, ?_, ?_⟩
  · intro n inside
    simp only [List.mem_cons, List.not_mem_nil, or_false] at inside
    rcases inside with rfl | rfl
    · exact ⟨onePtr, by simp, 0, by decide, rfl⟩
    · exact ⟨onePtr, by simp, 64, by decide, rfl⟩
  · intro page within k less
    obtain rfl := List.mem_singleton.mp within
    have bits : ∀ k < nodesPerPage, slotBit (farNodes.mem 5) k = true ↔ k = 0 ∨ k = 64 := by
      decide
    rw [show frameNo onePtr = 5 by decide, bits k less]
    simp only [List.mem_cons, List.not_mem_nil, or_false, nodeSlot]
    omega

/-- Of nodes 0 and 1 the second is freed, and its bit stays. Of nodes 0 and 64 the first is
freed, and the page is given back. -/
theorem free_wrong_bits :
    (NodeState onePtr (onePage 3).mem
        (((List.range 64).filter (3 : Word).getLsbD).map (nodeSlot onePtr)) [onePtr] ∧
      (freeNode shll (nodeSlot onePtr 1) (onePtr, onePage 3)).map (fun r => r.2.mem 5 2) =
        some 3) ∧
    NodeState onePtr farNodes.mem [nodeSlot onePtr 0, nodeSlot onePtr 64] [onePtr] ∧
      (freeNode shll (nodeSlot onePtr 0) (onePtr, farNodes)).map (fun r => (r.1, r.2.freePages)) =
        some (0, [onePtr]) :=
  ⟨⟨onePage_state 3, by decide⟩, farNodes_state, by decide⟩

end OneBitLess

section Last

variable {head page k : Nat} {phys : Phys} {live pages : List Nat} {wild : Int → Word}

/-- The list without the page, after the call. -/
def FreesPage (wild : Int → Word) (page k head : Nat) (phys : Phys) (pages : List Nat) : Prop :=
  ∃ head' phys', freeNode wild (nodeSlot page k) (head, phys) = some (head', phys') ∧
    PageList head' phys'.mem (pages.erase page)

theorem PageList.unique {m : Mem} {ys : List Nat} (list : PageList head m pages)
    (other : PageList head m ys) : pages = ys :=
  seg_unique list.chain other.chain

theorem PageList.next_same {m m' : Mem} (list : PageList head m pages)
    (other : PageList head m' pages) (within : page ∈ pages) :
    nextPtr m page = nextPtr m' page := by
  obtain ⟨xs, ys, rfl⟩ := List.append_of_mem within
  rw [list.next_eq, other.next_eq]

theorem erase_ne (within : page ∈ pages) : pages.erase page ≠ pages := by
  intro same
  have shorter := List.length_erase_of_mem within
  have some := List.length_pos_of_mem within
  rw [same] at shorter
  omega

theorem not_freesPage (list : PageList head phys.mem pages) (within : page ∈ pages)
    (less : k < nodesPerPage) (kept : PageList head (freed wild page k phys).mem pages)
    (busy : ¬ pageEmpty ((freed wild page k phys).mem (frameNo page)) = true) :
    ¬ FreesPage wild page k head phys pages := by
  rintro ⟨head', phys', free, rest⟩
  rw [freeNode_freed wild (list.ptrs page within) less, if_neg busy, Option.some.injEq,
    Prod.mk.injEq] at free
  obtain ⟨rfl, rfl⟩ := free
  exact erase_ne within (rest.unique kept)

theorem PageList.header (list : PageList head phys.mem pages) {f : Nat} {i : Fin 512}
    (zero : i ≠ 0) (one : i ≠ 1) (w : Word) : PageList head (phys.write f i w).mem pages := by
  refine ⟨?_, ?_, list.ptrs, list.distinct⟩
  · exact (seg_congr fun q _ => nextPtr_store (.inr one)).mpr list.chain
  · exact (back_congr fun q _ => prevPtr_store (.inr zero)).mpr list.back

theorem freed_same (list : PageList head phys.mem pages) (within : page ∈ pages) (high : 64 ≤ k)
    (even : k = 64 ∨ nextPtr phys.mem page = 0) : freed wild page k phys = phys := by
  have word : freedWord k = 1 := if_neg (Nat.not_lt.mpr high)
  have kept : phys.mem (frameNo page) 1 &&& ~~~freedMask wild k = phys.mem (frameNo page) 1 := by
    rcases even with rfl | none
    · have aligned := list.next_aligned within
      rw [nextPtr] at aligned
      rw [freedMask_first rfl]
      exact clear_even (by omega)
    · have zero : phys.mem (frameNo page) 1 = 0 := BitVec.eq_of_toNat_eq none
      rw [zero]
      exact BitVec.zero_and
  rw [freed, word, kept, Phys.write, store_self]

theorem freed_list (list : PageList head phys.mem pages) (within : page ∈ pages)
    (even : k < 64 ∨ k = 64 ∨ nextPtr phys.mem page = 0) :
    PageList head (freed wild page k phys).mem pages := by
  by_cases low : k < 64
  · have word : freedWord k = 2 := if_pos low
    rw [freed, word]
    exact list.header (by decide) (by decide) _
  · rw [freed_same list within (Nat.not_lt.mp low) (even.resolve_left low)]
    exact list

theorem freed_list_zero (list : PageList head phys.mem pages) (within : page ∈ pages)
    (less : k < nodesPerPage) : PageList head (freed (fun _ => 0) page k phys).mem pages := by
  by_cases first : k % 64 = 0
  · simp only [nodesPerPage] at less
    exact freed_list list within (by omega)
  · rw [freed_nothing first]
    exact list

theorem freed_busy (state : NodeState head phys.mem live pages) (within : page ∈ pages)
    (inside : nodeSlot page k ∈ live) (later : k ≠ 0) (low : k < 64) :
    ¬ pageEmpty ((freed (fun _ => 0) page k phys).mem (frameNo page)) = true := by
  intro empty
  have zero := (pageEmpty_iff.mp empty).1
  rw [freed_nothing (by omega)] at zero
  have set := (state.bit within low).mpr inside
  rw [zero] at set
  simp at set

theorem freed_empty (state : NodeState head phys.mem live pages) (within : page ∈ pages)
    (last : ∀ j < nodesPerPage, nodeSlot page j ∈ live → j = k) (place : k = 0 ∨ 64 ≤ k)
    (wild : Int → Word) : pageEmpty ((freed wild page k phys).mem (frameNo page)) = true ↔
      ∀ b < headerBits, (phys.mem (frameNo page) 18).getLsbD b = false := by
  have alone : ∀ j, 0 < j → j < 64 → nodeSlot page j ∉ live := by
    intro j some low inside
    have same := last j (by simp only [nodesPerPage]; omega) inside
    omega
  have zero : (freed wild page k phys).mem (frameNo page) 2 = 0 := by
    rcases place with rfl | high
    · have word : freedWord 0 = 2 := rfl
      rw [freed, word, freedMask_first rfl, Phys.write_mem, store_same, state.clear_zero within]
      exact alone
    · have word : freedWord k = 1 := if_neg (Nat.not_lt.mpr high)
      have first : nodeSlot page 0 ∉ live := by
        intro inside
        have same := last 0 (by decide) inside
        omega
      rw [freed, word, Phys.write_mem, store_other_index (by decide)]
      refine BitVec.eq_of_getLsbD_eq fun j low => ?_
      have unset : ¬ (phys.mem (frameNo page) 2).getLsbD j = true := by
        rw [state.bit within low]
        rcases Nat.eq_zero_or_pos j with rfl | some
        · exact first
        · exact alone j some low
      simpa using unset
  rw [pageEmpty_iff, zero, freed_eighteen]
  simp

theorem dropPage_null (other : head ≠ page) (ends : nextPtr phys.mem page = 0) :
    dropPage page (frameNo page) (head, phys) = none := by
  have null : ptrFrame (phys.mem (frameNo page) 1).toNat = none := by
    rw [show (phys.mem (frameNo page) 1).toNat = 0 from ends]
    decide
  simp only [dropPage, if_neg other, null, Option.map_none]
  cases ptrFrame (phys.mem (frameNo page) 0).toNat with
  | none => rfl
  | some g => rfl

theorem dropPage_iff (list : PageList head phys.mem pages) (within : page ∈ pages) :
    (∃ head' phys', dropPage page (frameNo page) (head, phys) = some (head', phys') ∧
      PageList head' phys'.mem (pages.erase page)) ↔
    head = page ∨ nextPtr phys.mem page ≠ 0 := by
  constructor
  · rintro ⟨head', phys', drop, _⟩
    by_contra neither
    rw [not_or, Classical.not_not] at neither
    rw [dropPage_null neither.1 neither.2] at drop
    cases drop
  · intro linked
    obtain ⟨xs, ys, rfl⟩ := List.append_of_mem within
    have out : page ∉ xs := by
      intro twice
      exact (List.nodup_append.mp list.distinct).2.2 page twice page (by simp) rfl
    obtain ⟨head', phys', drop, rest, _⟩ := list.drop linked
    refine ⟨head', phys', drop, ?_⟩
    rwa [List.erase_append_right _ out, List.erase_cons_head]

theorem not_freesPage_high (list : PageList head phys.mem pages) (within : page ∈ pages)
    (less : k < nodesPerPage) (high : 64 < k) (next : nextPtr phys.mem page ≠ 0)
    (empty :
      pageEmpty ((freed (fun _ => BitVec.allOnes 64) page k phys).mem (frameNo page)) = true) :
    ¬ FreesPage (fun _ => BitVec.allOnes 64) page k head phys pages := by
  rintro ⟨head', phys', free, rest⟩
  have mask : freedMask (fun _ => BitVec.allOnes 64) k = BitVec.allOnes 64 := by
    simp only [nodesPerPage] at less
    exact freedMask_wild (by omega)
  have word : freedWord k = 1 := if_neg (by omega)
  have ends : (freed (fun _ => BitVec.allOnes 64) page k phys).mem (frameNo page) 1 = 0 := by
    rw [freed, word, mask, Phys.write_mem, store_same]
    simp
  rw [freeNode_freed _ (list.ptrs page within) less, if_pos empty] at free
  by_cases first : head = page
  · simp only [dropPage, congrArg BitVec.toNat ends, if_pos first] at free
    obtain ⟨rfl, _⟩ := Prod.mk.inj (Option.some.inj free)
    -- no page is left on the list, but the next one should be
    cases others : pages.erase page with
    | nil =>
      have length := List.length_erase_of_mem within
      have some := List.length_pos_of_mem within
      rw [others, List.length_nil] at length
      obtain ⟨q, rfl⟩ := List.length_eq_one_iff.mp (by omega : pages.length = 1)
      obtain rfl := List.mem_singleton.mp within
      have whole : PageList head phys.mem ([] ++ page :: []) := list
      exact next whole.next_eq
    | cons y ys =>
      rw [others] at rest
      exact rest.chain.2.1 rest.chain.1.symm
  · rw [dropPage_null first (congrArg BitVec.toNat ends)] at free
    cases free

/-- When free_node is called for the last node of a page, the page leaves the list and the
others stay as they are if and only if the node is the first of the page or one of the last
twenty, the pointer to the next page survives, the page is not at the end behind others, and
word 18 has none of the bits that are taken for the rest of the header. The PMM never gets the
address of the page. -/
theorem free_last_iff (state : NodeState head phys.mem live pages) (within : page ∈ pages)
    (less : k < nodesPerPage) (inside : nodeSlot page k ∈ live)
    (last : ∀ j < nodesPerPage, nodeSlot page j ∈ live → j = k) :
    ((∀ wild, FreesPage wild page k head phys pages) ↔
      (k = 0 ∨ 64 ≤ k) ∧ (64 < k → nextPtr phys.mem page = 0) ∧
        (head = page ∨ nextPtr phys.mem page ≠ 0) ∧
        ∀ b < headerBits, (phys.mem (frameNo page) 18).getLsbD b = false) ∧
    ∀ wild head' phys', freeNode wild (nodeSlot page k) (head, phys) = some (head', phys') →
      phys'.freePages ≠ phys.freePages ++ [page - physicalMapOffset] := by
  have ptr := state.ptrs page within
  have list := state.toPageList
  have kept : PageList head (freed (fun _ => 0) page k phys).mem pages :=
    freed_list_zero list within less
  refine ⟨⟨fun right => ?_, fun ok wild => ?_⟩, fun wild head' phys' free pushed => ?_⟩
  · -- shifts that yield 0 show what must hold of the node and of word 18, the others of the links
    have place : k = 0 ∨ 64 ≤ k := by
      by_contra middle
      rw [not_or, Nat.not_le] at middle
      have busy := freed_busy state within inside middle.1 middle.2
      exact not_freesPage list within less kept busy (right _)
    have clear : ∀ b < headerBits, (phys.mem (frameNo page) 18).getLsbD b = false := by
      by_contra some
      have busy := mt (freed_empty state within last place fun _ => 0).mp some
      exact not_freesPage list within less kept busy (right _)
    have gone := fun wild => (freed_empty state within last place wild).mpr clear
    refine ⟨place, ?_, ?_, clear⟩
    · intro high
      by_contra next
      exact not_freesPage_high list within less high next (gone _) (right _)
    · have free := right fun _ => 0
      simp only [FreesPage, freeNode_freed _ ptr less, if_pos (gone _)] at free
      rw [← kept.next_same list within]
      exact (dropPage_iff kept within).mp free
  · obtain ⟨place, high, linked, clear⟩ := ok
    have gone := (freed_empty state within last place wild).mpr clear
    have list' : PageList head (freed wild page k phys).mem pages := by
      refine freed_list list within ?_
      rcases Nat.lt_trichotomy k 64 with low | same | above
      · exact .inl low
      · exact .inr (.inl same)
      · exact .inr (.inr (high above))
    simp only [FreesPage, freeNode_freed _ ptr less, if_pos gone]
    rw [dropPage_iff list' within, list'.next_same list within]
    exact linked
  · -- what is pushed is the pointer, not the address of the frame
    have base := ptr.1
    simp only [physicalMapOffset] at base
    rcases freeNode_stack ptr less free with same | pointer
    · rw [same] at pushed
      simp at pushed
    · rw [pointer] at pushed
      simp only [List.append_cancel_left_eq, List.cons.injEq, physicalMapOffset] at pushed
      omega

theorem free_last_iff_only :
    NodeState onePtr (onePage 1).mem [nodeSlot onePtr 0] [onePtr] ∧
      ∀ wild, FreesPage wild onePtr 0 onePtr (onePage 1) [onePtr] := by
  refine ⟨onePage_state 1, (free_last_iff (onePage_state 1) (by simp) (by decide) (by decide)
    ?_).1.mpr ⟨.inl rfl, by decide, .inl rfl, by decide⟩⟩
  intro j less inside
  have only : [nodeSlot onePtr 0] = ((List.range 64).filter (1 : Word).getLsbD).map
      (nodeSlot onePtr) := by decide
  rw [← only, List.mem_singleton] at inside
  exact (nodeSlot_inj (by decide) (by decide) less (by decide) inside).2

/- A second page, at 0x6000, behind the one at 0x5000; the first node of each is in use. -/
def nextPage : Nat := physicalMapOffset + 0x6000

def twoPages : Phys where
  mem f i :=
    if f = 5 ∧ i = 1 then BitVec.ofNat 64 nextPage
    else if f = 6 ∧ i = 0 then BitVec.ofNat 64 onePtr
    else if (f = 5 ∨ f = 6) ∧ i = 2 then 1 else 0
  freePages := []
  misses := 0

theorem twoPages_state : NodeState onePtr twoPages.mem
    [nodeSlot onePtr 0, nodeSlot nextPage 0] [onePtr, nextPage] := by
  have one : NodePtr onePtr := ⟨by decide, by decide, by decide⟩
  have two : NodePtr nextPage := ⟨by decide, by decide, by decide⟩
  refine ⟨⟨⟨rfl, by decide, by decide, by decide, Eq.refl 0⟩, ⟨by decide, by decide, trivial⟩,
    ?_, by decide⟩, ?_, ?_⟩
  · simp [one, two]
  · intro n inside
    simp only [List.mem_cons, List.not_mem_nil, or_false] at inside
    rcases inside with rfl | rfl
    · exact ⟨onePtr, by simp, 0, by decide, rfl⟩
    · exact ⟨nextPage, by simp, 0, by decide, rfl⟩
  · intro page within k less
    have five : ∀ k < nodesPerPage, slotBit (twoPages.mem 5) k = true ↔ k = 0 := by decide
    have six : ∀ k < nodesPerPage, slotBit (twoPages.mem 6) k = true ↔ k = 0 := by decide
    simp only [List.mem_cons, List.not_mem_nil, or_false, nodeSlot] at within ⊢
    have far : nextPage = onePtr + 4096 := by decide
    rcases within with rfl | rfl
    · rw [show frameNo onePtr = 5 by decide, five k less]
      simp only [nodesPerPage] at less
      omega
    · rw [show frameNo nextPage = 6 by decide, six k less]
      simp only [nodesPerPage] at less
      omega

/-- The only page is given back by its pointer, and the one at the end of two cannot be given
back, since the page behind it is at NULL. -/
theorem free_last_wrong :
    (NodeState onePtr (onePage 1).mem
        (((List.range 64).filter (1 : Word).getLsbD).map (nodeSlot onePtr)) [onePtr] ∧
      (freeNode shll (nodeSlot onePtr 0) (onePtr, ⟨(onePage 1).mem, [], 0⟩)).map
        (fun r => r.2.freePages) = some [physicalMapOffset + 0x5000]) ∧
    NodeState onePtr twoPages.mem [nodeSlot onePtr 0, nodeSlot nextPage 0] [onePtr, nextPage] ∧
      (freeNode shll (nodeSlot nextPage 0) (onePtr, twoPages)).isNone = true :=
  ⟨⟨onePage_state 1, by decide⟩, twoPages_state, by decide⟩

end Last

end Gapxos
