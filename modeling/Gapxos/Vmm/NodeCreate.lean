import Gapxos.Vmm.NodeRun

/-! What create_node does to the headers: which node it takes, which bits it sets for that and
how many pages it asks for. -/
namespace Gapxos
open Radix Linked

/-- The allocator with headers that tell the truth: a bit is set just if its node is in use. -/
structure NodeState (head : Nat) (m : Mem) (live pages : List Nat) : Prop
    extends PageList head m pages where
  slots : ∀ n ∈ live, ∃ page ∈ pages, ∃ k < nodesPerPage, n = nodeSlot page k
  bits : ∀ page ∈ pages, ∀ k < nodesPerPage,
    slotBit (m (frameNo page)) k = true ↔ nodeSlot page k ∈ live

/-- The bit of node `k` goes from 0 to 1, and all other bits of both header words of every
frame stay, as do the nodes. -/
structure OneBit (m m' : Mem) (f k : Nat) : Prop where
  clear : slotBit (m f) k = false
  set : slotBit (m' f) k = true
  same : ∀ g, ∀ j < 128, ¬ (g = f ∧ j = k) → slotBit (m' g) j = slotBit (m g) j
  nodes : ∀ g i, 4 ≤ i → m' g i = m g i

/-- The calls of pmm_alloc_page, as far as they can be seen: it goes up by one with each. -/
def asked (phys : Phys) : Int := phys.misses - phys.freePages.length

structure CreateRight (phys : Phys) (live pages : List Nat) (n : Nat) (phys' : Phys) : Prop where
  fresh : n ∉ live
  bit : ∃ page k, NodePtr page ∧ k < nodesPerPage ∧ n = nodeSlot page k ∧
    OneBit phys.mem phys'.mem (frameNo page) k
  asks : asked phys' = asked phys ∨
    (∀ page ∈ pages, ∀ k < nodesPerPage, nodeSlot page k ∈ live) ∧ asked phys' = asked phys + 1

section Bits

variable {m m' : Mem} {header : Fin 512 → Word} {f k b : Nat} {w : Word}

/-- When `1 << b` sets bit `b` of a word and nothing else, whatever the undefined shifts yield:
`1 << 31` is negative, and widened it has all the bits from there on. -/
def BitOk (w : Word) (b : Nat) : Prop :=
  b < 31 ∨ b = 31 ∧ ∀ j, 31 < j → j < 64 → w.getLsbD j = true

theorem oneShl_low (wild : Int → Word) (low : b < 31) : oneShl wild b = BitVec.twoPow 64 b := by
  rw [oneShl, if_pos (by omega)]
  revert b
  decide

theorem oneShl_sign (wild : Int → Word) {j : Nat} (less : j < 64) :
    (oneShl wild (31 : Nat)).getLsbD j = decide (31 ≤ j) := by
  rw [oneShl, if_pos (by decide)]
  revert j
  decide

theorem bitOk_iff (less : b < 64) (clear : w.getLsbD b = false) :
    (∀ wild, w ||| oneShl wild b = w ||| BitVec.twoPow 64 b) ↔ BitOk w b := by
  constructor
  · intro right
    rcases Nat.lt_trichotomy b 31 with low | rfl | high
    · exact .inl low
    · refine .inr ⟨rfl, fun j above small => ?_⟩
      have bit := congrArg (BitVec.getLsbD · j) (right fun _ => 0)
      simp only [BitVec.getLsbD_or, oneShl_sign _ small, BitVec.getLsbD_twoPow] at bit
      simpa [show 31 ≤ j by omega, show ¬ 31 = j by omega] using bit
    · -- a shift that sets nothing
      have bit := congrArg (BitVec.getLsbD · b) (right fun _ => 0)
      rw [oneShl, if_neg (by omega)] at bit
      simp only [BitVec.getLsbD_or, BitVec.getLsbD_twoPow, clear] at bit
      simp [less] at bit
  · rintro (low | ⟨rfl, set⟩) wild
    · rw [oneShl_low wild low]
    · refine BitVec.eq_of_getLsbD_eq fun j small => ?_
      simp only [BitVec.getLsbD_or, oneShl_sign _ small, BitVec.getLsbD_twoPow]
      rcases Nat.lt_trichotomy j 31 with below | rfl | above
      · simp [show ¬ 31 ≤ j by omega, show ¬ 31 = j by omega]
      · simp
      · rw [set j above small]
        simp

theorem slotWord_same {j : Nat} (one : k < 128) (other : j < 128) (eq : slotWord j = slotWord k) :
    j / 64 = k / 64 := by
  have bound : ∀ i < 128, (slotWord i).val = 2 + i / 64 := by
    intro i less
    have small : i / 64 < 2 := by omega
    simp only [slotWord, Fin.val_add, Fin.ofNat]
    omega
  have same := congrArg Fin.val eq
  rw [bound j other, bound k one] at same
  omega

theorem slotWord_behind (less : k < nodesPerPage) : slotWord k ≠ 0 ∧ slotWord k ≠ 1 := by
  revert k
  decide

theorem oneBit_iff {m₁ : Mem} (header : ∀ f i, i ≠ 0 → i ≠ 1 → m₁ f i = m f i)
    (less : k < nodesPerPage) (clear : slotBit (m f) k = false) (v : Word) :
    OneBit m (store m₁ f (slotWord k) v) f k ↔
      v = m f (slotWord k) ||| BitVec.twoPow 64 (k % 64) := by
  have bound : k < 128 := by
    simp only [nodesPerPage] at less
    omega
  have words : ∀ j < 128, slotWord j ≠ 0 ∧ slotWord j ≠ 1 := by decide
  constructor
  · intro one
    refine BitVec.eq_of_getLsbD_eq fun b small => ?_
    rw [BitVec.getLsbD_or, BitVec.getLsbD_twoPow]
    by_cases hit : b = k % 64
    · have set := one.set
      rw [slotBit, store_same] at set
      rw [hit, set]
      simp [Nat.mod_lt]
    · have word : slotWord (k / 64 * 64 + b) = slotWord k := by
        rw [slotWord, slotWord, show (k / 64 * 64 + b) / 64 = k / 64 by omega]
      have bit : (k / 64 * 64 + b) % 64 = b := by omega
      have same := one.same f (k / 64 * 64 + b) (by omega) (by omega)
      rw [slotBit, slotBit, word, bit, store_same] at same
      rw [same]
      simp [Ne.symm hit]
  · rintro rfl
    refine ⟨clear, ?_, fun g j small other => ?_, fun g i behind => ?_⟩
    · rw [slotBit, store_same, BitVec.getLsbD_or, BitVec.getLsbD_twoPow]
      simp [Nat.mod_lt]
    · rw [slotBit, slotBit]
      by_cases hit : g = f ∧ slotWord j = slotWord k
      · obtain ⟨rfl, word⟩ := hit
        have place := slotWord_same bound small word
        rw [word, store_same, BitVec.getLsbD_or, BitVec.getLsbD_twoPow]
        simp [show ¬ k % 64 = j % 64 by omega]
      · rw [store_other hit, header g _ (words j small).1 (words j small).2]
    · have early : slotWord k < 4 := by
        rcases (slotWord_index less).2.2 with ⟨word, _⟩ | ⟨word, _⟩ <;> rw [word] <;> decide
      have zero : i ≠ 0 := fun eq => absurd behind (by rw [eq]; decide)
      have one : i ≠ 1 := fun eq => absurd behind (by rw [eq]; decide)
      have other : ¬ (g = f ∧ i = slotWord k) := by
        rintro ⟨_, rfl⟩
        exact absurd behind (Fin.not_le.mpr early)
      rw [store_other other, header g i zero one]

end Bits

/- The calls of pmm_alloc_page. -/
section Asked

variable {phys phys' : Phys} {prev page : Nat}

@[simp]
theorem asked_write (phys : Phys) (f : Nat) (i : Fin 512) (w : Word) :
    asked (phys.write f i w) = asked phys := rfl

theorem pmmAllocPage_asked (phys : Phys) : asked (pmmAllocPage phys).2 = asked phys + 1 := by
  cases stack : phys.freePages.getLast? with
  | none =>
    obtain empty : phys.freePages = [] := List.getLast?_eq_none_iff.mp stack
    simp only [pmmAllocPage, empty, asked]
    simp
  | some e =>
    have some : 0 < phys.freePages.length := by
      apply List.length_pos_of_mem
      exact List.mem_of_getLast? stack
    simp only [pmmAllocPage, stack, asked, List.length_dropLast]
    omega

theorem initAvlPage_asked (init : initAvlPage prev phys = some (page, phys')) :
    asked phys' = asked phys + 1 := by
  have drawn := pmmAllocPage_asked phys
  simp only [initAvlPage, Option.bind_eq_some_iff] at init
  obtain ⟨f, _, init⟩ := init
  split at init
  · simp only [Option.some.injEq, Prod.mk.injEq] at init
    simpa [← init.2] using drawn
  · simp only [Option.map_eq_some_iff, Prod.mk.injEq] at init
    obtain ⟨g, _, _, rfl⟩ := init
    simpa using drawn

theorem findPage_asked {p q k passes : Nat} (search : findPage p phys passes = some (q, k, phys')) :
    asked phys ≤ asked phys' := by
  induction passes generalizing p phys with
  | zero => cases search
  | succ passes ih =>
    simp only [findPage, Option.bind_eq_some_iff] at search
    obtain ⟨f, _, search⟩ := search
    split at search
    · cases search
      exact Int.le_refl _
    · split at search
      · exact ih search
      · simp only [Option.bind_eq_some_iff] at search
        obtain ⟨⟨r, phys₁⟩, init, search⟩ := search
        have first := initAvlPage_asked init
        have rest : asked phys₁ ≤ asked phys' := ih search
        omega

theorem setHeaderBit_asked {wild : Int → Word} {idx : Int} {val : Bool}
    (set : setHeaderBit wild page idx val phys = some phys') : asked phys' = asked phys := by
  simp only [setHeaderBit, Option.map_eq_some_iff] at set
  obtain ⟨f, _, eq⟩ := set
  cases eq
  rfl

end Asked

/-- The first page of a list that has a free node, and that node. -/
def firstFree (m : Mem) (pages : List Nat) : Option (Nat × Nat) :=
  pages.findSome? fun p => (find0Bit (m (frameNo p))).map (p, ·)

section Search

variable {head p q k passes : Nat} {phys phys' : Phys} {pages ys : List Nat} {wild : Int → Word}

theorem firstFree_some (found : firstFree phys.mem pages = some (q, k)) :
    q ∈ pages ∧ find0Bit (phys.mem (frameNo q)) = some k := by
  obtain ⟨p, inside, here⟩ := List.exists_of_findSome?_eq_some found
  simp only [Option.map_eq_some_iff, Prod.mk.injEq] at here
  obtain ⟨k', clear, rfl, rfl⟩ := here
  exact ⟨inside, clear⟩

theorem firstFree_none : firstFree phys.mem pages = none ↔
    ∀ p ∈ pages, find0Bit (phys.mem (frameNo p)) = none := by
  simp [firstFree, List.findSome?_eq_none_iff]

theorem findPage_found (chain : Seg 0 (nextPtr phys.mem) p pages 0)
    (ptrs : ∀ page ∈ pages, NodePtr page) (found : firstFree phys.mem pages = some (q, k))
    (enough : pages.length ≤ passes) : findPage p phys passes = some (q, k, phys) := by
  induction pages generalizing p passes with
  | nil => cases found
  | cons y ys ih =>
    obtain ⟨n, rfl⟩ := Nat.exists_eq_succ_of_ne_zero (Nat.ne_of_gt (Nat.zero_lt_of_lt enough))
    obtain ⟨rfl, _, rest⟩ := chain
    have ptr := ptrs p List.mem_cons_self
    simp only [firstFree, List.findSome?_cons] at found
    cases clear : find0Bit (phys.mem (frameNo p)) with
    | some j =>
      simp only [clear, Option.map_some, Option.some.injEq, Prod.mk.injEq] at found
      obtain ⟨rfl, rfl⟩ := found
      simp only [findPage, ptrFrame_eq ptr, Option.bind_some, clear]
    | none =>
      simp only [clear, Option.map_none] at found
      have walk := ih rest (fun page inside => ptrs page (List.mem_cons_of_mem p inside)) found
        (by simpa using enough)
      have more : phys.mem (frameNo p) 1 ≠ 0 := by
        intro none
        cases ys with
        | nil => cases found
        | cons z zs =>
          refine (ptrs z (by simp)).ne_zero ?_
          rw [← rest.1, nextPtr, none]
          rfl
      simp only [findPage, ptrFrame_eq ptr, Option.bind_some, clear, ne_eq, more,
        not_false_eq_true, if_true]
      exact walk

theorem findPage_full {l : Nat} (chain : Seg 0 (nextPtr phys.mem) p (ys ++ [l]) 0)
    (ptrs : ∀ page ∈ ys ++ [l], NodePtr page) (full : firstFree phys.mem (ys ++ [l]) = none)
    (n : Nat) : findPage p phys (n + ys.length + 1) =
      (initAvlPage l phys).bind fun r => findPage r.1 r.2 n := by
  induction ys generalizing p with
  | nil =>
    obtain ⟨rfl, _, ends⟩ := chain
    have ptr := ptrs p (by simp)
    have clear := firstFree_none.mp full p (by simp)
    have last : phys.mem (frameNo p) 1 = 0 := BitVec.eq_of_toNat_eq ends
    simp only [List.length_nil, Nat.add_zero, findPage, ptrFrame_eq ptr, Option.bind_some, clear,
      last, ne_eq, not_true_eq_false, if_false]
  | cons y ys ih =>
    obtain ⟨rfl, _, rest⟩ := chain
    have ptr := ptrs p (by simp)
    have clear := firstFree_none.mp full p (by simp)
    have walk := ih rest (fun page inside => ptrs page (by simp_all))
      (firstFree_none.mpr fun page inside => firstFree_none.mp full page (by simp_all))
    have more : phys.mem (frameNo p) 1 ≠ 0 := by
      intro none
      have next : nextPtr phys.mem p = 0 := by
        rw [nextPtr, none]
        rfl
      rw [next] at rest
      cases ys with
      | nil => exact (ptrs l (by simp)).ne_zero rest.1.symm
      | cons z zs => exact (ptrs z (by simp)).ne_zero rest.1.symm
    rw [List.length_cons, ← Nat.add_assoc, findPage, ptrFrame_eq ptr, Option.bind_some, clear]
    simp only [ne_eq, more, not_false_eq_true, if_true]
    exact walk

theorem PageList.length_le (list : PageList head phys.mem pages) : pages.length ≤ 2 ^ 52 :=
  pages_length list.distinct fun page within =>
    ⟨(list.ptrs page within).2.2, (list.ptrs page within).2.1⟩

theorem createNode_listed (list : PageList head phys.mem pages)
    (found : firstFree phys.mem pages = some (q, k)) : createNode wild (head, phys) =
      (setHeaderBit wild q k true phys).map fun phys' => (nodeSlot q k, head, phys') := by
  have some : head ≠ 0 := by
    cases pages with
    | nil => cases found
    | cons y ys => exact list.chain.1 ▸ list.chain.2.1
  have search := findPage_found list.chain list.ptrs found
    (Nat.le_trans list.length_le (by decide : 2 ^ 52 ≤ 2 ^ 54))
  simp only [createNode, if_neg some, Option.bind_some, search]

theorem createNode_full (list : PageList head phys.mem pages)
    (full : firstFree phys.mem pages = none) (wild : Int → Word) :
    ∃ (n : Nat) (head' : Nat → Nat), createNode wild (head, phys) =
      (initAvlPage (pages.getLastD 0) phys).bind fun r =>
        (findPage r.1 r.2 (n + 1)).bind fun s =>
          (setHeaderBit wild s.1 s.2.1 true s.2.2).map fun phys' =>
            (nodeSlot s.1 s.2.1, head' r.1, phys') := by
  rcases List.eq_nil_or_concat' pages with rfl | ⟨ys, l, rfl⟩
  · obtain rfl : head = 0 := list.chain
    refine ⟨2 ^ 54 - 1, id, ?_⟩
    have passes : 2 ^ 54 - 1 + 1 = 2 ^ 54 := by decide
    simp only [createNode, if_true, List.getLastD_nil, id_eq, passes]
  · have some : head ≠ 0 := by
      cases ys with
      | nil => exact list.chain.1 ▸ list.chain.2.1
      | cons y ys => exact list.chain.1 ▸ list.chain.2.1
    have length := list.length_le
    simp only [List.length_append, List.length_singleton] at length
    obtain ⟨n, passes⟩ : ∃ n, 2 ^ 54 = (n + 1) + ys.length + 1 :=
      ⟨2 ^ 54 - ys.length - 2, by omega⟩
    refine ⟨n, fun _ => head, ?_⟩
    have search := findPage_full list.chain list.ptrs full (n + 1)
    simp only [createNode, if_neg some, Option.bind_some, passes, search, List.getLastD_concat,
      Option.bind_assoc]

theorem initAvlPage_links {prev : Nat} (ptr : NodePtr (drawnPage phys))
    (before : prev = 0 ∨ NodePtr prev) : ∃ phys', initAvlPage prev phys =
      some (drawnPage phys, phys') ∧ phys'.mem = initLinks phys.mem prev (drawnPage phys) :=
  ⟨_, initAvlPage_drawn ptr before, rfl⟩

theorem find0Bit_initLinks (m : Mem) (prev page f : Nat) :
    find0Bit (initLinks m prev page f) = find0Bit (m f) := by
  apply find0Bit_congr
  · exact initLinks_behind m prev page f (by decide) (by decide)
  · exact initLinks_behind m prev page f (by decide) (by decide)

theorem initLinks_ends (m : Mem) {prev page : Nat} (ptr : NodePtr page)
    (before : prev = 0 ∨ NodePtr prev) : nextPtr (initLinks m prev page) page = 0 ∨
      nextPtr (initLinks m prev page) page = page := by
  by_cases same : prev = page
  · subst same
    exact .inr (initLinks_linked m ptr.ne_zero ptr.2.1)
  · refine .inl (initLinks_next m fun some eq => same ?_)
    exact frameNo_inj (before.resolve_left some) ptr eq.symm

theorem findPage_again {page : Nat} (ptr : NodePtr page)
    (clear : find0Bit (phys.mem (frameNo page)) = none)
    (link : nextPtr phys.mem page = 0 ∨ nextPtr phys.mem page = page)
    (search : findPage page phys passes = some (q, k, phys')) : asked phys < asked phys' := by
  induction passes with
  | zero => cases search
  | succ passes ih =>
    simp only [findPage, ptrFrame_eq ptr, Option.bind_some, clear] at search
    rcases link with ends | circle
    · have last : phys.mem (frameNo page) 1 = 0 := BitVec.eq_of_toNat_eq ends
      simp only [last, ne_eq, not_true_eq_false, if_false, Option.bind_eq_some_iff] at search
      obtain ⟨⟨r, phys₁⟩, init, search⟩ := search
      have first := initAvlPage_asked init
      have rest : asked phys₁ ≤ asked phys' := findPage_asked search
      omega
    · have more : phys.mem (frameNo page) 1 ≠ 0 := by
        intro none
        rw [nextPtr, none] at circle
        exact ptr.ne_zero circle.symm
      simp only [ne_eq, more, not_false_eq_true, if_true] at search
      rw [nextPtr] at circle
      rw [circle] at search
      exact ih search

end Search

/-- create_node takes node `k` of `page`, with `phys₁` the state in which it sets the bit. -/
structure Takes (head : Nat) (phys : Phys) (pages : List Nat) (page k : Nat) (phys₁ : Phys) :
    Prop where
  found : firstFree phys.mem (pages ++ [drawnPage phys]) = some (page, k)
  ptr : NodePtr page
  behind : ∀ f i, i ≠ 0 → i ≠ 1 → phys₁.mem f i = phys.mem f i
  asks : asked phys₁ = asked phys ∨
    firstFree phys.mem pages = none ∧ asked phys₁ = asked phys + 1
  writes : ∀ wild, ∃ head', createNode wild (head, phys) = some (nodeSlot page k, head',
    phys₁.write (frameNo page) (slotWord k)
      (phys.mem (frameNo page) (slotWord k) ||| oneShl wild (k % 64 : Nat)))

section Create

variable {head page k : Nat} {phys phys₁ : Phys} {live pages : List Nat}

theorem firstFree_append (m : Mem) (xs ys : List Nat) :
    firstFree m (xs ++ ys) = (firstFree m xs).or (firstFree m ys) :=
  List.findSome?_append

theorem createNode_takes_listed (list : PageList head phys.mem pages)
    (found : firstFree phys.mem pages = some (page, k)) : Takes head phys pages page k phys := by
  obtain ⟨within, clear⟩ := firstFree_some found
  have ptr := list.ptrs page within
  refine ⟨by rw [firstFree_append, found, Option.some_or], ptr, fun _ _ _ _ => rfl, .inl rfl, ?_⟩
  intro wild
  refine ⟨head, ?_⟩
  rw [createNode_listed list found, setHeaderBit_slot wild ptr (find0Bit_some clear).1,
    Option.map_some]

theorem PageList.last_ptr (list : PageList head phys.mem pages) :
    pages.getLastD 0 = 0 ∨ NodePtr (pages.getLastD 0) := by
  rcases List.eq_nil_or_concat' pages with rfl | ⟨ys, l, rfl⟩
  · exact .inl rfl
  · rw [List.getLastD_concat]
    exact .inr (list.ptrs l (by simp))

theorem createNode_takes_drawn (list : PageList head phys.mem pages)
    (full : firstFree phys.mem pages = none) (ptr : NodePtr (drawnPage phys))
    (clear : find0Bit (phys.mem (frameNo (drawnPage phys))) = some k) :
    ∃ phys₁, Takes head phys pages (drawnPage phys) k phys₁ := by
  obtain ⟨phys₁, init, mem⟩ := initAvlPage_links ptr list.last_ptr
  have behind : ∀ f i, i ≠ 0 → i ≠ 1 → phys₁.mem f i = phys.mem f i := by
    intro f i zero one
    rw [mem, initLinks_behind phys.mem _ _ f zero one]
  refine ⟨phys₁, ?_, ptr, behind, ?_, ?_⟩
  · rw [firstFree_append, full, Option.none_or]
    simp [firstFree, clear]
  · exact .inr ⟨full, initAvlPage_asked init⟩
  · intro wild
    obtain ⟨n, head', eq⟩ := createNode_full list full wild
    have less := (find0Bit_some clear).1
    have search : find0Bit (phys₁.mem (frameNo (drawnPage phys))) = some k := by
      rw [mem, find0Bit_initLinks, clear]
    have old := behind (frameNo (drawnPage phys)) _ (slotWord_behind less).1
      (slotWord_behind less).2
    refine ⟨head' (drawnPage phys), ?_⟩
    rw [eq, init, Option.bind_some]
    simp only [findPage, ptrFrame_eq ptr, Option.bind_some, search,
      setHeaderBit_slot wild ptr less, Option.map_some, old]

theorem createNode_cases (list : PageList head phys.mem pages)
    (word : (pmmAllocPage phys).1 < 2 ^ 64) :
    (∃ page k phys₁, Takes head phys pages page k phys₁) ∨
      (∀ r ∈ firstFree phys.mem (pages ++ [drawnPage phys]), ¬ NodePtr r.1) ∧
        ∀ wild n head' phys', createNode wild (head, phys) = some (n, head', phys') →
          asked phys + 1 < asked phys' := by
  cases found : firstFree phys.mem pages with
  | some r => exact .inl ⟨r.1, r.2, phys, createNode_takes_listed list found⟩
  | none =>
    by_cases ptr : NodePtr (drawnPage phys)
    · cases clear : find0Bit (phys.mem (frameNo (drawnPage phys))) with
      | some k =>
        obtain ⟨phys₁, takes⟩ := createNode_takes_drawn list found ptr clear
        exact .inl ⟨_, k, phys₁, takes⟩
      | none =>
        -- the header of the new page is searched as it came, and it has no 0 bit
        have whole : firstFree phys.mem (pages ++ [drawnPage phys]) = none := by
          rw [firstFree_append, found, Option.none_or]
          simp [firstFree, clear]
        refine .inr ⟨by simp [whole], ?_⟩
        intro wild n head' phys' create
        obtain ⟨passes, first, eq⟩ := createNode_full list found wild
        obtain ⟨phys₁, init, mem⟩ := initAvlPage_links ptr list.last_ptr
        rw [eq, init, Option.bind_some] at create
        simp only [Option.bind_eq_some_iff, Option.map_eq_some_iff, Prod.mk.injEq] at create
        obtain ⟨⟨q, j, phys₂⟩, search, phys₃, set, _, _, rfl⟩ := create
        have still : find0Bit (phys₁.mem (frameNo (drawnPage phys))) = none := by
          rw [mem, find0Bit_initLinks, clear]
        have again := findPage_again ptr still (mem ▸ initLinks_ends phys.mem ptr list.last_ptr)
          search
        have one := initAvlPage_asked init
        have same : asked _ = asked phys₂ := setHeaderBit_asked set
        omega
    · -- the new page is outside of the direct map, and writing to it faults
      refine .inr ⟨?_, ?_⟩
      · rintro ⟨q, k⟩ free
        rw [firstFree_append, found, Option.none_or] at free
        obtain ⟨within, _⟩ := firstFree_some free
        rwa [List.mem_singleton.mp within]
      · intro wild n head' phys' create
        obtain ⟨passes, first, eq⟩ := createNode_full list found wild
        rw [eq, initAvlPage_wild ptr word] at create
        cases create

/-- The node that create_node comes to first, on the list or on the page it draws, exists and
its bit can be set alone. -/
def CreateOk (phys : Phys) (pages : List Nat) : Prop :=
  ∃ r ∈ firstFree phys.mem (pages ++ [drawnPage phys]),
    NodePtr r.1 ∧ BitOk (phys.mem (frameNo r.1) (slotWord r.2)) (r.2 % 64)

theorem Takes.clear (takes : Takes head phys pages page k phys₁) :
    k < nodesPerPage ∧ slotBit (phys.mem (frameNo page)) k = false := by
  obtain ⟨_, clear⟩ := firstFree_some takes.found
  obtain ⟨less, unset, _⟩ := find0Bit_some clear
  exact ⟨less, unset⟩

theorem NodeState.full_iff (state : NodeState head phys.mem live pages) :
    firstFree phys.mem pages = none ↔
      ∀ page ∈ pages, ∀ k < nodesPerPage, nodeSlot page k ∈ live := by
  rw [firstFree_none]
  constructor
  · intro full page within k less
    exact (state.bits page within k less).mp (find0Bit_none.mp (full page within) k less)
  · intro all page within
    refine find0Bit_none.mpr fun k less => ?_
    exact (state.bits page within k less).mpr (all page within k less)

theorem Takes.fresh (takes : Takes head phys pages page k phys₁)
    (state : NodeState head phys.mem live pages) : nodeSlot page k ∉ live := by
  obtain ⟨less, unset⟩ := takes.clear
  intro inside
  obtain ⟨own, within, j, bound, eq⟩ := state.slots _ inside
  obtain ⟨rfl, rfl⟩ := nodeSlot_inj takes.ptr.2.2 (state.ptrs own within).2.2 less bound eq
  rw [(state.bits page within k less).mpr inside] at unset
  cases unset

theorem Takes.right_iff (takes : Takes head phys pages page k phys₁)
    (state : NodeState head phys.mem live pages) :
    (∀ wild, ∃ n head' phys', createNode wild (head, phys) = some (n, head', phys') ∧
      CreateRight phys live pages n phys') ↔
      BitOk (phys.mem (frameNo page) (slotWord k)) (k % 64) := by
  obtain ⟨less, unset⟩ := takes.clear
  rw [← bitOk_iff (Nat.mod_lt k (by decide)) unset]
  constructor
  · intro right wild
    obtain ⟨n, head', phys', create, right⟩ := right wild
    obtain ⟨_, writes⟩ := takes.writes wild
    rw [writes, Option.some.injEq, Prod.mk.injEq, Prod.mk.injEq] at create
    obtain ⟨rfl, _, rfl⟩ := create
    obtain ⟨own, j, ptr, bound, eq, one⟩ := right.bit
    obtain ⟨rfl, rfl⟩ := nodeSlot_inj takes.ptr.2.2 ptr.2.2 less bound eq
    exact (oneBit_iff takes.behind less unset _).mp one
  · intro same wild
    obtain ⟨head', writes⟩ := takes.writes wild
    refine ⟨_, head', _, writes, takes.fresh state, ?_, ?_⟩
    · exact ⟨page, k, takes.ptr, less, rfl, (oneBit_iff takes.behind less unset _).mpr (same wild)⟩
    · rw [asked_write, ← state.full_iff]
      exact takes.asks

/-- create_node sets just the bit of the node it returns if and only if the node it comes to is
one for which `1 << bit` does so. -/
theorem create_right_iff (state : NodeState head phys.mem live pages)
    (word : (pmmAllocPage phys).1 < 2 ^ 64) :
    (∀ wild, ∃ n head' phys', createNode wild (head, phys) = some (n, head', phys') ∧
      CreateRight phys live pages n phys') ↔ CreateOk phys pages := by
  rcases createNode_cases state.toPageList word with ⟨page, k, phys₁, takes⟩ | ⟨none, asks⟩
  · rw [takes.right_iff state]
    simp [CreateOk, takes.found, takes.ptr]
  · constructor
    · intro right
      obtain ⟨n, head', phys', create, right⟩ := right fun _ => 0
      have more := asks _ n head' phys' create
      rcases right.asks with same | ⟨_, one⟩ <;> omega
    · rintro ⟨r, found, ptr, _⟩
      exact absurd ptr (none r found)

end Create

theorem onePage_state (header : Word) : NodeState onePtr (onePage header).mem
    (((List.range 64).filter header.getLsbD).map (nodeSlot onePtr)) [onePtr] := by
  have frame : frameNo onePtr = 5 := by decide
  have ptr : NodePtr onePtr := ⟨by decide, by decide, by decide⟩
  refine ⟨⟨⟨rfl, by decide, ?_⟩, ⟨?_, trivial⟩, by simpa using ptr, by simp⟩, ?_, ?_⟩
  · rw [nextPtr, frame]
    rfl
  · rw [prevPtr, frame]
    rfl
  · intro n inside
    simp only [List.mem_map, List.mem_filter, List.mem_range] at inside
    obtain ⟨k, ⟨less, _⟩, rfl⟩ := inside
    exact ⟨onePtr, by simp, k, by simp only [nodesPerPage]; omega, rfl⟩
  · intro page within k less
    obtain rfl := List.mem_singleton.mp within
    have member : nodeSlot onePtr k ∈ ((List.range 64).filter header.getLsbD).map
        (nodeSlot onePtr) ↔ k < 64 ∧ header.getLsbD k = true := by
      simp only [List.mem_map, List.mem_filter, List.mem_range, nodeSlot]
      constructor
      · rintro ⟨j, set, eq⟩
        obtain rfl : j = k := by omega
        exact set
      · intro set
        exact ⟨k, set, rfl⟩
    rw [member, slotBit, frame]
    rcases (slotWord_index less).2.2 with ⟨word, low⟩ | ⟨word, high⟩
    · rw [word, Nat.mod_eq_of_lt low]
      simp [onePage, low]
    · rw [word]
      simp [onePage, show ¬ k < 64 by omega]

theorem create_right_iff_second :
    NodeState onePtr (onePage 1).mem [nodeSlot onePtr 0] [onePtr] ∧ ∀ wild, ∃ n head' phys',
      createNode wild (onePtr, onePage 1) = some (n, head', phys') ∧
        CreateRight (onePage 1) [nodeSlot onePtr 0] [onePtr] n phys' := by
  have free : firstFree (onePage 1).mem ([onePtr] ++ [drawnPage (onePage 1)]) =
      some (onePtr, 1) := by decide
  refine ⟨onePage_state 1, (create_right_iff (onePage_state 1) (by decide)).mpr ?_⟩
  exact ⟨(onePtr, 1), free, ⟨by decide, by decide, by decide⟩, .inl (by decide)⟩

/-- With nodes 0 to 30 in use the sign of `1 << 31` spreads over the word, and with node 31 as
well the shift by 32 sets a bit that is set already: node 32 is returned and stays free. -/
theorem create_wrong_bits :
    (NodeState onePtr (onePage 0x7fffffff).mem
        (((List.range 64).filter (0x7fffffff : Word).getLsbD).map (nodeSlot onePtr)) [onePtr] ∧
      (createNode shll (onePtr, onePage 0x7fffffff)).map (fun r => (r.1, r.2.2.mem 5 2)) =
        some (nodeSlot onePtr 31, BitVec.allOnes 64)) ∧
    NodeState onePtr (onePage 0xffffffff).mem
        (((List.range 64).filter (0xffffffff : Word).getLsbD).map (nodeSlot onePtr)) [onePtr] ∧
      (createNode shll (onePtr, onePage 0xffffffff)).map (fun r => (r.1, r.2.2.mem 5 2)) =
        some (nodeSlot onePtr 32, 0xffffffff) :=
  ⟨⟨onePage_state _, by decide⟩, onePage_state _, by decide⟩

structure InitRight (prev page : Nat) (phys' : Phys) : Prop where
  free : ∀ k < nodesPerPage, slotBit (phys'.mem (frameNo page)) k = false
  first : find0Bit (phys'.mem (frameNo page)) = some 0
  before : prevPtr phys'.mem page = prev
  ends : nextPtr phys'.mem page = 0
  linked : prev ≠ 0 → nextPtr phys'.mem prev = page

section Init

variable {phys phys' : Phys} {prev : Nat}

theorem find0Bit_first {header : Fin 512 → Word} (clear : slotBit header 0 = false) :
    find0Bit header = some 0 := by
  have unset : (header 2).getLsbD 0 = false := clear
  have some : header 2 ≠ BitVec.allOnes 64 := by
    intro full
    rw [full] at unset
    cases unset
  have two : (2 + Fin.ofNat 512 0 : Fin 512) = 2 := by decide
  have first : List.range 64 = 0 :: (List.range 63).map Nat.succ := List.range_succ_eq_map
  simp only [find0Bit, some, ne_eq, not_false_eq_true, if_true, show ¬ 1 ≤ 0 by decide, if_false,
    two, first, List.find?_cons, unset, Bool.not_false, Option.map_some]

theorem initAvlPage_right_iff (word : (pmmAllocPage phys).1 < 2 ^ 64)
    (before : prev = 0 ∨ NodePtr prev) :
    (∃ phys', initAvlPage prev phys = some (drawnPage phys, phys') ∧
      InitRight prev (drawnPage phys) phys') ↔
    NodePtr (drawnPage phys) ∧ prev ≠ drawnPage phys ∧
      ∀ k < nodesPerPage, slotBit (phys.mem (frameNo (drawnPage phys))) k = false := by
  have header : ∀ k < nodesPerPage, slotBit (initLinks phys.mem prev (drawnPage phys)
      (frameNo (drawnPage phys))) k = slotBit (phys.mem (frameNo (drawnPage phys))) k := by
    intro k less
    rw [slotBit, initLinks_behind _ _ _ _ (slotWord_behind less).1 (slotWord_behind less).2,
      slotBit]
  constructor
  · rintro ⟨phys', init, right⟩
    have ptr : NodePtr (drawnPage phys) := by
      by_contra out
      rw [initAvlPage_wild out word] at init
      cases init
    obtain ⟨phys₁, links, mem⟩ := initAvlPage_links ptr before
    rw [links, Option.some.injEq, Prod.mk.injEq] at init
    obtain ⟨_, rfl⟩ := init
    refine ⟨ptr, ?_, fun k less => ?_⟩
    · rintro rfl
      have next := right.ends
      rw [right.linked ptr.ne_zero] at next
      exact ptr.ne_zero next
    · rw [← header k less, ← mem]
      exact right.free k less
  · rintro ⟨ptr, other, clear⟩
    obtain ⟨phys₁, links, mem⟩ := initAvlPage_links ptr before
    have free : ∀ k < nodesPerPage, slotBit (phys₁.mem (frameNo (drawnPage phys))) k = false := by
      intro k less
      rw [mem, header k less, clear k less]
    refine ⟨phys₁, links, free, find0Bit_first (free 0 (by decide)), ?_, ?_, ?_⟩
    · rw [mem]
      refine initLinks_prev _ ?_ _
      rcases before with rfl | ptr
      · decide
      · exact ptr.2.1
    · rw [mem]
      refine initLinks_next _ fun some same => other ?_
      exact (frameNo_inj ptr (before.resolve_left some) same).symm
    · intro some
      rw [mem]
      exact initLinks_linked _ some ptr.2.1

/-- init_avl_page returns a page with all nodes free, at the end of the list, if and only if
the page it gets had 0 in all the bits; and create_node gets by with one new page if and only
if there is a 0 bit on the list or on that page. -/
theorem init_page_iff (phys : Phys) (word : (pmmAllocPage phys).1 < 2 ^ 64) :
    (∀ prev, prev = 0 ∨ NodePtr prev →
      ((∃ phys', initAvlPage prev phys = some (drawnPage phys, phys') ∧
          InitRight prev (drawnPage phys) phys') ↔
        NodePtr (drawnPage phys) ∧ prev ≠ drawnPage phys ∧
          ∀ k < nodesPerPage, slotBit (phys.mem (frameNo (drawnPage phys))) k = false)) ∧
    ∀ head pages, PageList head phys.mem pages → ∀ wild,
      ((∃ n head' phys', createNode wild (head, phys) = some (n, head', phys') ∧
          asked phys' ≤ asked phys + 1) ↔
        ∃ r ∈ firstFree phys.mem (pages ++ [drawnPage phys]), NodePtr r.1) := by
  refine ⟨fun prev before => initAvlPage_right_iff word before, fun head pages list wild => ?_⟩
  rcases createNode_cases list word with ⟨page, k, phys₁, takes⟩ | ⟨none, asks⟩
  · constructor
    · intro _
      exact ⟨(page, k), takes.found, takes.ptr⟩
    · intro _
      obtain ⟨head', writes⟩ := takes.writes wild
      refine ⟨_, head', _, writes, ?_⟩
      rw [asked_write]
      rcases takes.asks with same | ⟨_, one⟩ <;> omega
  · constructor
    · rintro ⟨n, head', phys', create, most⟩
      have more := asks wild n head' phys' create
      omega
    · rintro ⟨r, found, ptr⟩
      exact absurd ptr (none r found)

theorem init_page_iff_clear :
    (∃ phys', initAvlPage 0 (onePage 0) = some (onePtr, phys') ∧ InitRight 0 onePtr phys') ∧
    ∃ n head' phys', createNode shll (0, onePage 0) = some (n, head', phys') ∧
      asked phys' ≤ asked (onePage 0) + 1 := by
  have ptr : NodePtr (drawnPage (onePage 0)) := ⟨by decide, by decide, by decide⟩
  obtain ⟨page, node⟩ := init_page_iff (onePage 0) (by decide)
  refine ⟨(page 0 (.inl rfl)).mpr ⟨ptr, by decide, by decide⟩, ?_⟩
  refine (node 0 [] ⟨rfl, trivial, by simp, by simp⟩ shll).mpr ⟨(onePtr, 0), ?_, ptr⟩
  show firstFree _ _ = some (onePtr, 0)
  decide

/-- Two free pages, the first of which to be drawn is full of ones. -/
def stalePage : Phys :=
  ⟨fun f _ => if f = 5 then BitVec.allOnes 64 else 0, [0x6000, 0x5000], 0⟩

theorem stale_page_full :
    ((initAvlPage 0 stalePage).map fun r => (r.1, find0Bit (r.2.mem (frameNo r.1)))) =
      some (onePtr, none) ∧
    ((createNode shll (0, stalePage)).map fun r => (r.1, r.2.2.freePages)) =
      some (nodeSlot (physicalMapOffset + 0x6000) 0, []) := by
  decide

end Init

end Gapxos
