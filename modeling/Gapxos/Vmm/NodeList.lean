import Mathlib.Data.List.Nodup
import Gapxos.Lib.Linked
import Gapxos.Vmm.NodeAlloc

/-! Node pages in memory: the list that runs through them, how a page comes to its end and how
one leaves it. -/
namespace Gapxos
open Radix Linked

def NodePtr (page : Nat) : Prop :=
  physicalMapOffset ≤ page ∧ page < 2 ^ 64 ∧ page % 4096 = 0

def frameNo (page : Nat) : Nat := (page - physicalMapOffset) / 4096

theorem ptrFrame_eq {page : Nat} (h : NodePtr page) : ptrFrame page = some (frameNo page) :=
  if_pos h

theorem frameNo_inj {p q : Nat} (hp : NodePtr p) (hq : NodePtr q) (h : frameNo p = frameNo q) :
    p = q := by
  simp only [NodePtr, frameNo] at hp hq h
  omega

theorem NodePtr.ne_zero {page : Nat} (h : NodePtr page) : page ≠ 0 := by
  have := h.1
  simp only [physicalMapOffset] at this
  omega

theorem nodeSlot_inj {p q k j : Nat} (hp : p % 4096 = 0) (hq : q % 4096 = 0)
    (hk : k < nodesPerPage) (hj : j < nodesPerPage) (h : nodeSlot p k = nodeSlot q j) :
    p = q ∧ k = j := by
  simp only [nodeSlot, nodesPerPage] at hk hj h
  omega

theorem getNodePage_slot {p k : Nat} (hp : p % 4096 = 0) (hk : k < nodesPerPage) :
    getNodePage (nodeSlot p k) = p := by
  simp only [getNodePage, nodeSlot, nodesPerPage] at hk ⊢
  omega

def nextPtr (m : Mem) (page : Nat) : Nat := (m (frameNo page) 1).toNat
def prevPtr (m : Mem) (page : Nat) : Nat := (m (frameNo page) 0).toNat

theorem nextPtr_store {m : Mem} {f page : Nat} {i : Fin 512} {w : Word}
    (other : frameNo page ≠ f ∨ i ≠ 1) : nextPtr (store m f i w) page = nextPtr m page := by
  rw [nextPtr, store_other, nextPtr]
  rintro ⟨same, rfl⟩
  rcases other with ne | ne
  · exact ne same
  · exact ne rfl

theorem prevPtr_store {m : Mem} {f page : Nat} {i : Fin 512} {w : Word}
    (other : frameNo page ≠ f ∨ i ≠ 0) : prevPtr (store m f i w) page = prevPtr m page := by
  rw [prevPtr, store_other, prevPtr]
  rintro ⟨same, rfl⟩
  rcases other with ne | ne
  · exact ne same
  · exact ne rfl

theorem nextPtr_store_self (m : Mem) (page : Nat) {p : Nat} (h : p < 2 ^ 64) :
    nextPtr (store m (frameNo page) 1 (BitVec.ofNat 64 p)) page = p := by
  rw [nextPtr, store_same, BitVec.toNat_ofNat, Nat.mod_eq_of_lt h]

theorem prevPtr_store_self (m : Mem) (page : Nat) {p : Nat} (h : p < 2 ^ 64) :
    prevPtr (store m (frameNo page) 0 (BitVec.ofNat 64 p)) page = p := by
  rw [prevPtr, store_same, BitVec.toNat_ofNat, Nat.mod_eq_of_lt h]

/-- The word of the header that has the bit of a node, and that bit. -/
def slotWord (k : Nat) : Fin 512 := 2 + Fin.ofNat 512 (k / 64)

def slotBit (header : Fin 512 → Word) (k : Nat) : Bool := (header (slotWord k)).getLsbD (k % 64)

theorem slotWord_index {k : Nat} (h : k < nodesPerPage) :
    Fin.ofNat 512 (2 + (k : Int).tdiv 64).toNat = slotWord k ∧
      (k : Int).tmod 64 = ((k % 64 : Nat) : Int) ∧
      (slotWord k = 2 ∧ k < 64 ∨ slotWord k = 3 ∧ 64 ≤ k) := by
  revert k
  decide

theorem oneShl_bit (wild : Int → Word) {bit : Nat} (h : bit < 32) :
    (oneShl wild bit).getLsbD bit = true := by
  rw [oneShl, if_pos (by omega)]
  revert bit
  decide

/-- The pages from `node_list_head` on, linked both ways. -/
structure PageList (head : Nat) (m : Mem) (pages : List Nat) : Prop where
  chain : Seg 0 (nextPtr m) head pages 0
  back : Back (prevPtr m) 0 pages
  ptrs : ∀ page ∈ pages, NodePtr page
  distinct : pages.Nodup

def linkPage (m : Mem) (l page : Nat) : Mem :=
  store (store (store m (frameNo page) 0 (BitVec.ofNat 64 l)) (frameNo page) 1 0) (frameNo l) 1
    (BitVec.ofNat 64 page)

/-- The page that init_avl_page would draw, seen through the direct map. -/
def drawnPage (phys : Phys) : Nat := physicalMapOffset + (pmmAllocPage phys).1

/-- Memory after init_avl_page: the two pointers of the page, and that of the page before. -/
def initLinks (m : Mem) (prev page : Nat) : Mem :=
  if prev = 0 then store (store m (frameNo page) 0 0) (frameNo page) 1 0
  else linkPage m prev page

section Draw

variable {head : Nat} {m : Mem} {phys : Phys} {pages xs : List Nat} {l page prev : Nat}

theorem initAvlPage_drawn (ptr : NodePtr (drawnPage phys)) (before : prev = 0 ∨ NodePtr prev) :
    initAvlPage prev phys = some (drawnPage phys,
      { (pmmAllocPage phys).2 with mem := initLinks phys.mem prev (drawnPage phys) }) := by
  have wrap : ((pmmAllocPage phys).1 + physicalMapOffset) % 2 ^ 64 = drawnPage phys := by
    rw [Nat.add_comm]
    exact Nat.mod_eq_of_lt ptr.2.1
  rcases before with rfl | last
  · simp only [initAvlPage, wrap, ptrFrame_eq ptr, Option.bind_some, if_true, initLinks,
      Phys.write, pmmAllocPage_mem]
    rfl
  · simp only [initAvlPage, wrap, ptrFrame_eq ptr, ptrFrame_eq last, Option.bind_some,
      Option.map_some, if_neg last.ne_zero, initLinks, linkPage, Phys.write, pmmAllocPage_mem]

theorem initAvlPage_wild (wild : ¬ NodePtr (drawnPage phys)) (word : (pmmAllocPage phys).1 < 2 ^ 64)
    (prev : Nat) : initAvlPage prev phys = none := by
  have out : ptrFrame (((pmmAllocPage phys).1 + physicalMapOffset) % 2 ^ 64) = none := by
    refine if_neg fun ptr => wild ?_
    simp only [drawnPage, NodePtr, physicalMapOffset] at *
    omega
  simp only [initAvlPage, out, Option.bind_none]

theorem initLinks_behind (m : Mem) (prev page : Nat) (f : Nat) {i : Fin 512} (zero : i ≠ 0)
    (one : i ≠ 1) : initLinks m prev page f i = m f i := by
  unfold initLinks linkPage
  split <;> simp only [store_other_index zero, store_other_index one]

theorem initLinks_prev (m : Mem) {prev : Nat} (word : prev < 2 ^ 64) (page : Nat) :
    prevPtr (initLinks m prev page) page = prev := by
  unfold initLinks linkPage
  split
  · rename_i zero
    rw [prevPtr_store (.inr (by decide)), zero]
    exact prevPtr_store_self _ page (by decide)
  · rw [prevPtr_store (.inr (by decide)), prevPtr_store (.inr (by decide))]
    exact prevPtr_store_self _ page word

theorem initLinks_next (m : Mem) {prev page : Nat}
    (other : prev ≠ 0 → frameNo page ≠ frameNo prev) :
    nextPtr (initLinks m prev page) page = 0 := by
  unfold initLinks linkPage
  split
  · exact nextPtr_store_self _ page (by decide)
  · rename_i some
    rw [nextPtr_store (.inl (other some))]
    exact nextPtr_store_self _ page (by decide)

theorem initLinks_linked (m : Mem) {prev page : Nat} (some : prev ≠ 0) (word : page < 2 ^ 64) :
    nextPtr (initLinks m prev page) prev = page := by
  rw [initLinks, if_neg some]
  exact nextPtr_store_self _ prev word

theorem PageList.first (m : Mem) (ptr : NodePtr page) :
    PageList page (initLinks m 0 page) [page] := by
  refine ⟨⟨rfl, ptr.ne_zero, ?_⟩, ⟨initLinks_prev m (by decide) page, trivial⟩, ?_, ?_⟩
  · exact nextPtr_store_self _ page (by decide)
  · simpa using ptr
  · simp

theorem PageList.draw (list : PageList head m (xs ++ [l])) (ptr : NodePtr page)
    (new : page ∉ xs ++ [l]) :
    PageList head (initLinks m l page) (xs ++ [l] ++ [page]) := by
  have last : NodePtr l := list.ptrs l (by simp)
  have other : ∀ q ∈ xs ++ [l], frameNo q ≠ frameNo page := by
    intro q within same
    exact new (frameNo_inj (list.ptrs q within) ptr same ▸ within)
  have before : ∀ q ∈ xs, frameNo q ≠ frameNo l := by
    intro q within same
    have eq := frameNo_inj (list.ptrs q (by simp [within])) last same
    exact (List.nodup_append.mp list.distinct).2.2 q within l (by simp) eq
  have links : initLinks m l page = linkPage m l page := if_neg last.ne_zero
  have next : ∀ q ∈ xs, nextPtr (initLinks m l page) q = nextPtr m q := by
    intro q within
    have away := other q (by simp [within])
    rw [links, linkPage, nextPtr_store (.inl (before q within)), nextPtr_store (.inl away),
      nextPtr_store (.inl away)]
  have prev : ∀ q ∈ xs ++ [l], prevPtr (initLinks m l page) q = prevPtr m q := by
    intro q within
    rw [links, linkPage, prevPtr_store (.inr (by decide)), prevPtr_store (.inr (by decide)),
      prevPtr_store (.inl (other q within))]
  refine ⟨?_, ?_, ?_, ?_⟩
  · obtain ⟨start, ne, _⟩ := seg_middle.mp list.chain
    rw [List.append_assoc, List.singleton_append, seg_middle, seg_congr next,
      initLinks_linked m last.ne_zero ptr.2.1]
    exact ⟨start, ne, rfl, ptr.ne_zero, initLinks_next m fun _ => (other l (by simp)).symm⟩
  · rw [back_append, back_congr prev]
    exact ⟨list.back, by simpa using initLinks_prev m last.2.1 page, trivial⟩
  · intro q within
    rcases List.mem_append.mp within with old | new
    · exact list.ptrs q old
    · exact List.mem_singleton.mp new ▸ ptr
  · refine List.nodup_append.mpr ⟨list.distinct, by simp, fun q within r last eq => ?_⟩
    rw [List.mem_singleton.mp last] at eq
    exact new (eq ▸ within)

end Draw

section Drop

variable {head : Nat} {m : Mem} {phys : Phys} {pages xs ys : List Nat} {page p q : Nat}

theorem PageList.frame_ne (list : PageList head m pages) (hp : p ∈ pages) (hq : q ∈ pages)
    (ne : p ≠ q) : frameNo p ≠ frameNo q :=
  fun same => ne (frameNo_inj (list.ptrs p hp) (list.ptrs q hq) same)

theorem PageList.next_eq (list : PageList head m (xs ++ page :: ys)) :
    nextPtr m page = ys.headD 0 := by
  obtain ⟨_, _, after⟩ := seg_middle.mp list.chain
  cases ys with
  | nil => exact after
  | cons y ys => exact after.1

theorem PageList.next_aligned (list : PageList head m pages) (within : page ∈ pages) :
    nextPtr m page % 4096 = 0 := by
  obtain ⟨xs, ys, rfl⟩ := List.append_of_mem within
  rw [list.next_eq]
  cases ys with
  | nil => rfl
  | cons y ys => exact (list.ptrs y (by simp)).2.2

theorem PageList.prev_eq (list : PageList head m (xs ++ page :: ys)) :
    prevPtr m page = xs.getLastD 0 :=
  (back_append.mp list.back).2.1

theorem PageList.head_eq (list : PageList head m pages) : head = pages.headD 0 := by
  cases pages with
  | nil => exact list.chain
  | cons p pages => exact list.chain.1

structure Dropped (page : Nat) (phys phys' : Phys) : Prop where
  pushed : phys'.freePages = phys.freePages ++ [page]
  misses : phys'.misses = phys.misses
  behind : ∀ f i, i ≠ 0 → i ≠ 1 → phys'.mem f i = phys.mem f i

theorem PageList.drop_head (list : PageList page phys.mem (page :: ys)) :
    ∃ phys', dropPage page (frameNo page) (page, phys) = some (ys.headD 0, phys') ∧
      PageList (ys.headD 0) phys'.mem ys ∧ Dropped page phys phys' := by
  obtain ⟨fresh, distinct⟩ := List.nodup_cons.mp list.distinct
  have ptrs : ∀ q ∈ ys, NodePtr q := fun q there => list.ptrs q (by simp [there])
  have whole : PageList page phys.mem ([] ++ page :: ys) := list
  have next : (phys.mem (frameNo page) 1).toNat = ys.headD 0 := whole.next_eq
  cases ys with
  | nil =>
    refine ⟨pmmFreePage phys page, by simp [dropPage, next], ⟨rfl, trivial, ptrs, distinct⟩, ?_⟩
    exact ⟨rfl, rfl, fun _ _ _ _ => rfl⟩
  | cons y zs =>
    obtain ⟨_, _, _, ne, rest⟩ := list.chain
    have ptr := ptrs y (by simp)
    have word : (phys.mem (frameNo page) 1).toNat = y := next
    refine ⟨(pmmFreePage phys page).write (frameNo y) 0 0, by
      simp [dropPage, word, ptr.ne_zero, ptrFrame_eq ptr], ⟨?_, ⟨?_, ?_⟩, ptrs, distinct⟩, ?_⟩
    · exact (seg_congr fun q _ => nextPtr_store (.inr (by decide))).mpr ⟨rfl, ne, rest⟩
    · exact prevPtr_store_self _ y (p := 0) (by decide)
    · refine (back_congr fun q there => prevPtr_store (.inl ?_)).mpr list.back.2.2
      refine list.frame_ne (by simp [there]) (by simp) ?_
      rintro rfl
      exact (List.nodup_cons.mp distinct).1 there
    · exact ⟨rfl, rfl, fun f i zero _ => store_other_index zero⟩

theorem PageList.drop_middle {zs : List Nat} {a z : Nat}
    (list : PageList head phys.mem (xs ++ a :: page :: z :: zs)) (other : head ≠ page) :
    ∃ phys', dropPage page (frameNo page) (head, phys) = some (head, phys') ∧
      PageList head phys'.mem (xs ++ a :: z :: zs) ∧ Dropped page phys phys' := by
  have shrink : List.Sublist (xs ++ a :: z :: zs) (xs ++ a :: page :: z :: zs) := by simp
  have parts := list.distinct
  simp only [List.nodup_append, List.nodup_cons, List.mem_cons] at parts
  have pa := list.ptrs a (by simp)
  have pz := list.ptrs z (by simp)
  have shape : xs ++ a :: page :: z :: zs = (xs ++ [a]) ++ page :: z :: zs := by simp
  rw [shape] at list
  have next : (phys.mem (frameNo page) 1).toNat = z := list.next_eq
  have prev : (phys.mem (frameNo page) 0).toNat = a := list.prev_eq.trans (by simp)
  rw [← shape] at list
  refine ⟨pmmFreePage ((phys.write (frameNo a) 1 (BitVec.ofNat 64 z)).write (frameNo z) 0
    (BitVec.ofNat 64 a)) page, by simp only [dropPage, next, prev, if_neg other, ptrFrame_eq pa,
      ptrFrame_eq pz, Option.bind_some, Option.map_some], ⟨?_, ?_, fun q there => list.ptrs q
      (shrink.subset there), list.distinct.sublist shrink⟩, rfl, rfl, fun f i zero one => ?_⟩
  · refine seg_unlink list.chain ?_ fun q there => ?_
    · refine (nextPtr_store (.inr (by decide))).trans ?_
      exact (nextPtr_store_self _ a pz.2.1).trans next.symm
    · refine (nextPtr_store (.inr (by decide))).trans (nextPtr_store (.inl ?_))
      refine list.frame_ne ?_ (by simp) ?_ <;>
        simp only [List.mem_append, List.mem_cons] at there ⊢ <;> grind
  · have back : Back (prevPtr phys.mem) 0 ((xs ++ [a]) ++ page :: z :: zs) := by
      simpa using list.back
    rw [show xs ++ a :: z :: zs = (xs ++ [a]) ++ z :: zs by simp]
    refine back_unlink back ?_ fun q there => ?_
    · exact (prevPtr_store_self _ z pa.2.1).trans prev.symm
    · refine (prevPtr_store (.inl ?_)).trans (prevPtr_store (.inr (by decide)))
      refine list.frame_ne ?_ (by simp) ?_ <;>
        simp only [List.mem_append, List.mem_cons] at there ⊢ <;> grind
  · exact (store_other_index zero).trans (store_other_index one)

theorem PageList.drop (list : PageList head phys.mem (xs ++ page :: ys))
    (linked : head = page ∨ nextPtr phys.mem page ≠ 0) :
    ∃ head' phys', dropPage page (frameNo page) (head, phys) = some (head', phys') ∧
      PageList head' phys'.mem (xs ++ ys) ∧ Dropped page phys phys' := by
  rcases List.eq_nil_or_concat' xs with rfl | ⟨xs, a, rfl⟩
  · obtain rfl : head = page := list.chain.1
    obtain ⟨phys', eq, rest⟩ := list.drop_head
    exact ⟨_, phys', eq, rest⟩
  · have other : head ≠ page := by
      intro same
      have first := list.head_eq
      have parts := list.distinct
      rw [same] at first
      cases xs with
      | nil =>
        simp only [List.nil_append, List.singleton_append, List.headD_cons] at first parts
        simp [first] at parts
      | cons x xs =>
        simp only [List.cons_append, List.headD_cons] at first parts
        simp [first] at parts
    have next := list.next_eq
    cases ys with
    | nil => exact absurd next (linked.resolve_left other)
    | cons z zs =>
      rw [List.append_assoc, List.singleton_append] at list
      obtain ⟨phys', eq, rest, dropped⟩ := list.drop_middle other
      exact ⟨head, phys', eq, by simpa using rest, dropped⟩

end Drop

end Gapxos
