import Mathlib.Data.List.Perm.Basic
import Gapxos.Vmm.FindBit

/-! The pages of the node allocator: what it keeps true of their links and headers as long
as a page it draws is a page of the direct map. -/
namespace Gapxos
open Radix Linked

/-- The allocator at rest: `pages` are on its list and `live` are the nodes in use. -/
structure NodeInv (head : Nat) (phys : Phys) (live pages : List Nat) : Prop where
  chain : Seg 0 (nextPtr phys.mem) head pages 0
  back : Back (prevPtr phys.mem) 0 pages
  ptrs : ∀ page ∈ pages, NodePtr page
  distinct : pages.Nodup
  slots : ∀ n ∈ live, ∃ page ∈ pages, ∃ k < nodesPerPage, n = nodeSlot page k
  nodup : live.Nodup
  bits : ∀ page ∈ pages, ∀ k < nodesPerPage, nodeSlot page k ∈ live →
    slotBit (phys.mem (frameNo page)) k = true
  /- the second word of a header is used when the first one is full, and the code only ever
  clears bit 0 of that -/
  high : ∀ page ∈ pages, ∀ k < nodesPerPage, 64 ≤ k → nodeSlot page k ∈ live →
    phys.mem (frameNo page) 2 ||| 1 = BitVec.allOnes 64
  stack : phys.freePages.Nodup
  entries : ∀ e ∈ phys.freePages, e % 4096 = 0 ∧ e < 2 ^ 64
  /- a page that was given back stands on the stack by its pointer, and only so -/
  once : ∀ e ∈ phys.freePages, physicalMapOffset + e ∉ phys.freePages
  apart : ∀ page ∈ pages, page ∉ phys.freePages ∧ page - physicalMapOffset ∉ phys.freePages

section Pages

variable {head : Nat} {phys : Phys} {live pages : List Nat}

theorem NodeInv.list (inv : NodeInv head phys live pages) : PageList head phys.mem pages :=
  ⟨inv.chain, inv.back, inv.ptrs, inv.distinct⟩

theorem NodeInv.own_page (inv : NodeInv head phys live pages) {page k : Nat}
    (aligned : page % 4096 = 0) (less : k < nodesPerPage) (inside : nodeSlot page k ∈ live) :
    page ∈ pages := by
  obtain ⟨q, within, j, less', eq⟩ := inv.slots _ inside
  rw [(nodeSlot_inj aligned (inv.ptrs q within).2.2 less less' eq).1]
  exact within

/- What a change of memory and stack that leaves the headers alone has to keep. -/
theorem NodeInv.relink (inv : NodeInv head phys live pages) {head' : Nat} {phys' : Phys}
    {pages' : List Nat} (list : PageList head' phys'.mem pages')
    (kept : ∀ page ∈ pages, ∀ k < nodesPerPage, nodeSlot page k ∈ live → page ∈ pages')
    (same : ∀ f, phys'.mem f 2 = phys.mem f 2 ∧ phys'.mem f 3 = phys.mem f 3)
    (stack : phys'.freePages.Nodup) (entries : ∀ e ∈ phys'.freePages, e % 4096 = 0 ∧ e < 2 ^ 64)
    (once : ∀ e ∈ phys'.freePages, physicalMapOffset + e ∉ phys'.freePages)
    (apart : ∀ page ∈ pages', page ∉ phys'.freePages ∧
      page - physicalMapOffset ∉ phys'.freePages) : NodeInv head' phys' live pages' := by
  have header : ∀ f, ∀ k < nodesPerPage, slotBit (phys'.mem f) k = slotBit (phys.mem f) k := by
    intro f k less
    rw [slotBit, slotBit]
    rcases (slotWord_index less).2.2 with ⟨word, _⟩ | ⟨word, _⟩
    · rw [word, (same f).1]
    · rw [word, (same f).2]
  refine ⟨list.chain, list.back, list.ptrs, list.distinct, fun n inside => ?_, inv.nodup, ?_, ?_,
    stack, entries, once, apart⟩
  · obtain ⟨page, within, k, less, rfl⟩ := inv.slots n inside
    exact ⟨page, kept page within k less inside, k, less, rfl⟩
  · intro page within k less inside
    rw [header _ k less]
    exact inv.bits page (inv.own_page (list.ptrs page within).2.2 less inside) k less inside
  · intro page within k less above inside
    rw [(same _).1]
    exact inv.high page (inv.own_page (list.ptrs page within).2.2 less inside) k less above inside

theorem drawn_page (inv : NodeInv head phys live pages) {rest : List Nat} {e : Nat}
    (top : phys.freePages = rest ++ [e]) (low : e < 2 ^ 46) :
    NodePtr (physicalMapOffset + e) ∧ pmmAllocPage phys = (e, { phys with freePages := rest }) ∧
      drawnPage phys = physicalMapOffset + e ∧ physicalMapOffset + e ∉ pages := by
  have entry := inv.entries e (by simp [top])
  have draw : pmmAllocPage phys = (e, { phys with freePages := rest }) := by
    simp [pmmAllocPage, top]
  refine ⟨?_, draw, by rw [drawnPage, draw], fun within => ?_⟩
  · simp only [NodePtr, physicalMapOffset]
    omega
  · have off := (inv.apart _ within).2
    rw [Nat.add_sub_cancel_left, top] at off
    simp at off

/- What is left of the stack. -/
theorem NodeInv.drawn (inv : NodeInv head phys live pages) {rest : List Nat} {e : Nat}
    (top : phys.freePages = rest ++ [e]) :
    rest.Nodup ∧ (∀ a ∈ rest, a % 4096 = 0 ∧ a < 2 ^ 64) ∧
      (∀ a ∈ rest, physicalMapOffset + a ∉ rest) ∧ ∀ page ∈ pages ++ [physicalMapOffset + e],
        page ∉ rest ∧ page - physicalMapOffset ∉ rest := by
  have stack := inv.stack
  rw [top, List.nodup_append] at stack
  have entries := inv.entries
  have once := inv.once
  have apart := inv.apart
  rw [top] at entries once apart
  refine ⟨stack.1, fun a inside => entries a (by simp [inside]), fun a inside twice =>
    once a (by simp [inside]) (by simp [twice]), fun page within => ?_⟩
  rcases List.mem_append.mp within with old | new
  · have := apart page old
    exact ⟨fun inside => this.1 (by simp [inside]), fun inside => this.2 (by simp [inside])⟩
  · rw [List.mem_singleton.mp new, Nat.add_sub_cancel_left]
    exact ⟨fun inside => once e (by simp) (by simp [inside]),
      fun inside => stack.2.2 e inside e (by simp) rfl⟩

theorem initAvlPage_last {xs : List Nat} {l : Nat} (inv : NodeInv head phys live (xs ++ [l]))
    {rest : List Nat} {e : Nat} (top : phys.freePages = rest ++ [e]) (low : e < 2 ^ 46) :
    ∃ phys', initAvlPage l phys = some (physicalMapOffset + e, phys') ∧ phys'.freePages = rest ∧
      (∀ f, phys'.mem f 2 = phys.mem f 2 ∧ phys'.mem f 3 = phys.mem f 3) ∧
      NodeInv head phys' live (xs ++ [l] ++ [physicalMapOffset + e]) := by
  obtain ⟨ptr, draw, page, new⟩ := drawn_page inv top low
  obtain ⟨stack, entries, once, apart⟩ := inv.drawn top
  have init := initAvlPage_drawn (page ▸ ptr) (.inr (inv.ptrs l (by simp)))
  rw [page, draw] at init
  have same : ∀ f, initLinks phys.mem l (physicalMapOffset + e) f 2 = phys.mem f 2 ∧
      initLinks phys.mem l (physicalMapOffset + e) f 3 = phys.mem f 3 := fun f =>
    ⟨initLinks_behind _ _ _ _ (by decide) (by decide),
      initLinks_behind _ _ _ _ (by decide) (by decide)⟩
  exact ⟨_, init, rfl, same, inv.relink (inv.list.draw ptr new) (fun q within _ _ _ =>
    List.mem_append_left _ within) same stack entries once apart⟩

theorem initAvlPage_first (inv : NodeInv 0 phys live []) {rest : List Nat} {e : Nat}
    (top : phys.freePages = rest ++ [e]) (low : e < 2 ^ 46) :
    ∃ phys', initAvlPage 0 phys = some (physicalMapOffset + e, phys') ∧ phys'.freePages = rest ∧
      (∀ f, phys'.mem f 2 = phys.mem f 2 ∧ phys'.mem f 3 = phys.mem f 3) ∧
      NodeInv (physicalMapOffset + e) phys' live [physicalMapOffset + e] := by
  obtain ⟨ptr, draw, page, _⟩ := drawn_page inv top low
  obtain ⟨stack, entries, once, apart⟩ := inv.drawn top
  have init := initAvlPage_drawn (page ▸ ptr) (.inl (Eq.refl 0))
  rw [page, draw] at init
  have same : ∀ f, initLinks phys.mem 0 (physicalMapOffset + e) f 2 = phys.mem f 2 ∧
      initLinks phys.mem 0 (physicalMapOffset + e) f 3 = phys.mem f 3 := fun f =>
    ⟨initLinks_behind _ _ _ _ (by decide) (by decide),
      initLinks_behind _ _ _ _ (by decide) (by decide)⟩
  exact ⟨_, init, rfl, same, inv.relink (.first phys.mem ptr) (by simp) same stack entries once
    apart⟩

theorem NodeInv.rewrite (inv : NodeInv head phys live pages) {f : Nat} {i : Fin 512} (w : Word)
    (behind : i ≠ 0 ∧ i ≠ 1) {live' : List Nat}
    (slots : ∀ n ∈ live', ∃ page ∈ pages, ∃ k < nodesPerPage, n = nodeSlot page k)
    (nodup : live'.Nodup)
    (bits : ∀ page ∈ pages, ∀ k < nodesPerPage, nodeSlot page k ∈ live' →
      slotBit ((phys.write f i w).mem (frameNo page)) k = true)
    (high : ∀ page ∈ pages, ∀ k < nodesPerPage, 64 ≤ k → nodeSlot page k ∈ live' →
      (phys.write f i w).mem (frameNo page) 2 ||| 1 = BitVec.allOnes 64) :
    NodeInv head (phys.write f i w) live' pages := by
  refine ⟨?_, ?_, inv.ptrs, inv.distinct, slots, nodup, bits, high, inv.stack, inv.entries,
    inv.once, inv.apart⟩
  · exact (seg_congr fun q _ => nextPtr_store (.inr behind.2)).mpr inv.chain
  · exact (back_congr fun q _ => prevPtr_store (.inr behind.1)).mpr inv.back

theorem setHeaderBit_slot (wild : Int → Word) {page k : Nat} (ptr : NodePtr page)
    (less : k < nodesPerPage) (phys : Phys) :
    setHeaderBit wild page k true phys = some (phys.write (frameNo page) (slotWord k)
      (phys.mem (frameNo page) (slotWord k) ||| oneShl wild (k % 64 : Nat))) := by
  obtain ⟨word, bit, _⟩ := slotWord_index less
  simp only [setHeaderBit, ptrFrame_eq ptr, Option.map_some, word, bit, if_true]

theorem NodeInv.take (inv : NodeInv head phys live pages) (wild : Int → Word) {page idx : Nat}
    (within : page ∈ pages) (clear : find0Bit (phys.mem (frameNo page)) = some idx)
    (low : idx % 64 < 32) :
    ∃ phys', setHeaderBit wild page idx true phys = some phys' ∧
      NodeInv head phys' (nodeSlot page idx :: live) pages := by
  obtain ⟨less, unset, full⟩ := find0Bit_some clear
  have which := (slotWord_index less).2.2
  have ptr := inv.ptrs page within
  refine ⟨_, setHeaderBit_slot wild ptr less phys, ?_⟩
  have new : nodeSlot page idx ∉ live := by
    intro inside
    rw [inv.bits page within idx less inside] at unset
    cases unset
  -- bits are only added
  have grows : ∀ f j, ∃ x, (phys.write (frameNo page) (slotWord idx)
      (phys.mem (frameNo page) (slotWord idx) ||| oneShl wild (idx % 64 : Nat))).mem f j =
      phys.mem f j ||| x := by
    intro f j
    by_cases hit : f = frameNo page ∧ j = slotWord idx
    · obtain ⟨rfl, rfl⟩ := hit
      exact ⟨_, store_same ..⟩
    · exact ⟨0#64, by rw [Phys.write_mem, store_other hit, BitVec.or_zero]⟩
  refine inv.rewrite _ ?_ ?_ (List.nodup_cons.mpr ⟨new, inv.nodup⟩) ?_ ?_
  · rcases which with ⟨word, _⟩ | ⟨word, _⟩ <;> rw [word] <;> decide
  · intro n inside
    rcases List.mem_cons.mp inside with rfl | old
    · exact ⟨page, within, idx, less, rfl⟩
    · exact inv.slots n old
  · intro q there k less' inside
    rcases List.mem_cons.mp inside with eq | old
    · obtain ⟨rfl, rfl⟩ := nodeSlot_inj (inv.ptrs q there).2.2 ptr.2.2 less' less eq
      rw [slotBit, Phys.write_mem, store_same, BitVec.getLsbD_or, oneShl_bit wild low,
        Bool.or_true]
    · obtain ⟨x, eq⟩ := grows (frameNo q) (slotWord k)
      have set := inv.bits q there k less' old
      rw [slotBit] at set
      rw [slotBit, eq, BitVec.getLsbD_or, set, Bool.true_or]
  · intro q there k less' above inside
    obtain ⟨x, eq⟩ := grows (frameNo q) 2
    have top : phys.mem (frameNo q) 2 ||| 1 = BitVec.allOnes 64 := by
      rcases List.mem_cons.mp inside with same | old
      · obtain ⟨rfl, rfl⟩ := nodeSlot_inj (inv.ptrs q there).2.2 ptr.2.2 less' less same
        rw [full above]
        decide
      · exact inv.high q there k less' above old
    rw [eq, BitVec.or_assoc, BitVec.or_comm x, ← BitVec.or_assoc, top, BitVec.allOnes_or]

theorem find0Bit_congr {h h' : Fin 512 → Word} (two : h' 2 = h 2) (three : h' 3 = h 3) :
    find0Bit h' = find0Bit h := by
  by_cases full : h 2 = BitVec.allOnes 64
  · have word : (2 + Fin.ofNat 512 1 : Fin 512) = 3 := by decide
    simp only [find0Bit, two, full, ne_eq, not_true_eq_false, if_false, word, three]
  · have word : (2 + Fin.ofNat 512 0 : Fin 512) = 2 := by decide
    simp only [find0Bit, two, full, ne_eq, not_false_eq_true, if_true, word]

/- The pages create_node would draw, the top of the stack first, up to one with a free node:
pages of the direct map, and that node has a bit an int can be shifted to. -/
def DrawOk (m : Mem) : List Nat → Prop
  | [] => False
  | e :: rest => e < 2 ^ 46 ∧
    match find0Bit (m (e / 4096)) with
    | some idx => idx % 64 < 32
    | none => DrawOk m rest

/-- The same for the pages on the list first, and then for the pages to be drawn. -/
def SearchOk (m : Mem) (stack : List Nat) : List Nat → Prop
  | [] => DrawOk m stack.reverse
  | page :: pages =>
    match find0Bit (m (frameNo page)) with
    | some idx => idx % 64 < 32
    | none => SearchOk m stack pages

theorem drawOk_congr {m m' : Mem} (same : ∀ f, m' f 2 = m f 2 ∧ m' f 3 = m f 3) {es : List Nat}
    (ok : DrawOk m es) : DrawOk m' es := by
  induction es with
  | nil => exact ok
  | cons e rest ih =>
    refine ⟨ok.1, ?_⟩
    have next := ok.2
    rw [find0Bit_congr (same _).1 (same _).2]
    split at next
    · exact next
    · exact ih next

theorem frameNo_offset (e : Nat) : frameNo (physicalMapOffset + e) = e / 4096 := by
  rw [frameNo, Nat.add_sub_cancel_left]

def Found (head : Nat) (live : List Nat) (r : Option (Nat × Nat × Phys)) : Prop :=
  ∃ page idx phys pages, r = some (page, idx, phys) ∧ NodeInv head phys live pages ∧
    page ∈ pages ∧ find0Bit (phys.mem (frameNo page)) = some idx ∧ idx % 64 < 32

/- The search at the end of the list: each pass draws a page until one has a free node. The
induction is on the stack. -/
theorem findPage_last (es xs : List Nat) {l passes : Nat}
    (inv : NodeInv head phys live (xs ++ [l])) (stack : phys.freePages = es.reverse)
    (ok : match find0Bit (phys.mem (frameNo l)) with
      | some idx => idx % 64 < 32
      | none => DrawOk phys.mem es)
    (enough : es.length < passes) : Found head live (findPage l phys passes) := by
  induction es generalizing phys xs l passes with
  | nil =>
    obtain ⟨n, rfl⟩ := Nat.exists_eq_succ_of_ne_zero (Nat.ne_of_gt enough)
    have ptr := inv.ptrs l (by simp)
    cases clear : find0Bit (phys.mem (frameNo l)) with
    | none => simp [clear, DrawOk] at ok
    | some idx =>
      rw [clear] at ok
      exact ⟨l, idx, phys, _, by simp [findPage, ptrFrame_eq ptr, clear], inv, by simp, clear, ok⟩
  | cons e rest ih =>
    obtain ⟨n, rfl⟩ := Nat.exists_eq_succ_of_ne_zero (Nat.ne_of_gt (Nat.zero_lt_of_lt enough))
    have ptr := inv.ptrs l (by simp)
    cases clear : find0Bit (phys.mem (frameNo l)) with
    | some idx =>
      rw [clear] at ok
      exact ⟨l, idx, phys, _, by simp [findPage, ptrFrame_eq ptr, clear], inv, by simp, clear, ok⟩
    | none =>
      rw [clear] at ok
      obtain ⟨low, next⟩ := ok
      rw [List.reverse_cons] at stack
      obtain ⟨phys', init, stack', same, inv'⟩ := initAvlPage_last inv stack low
      have ends : phys.mem (frameNo l) 1 = 0 := by
        have chain := (seg_middle.mp inv.chain).2.2
        exact BitVec.eq_of_toNat_eq chain
      have step : findPage l phys (n + 1) = findPage (physicalMapOffset + e) phys' n := by
        simp [findPage, ptrFrame_eq ptr, clear, ends, init]
      rw [step]
      refine ih _ inv' stack' ?_ (by simpa using enough)
      rw [frameNo_offset, find0Bit_congr (same _).1 (same _).2]
      split at next
      · exact next
      · exact drawOk_congr same next

theorem findPage_walk (xs : List Nat) {ys : List Nat} {p passes : Nat}
    (inv : NodeInv head phys live (xs ++ p :: ys))
    (ok : SearchOk phys.mem phys.freePages (p :: ys))
    (enough : ys.length + phys.freePages.length < passes) :
    Found head live (findPage p phys passes) := by
  induction ys generalizing xs p passes with
  | nil =>
    exact findPage_last phys.freePages.reverse xs inv (by simp) ok (by simpa using enough)
  | cons y ys ih =>
    obtain ⟨n, rfl⟩ := Nat.exists_eq_succ_of_ne_zero (Nat.ne_of_gt (Nat.zero_lt_of_lt enough))
    have ptr := inv.ptrs p (by simp)
    rw [SearchOk] at ok
    cases clear : find0Bit (phys.mem (frameNo p)) with
    | some idx =>
      rw [clear] at ok
      exact ⟨p, idx, phys, _, by simp [findPage, ptrFrame_eq ptr, clear], inv, by simp, clear, ok⟩
    | none =>
      rw [clear] at ok
      have next : (phys.mem (frameNo p) 1).toNat = y := (seg_middle.mp inv.chain).2.2.1
      have more : phys.mem (frameNo p) 1 ≠ 0 := by
        intro none
        rw [none] at next
        exact (inv.ptrs y (by simp)).ne_zero next.symm
      have step : findPage p phys (n + 1) = findPage y phys n := by
        simp only [findPage, ptrFrame_eq ptr, Option.bind_some, clear, ne_eq, more,
          not_false_eq_true, if_true, next]
      rw [step]
      rw [← List.singleton_append, ← List.append_assoc] at inv
      exact ih _ inv ok (by simp only [List.length_cons] at enough; omega)

theorem pages_length {es : List Nat} (nodup : es.Nodup)
    (entries : ∀ e ∈ es, e % 4096 = 0 ∧ e < 2 ^ 64) : es.length ≤ 2 ^ 52 := by
  have inj : (es.map (· / 4096)).Nodup := by
    refine List.Nodup.map_on (fun a ha b hb same => ?_) nodup
    have := entries a ha
    have := entries b hb
    omega
  have sub : es.map (· / 4096) ⊆ List.range (2 ^ 52) := by
    intro a inside
    obtain ⟨e, within, rfl⟩ := List.mem_map.mp inside
    have := entries e within
    exact List.mem_range.mpr (by omega)
  have le := (List.subperm_of_subset inj sub).length_le
  rwa [List.length_map, List.length_range] at le

theorem createNode_step (inv : NodeInv head phys live pages) (wild : Int → Word)
    (ok : SearchOk phys.mem phys.freePages pages) :
    ∃ n head' phys' pages', createNode wild (head, phys) = some (n, head', phys') ∧
      NodeInv head' phys' (n :: live) pages' := by
  have found : ∃ head' phys', (if head = 0 then initAvlPage 0 phys else some (head, phys)) =
      some (head', phys') ∧ Found head' live (findPage head' phys' (2 ^ 54)) := by
    have long := pages_length inv.stack inv.entries
    cases pages with
    | nil =>
      obtain rfl : head = 0 := inv.chain
      rw [SearchOk] at ok
      cases stack : phys.freePages.reverse with
      | nil => simp [stack, DrawOk] at ok
      | cons e rest =>
        rw [stack] at ok
        have top : phys.freePages = rest.reverse ++ [e] := by
          rw [← List.reverse_cons, ← stack, List.reverse_reverse]
        obtain ⟨phys', init, stack', same, inv'⟩ := initAvlPage_first inv top ok.1
        refine ⟨_, phys', by rw [if_pos rfl, init], ?_⟩
        refine findPage_last rest [] inv' stack' ?_ ?_
        · have next := ok.2
          rw [frameNo_offset, find0Bit_congr (same _).1 (same _).2]
          split at next
          · exact next
          · exact drawOk_congr same next
        · have := congrArg List.length stack
          simp only [List.length_reverse, List.length_cons] at this
          omega
    | cons p ys =>
      obtain ⟨rfl, ne, _⟩ := inv.chain
      have many := pages_length inv.distinct fun page within =>
        ⟨(inv.ptrs page within).2.2, (inv.ptrs page within).2.1⟩
      refine ⟨head, phys, if_neg ne, findPage_walk [] inv ok ?_⟩
      simp only [List.length_cons] at many
      omega
  obtain ⟨head', phys', start, page, idx, phys'', pages', search, inv', within, clear, low⟩ := found
  obtain ⟨final, set, inv''⟩ := inv'.take wild within clear low
  exact ⟨nodeSlot page idx, head', final, pages', by
    rw [createNode, start, Option.bind_some, search, Option.bind_some, set, Option.map_some], inv''⟩

end Pages

end Gapxos
