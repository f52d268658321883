import Gapxos.Vmm.NodeRun
import Gapxos.Vmm.Refused
import Gapxos.Vmm.Tiled

/-! A request for pages while the stack of the PMM runs out. An empty stack answers 0, and
every caller takes that for a page: for the node page, for a table and for the page that
was asked for. -/
namespace Gapxos
open Radix SearchTree

section Insert

variable {σ : Type} {src : NodeSource σ}

theorem insertNode_ptrs {addr pageCount : Nat} {t t' : AvlTree} {st st' : σ × Phys}
    (h : insertNode src addr pageCount t st = some (t', st')) :
    st' = st ∨ ∃ n, src.createNode st = some (n, st') ∧ (nodePtrs t').Perm (n :: nodePtrs t) := by
  induction t generalizing t' with
  | nil =>
    simp only [insertNode, Option.bind_eq_bind, Option.bind_eq_some_iff, Option.some.injEq,
      Prod.mk.injEq] at h
    obtain ⟨⟨n, st₁⟩, made, t₁, done, rfl, rfl⟩ := h
    refine .inr ⟨n, made, ?_⟩
    rw [nodePtrs, rebalance_toList done]
    exact .refl _
  | node v i l r left right =>
    rw [insertNode] at h
    split at h
    · simp only [Option.bind_eq_bind, Option.bind_eq_some_iff, Option.some.injEq,
        Prod.mk.injEq] at h
      obtain ⟨⟨l', st₁⟩, step, t₁, done, rfl, rfl⟩ := h
      rcases left step with same | ⟨n, made, perm⟩
      · exact .inl same
      · refine .inr ⟨n, made, ?_⟩
        simp only [nodePtrs, rebalance_toList done, KeyTree.toList_node, List.map_append] at perm ⊢
        exact perm.append_right _
    · split at h
      · simp only [Option.bind_eq_bind, Option.bind_eq_some_iff, Option.some.injEq,
          Prod.mk.injEq] at h
        obtain ⟨⟨r', st₁⟩, step, t₁, done, rfl, rfl⟩ := h
        rcases right step with same | ⟨n, made, perm⟩
        · exact .inl same
        · refine .inr ⟨n, made, ?_⟩
          simp only [nodePtrs, rebalance_toList done, KeyTree.toList_node, List.map_append,
            List.map_cons] at perm ⊢
          exact ((perm.cons v.ptr).append_left _).trans
            (((List.Perm.swap ..).append_left _).trans List.perm_middle)
      · cases h
        exact .inl rfl

end Insert

theorem pmmAllocPage_misses (s : Phys) :
    (pmmAllocPage s).2.misses = s.misses ∨ (s.freePages = [] ∧
      pmmAllocPage s = (0, { s with misses := s.misses + 1 })) := by
  by_cases empty : s.freePages = []
  · exact .inr ⟨empty, pmmAllocPage_empty empty⟩
  · refine .inl ?_
    cases last : s.freePages.getLast? with
    | none => exact absurd (List.getLast?_eq_none_iff.mp last) empty
    | some page => simp [pmmAllocPage, last]

section NodePage

theorem ptrFrame_zero : ptrFrame physicalMapOffset = some 0 := by decide

/- The node page that an empty stack yields is page 0. Its next-pointer is NULL, or leads
back to it if it was the last page already. -/
theorem initAvlPage_misses {prev page : Nat} {phys phys' : Phys}
    (init : initAvlPage prev phys = some (page, phys')) :
    phys'.misses = phys.misses ∨ (page = physicalMapOffset ∧ phys'.freePages = [] ∧
      (phys'.mem 0 1 = 0 ∨ phys'.mem 0 1 = BitVec.ofNat 64 physicalMapOffset)) := by
  rcases pmmAllocPage_misses phys with same | ⟨empty, draw⟩
  · refine .inl ?_
    simp only [initAvlPage, Option.bind_eq_some_iff] at init
    obtain ⟨f, _, rest⟩ := init
    split at rest
    · simp only [Option.some.injEq, Prod.mk.injEq] at rest
      rw [← rest.2]
      exact same
    · obtain ⟨g, _, eq⟩ := Option.map_eq_some_iff.mp rest
      rw [← (Prod.mk.inj eq).2]
      exact same
  · refine .inr ?_
    have wrap : (0 + physicalMapOffset) % 2 ^ 64 = physicalMapOffset := by decide
    simp only [initAvlPage, draw, wrap, ptrFrame_zero, Option.bind_some] at init
    split at init
    · simp only [Option.some.injEq, Prod.mk.injEq] at init
      obtain ⟨rfl, rfl⟩ := init
      exact ⟨rfl, empty, .inl (by rw [Phys.write_mem, store_same])⟩
    · obtain ⟨g, _, eq⟩ := Option.map_eq_some_iff.mp init
      obtain ⟨rfl, rfl⟩ := Prod.mk.inj eq
      refine ⟨rfl, empty, ?_⟩
      by_cases self : g = 0
      · subst self
        exact .inr (by rw [Phys.write_mem, store_same])
      · refine .inl ?_
        rw [Phys.write_mem, store_other fun hit => self hit.1.symm, Phys.write_mem, store_same]

theorem findPage_circle {phys : Phys} (full : find0Bit (phys.mem 0) = none)
    (self : phys.mem 0 1 = BitVec.ofNat 64 physicalMapOffset) (passes : Nat) :
    findPage physicalMapOffset phys passes = none := by
  induction passes with
  | zero => rfl
  | succ n ih =>
    have more : phys.mem 0 1 ≠ 0 := by
      rw [self]
      decide
    have next : (phys.mem 0 1).toNat = physicalMapOffset := by
      rw [self]
      decide
    simp only [findPage, ptrFrame_zero, Option.bind_some, full, ne_eq, more, not_false_eq_true,
      if_true, next, ih]

theorem findPage_zero {phys phys' : Phys} {page idx passes : Nat} (empty : phys.freePages = [])
    (ends : phys.mem 0 1 = 0 ∨ phys.mem 0 1 = BitVec.ofNat 64 physicalMapOffset)
    (found : findPage physicalMapOffset phys passes = some (page, idx, phys')) :
    page = physicalMapOffset := by
  cases clear : find0Bit (phys.mem 0) with
  | some j =>
    cases passes with
    | zero => cases found
    | succ n =>
      simp only [findPage, ptrFrame_zero, Option.bind_some, clear, Option.some.injEq,
        Prod.mk.injEq] at found
      exact found.1.symm
  | none =>
    exfalso
    rcases ends with last | self
    · cases passes with
      | zero => cases found
      | succ n =>
        -- page 0 is drawn again and becomes its own next page
        have wrap : (0 + physicalMapOffset) % 2 ^ 64 = physicalMapOffset := by decide
        have ne : physicalMapOffset ≠ 0 := by decide
        simp only [findPage, ptrFrame_zero, Option.bind_some, clear, last, ne_eq,
          not_true_eq_false, if_false, initAvlPage, pmmAllocPage_empty empty, wrap, if_neg ne,
          Option.map_some] at found
        rw [findPage_circle] at found
        · cases found
        · rw [← clear]
          refine find0Bit_congr ?_ ?_ <;>
            simp only [Phys.write_mem] <;> repeat rw [store_other_index (by decide)]
        · rw [Phys.write_mem, store_same]
    · rw [findPage_circle clear self] at found
      cases found

theorem findPage_misses {p page idx passes : Nat} {phys phys' : Phys}
    (found : findPage p phys passes = some (page, idx, phys')) :
    phys'.misses = phys.misses ∨ page = physicalMapOffset := by
  induction passes generalizing p phys with
  | zero => cases found
  | succ n ih =>
    simp only [findPage, Option.bind_eq_some_iff] at found
    obtain ⟨f, _, found⟩ := found
    split at found
    · simp only [Option.some.injEq, Prod.mk.injEq] at found
      exact .inl (by rw [found.2.2])
    · split at found
      · exact ih found
      · obtain ⟨⟨q, phys₁⟩, init, found⟩ := Option.bind_eq_some_iff.mp found
        rcases initAvlPage_misses init with same | ⟨rfl, empty, ends⟩
        · rw [← same]
          exact ih found
        · exact .inr (findPage_zero empty ends found)

theorem findPage_slot {p page idx passes : Nat} {phys phys' : Phys}
    (found : findPage p phys passes = some (page, idx, phys')) :
    getNodePage (nodeSlot page idx) = page := by
  induction passes generalizing p phys with
  | zero => cases found
  | succ n ih =>
    simp only [findPage, Option.bind_eq_some_iff] at found
    obtain ⟨f, frame, found⟩ := found
    split at found
    · rename_i j clear
      simp only [Option.some.injEq, Prod.mk.injEq] at found
      obtain ⟨rfl, rfl, _⟩ := found
      have less : j < 84 := (find0Bit_some clear).1
      have aligned : p % 4096 = 0 := by
        unfold ptrFrame at frame
        split at frame
        · rename_i ok
          exact ok.2.2
        · cases frame
      unfold getNodePage nodeSlot
      omega
    · split at found
      · exact ih found
      · obtain ⟨⟨q, phys₁⟩, _, found⟩ := Option.bind_eq_some_iff.mp found
        exact ih found

theorem createNode_misses {wild : Int → Word} {st : Nat × Phys} {n : Nat} {st' : Nat × Phys}
    (made : createNode wild st = some (n, st')) :
    st'.2.misses = st.2.misses ∨ getNodePage n = physicalMapOffset := by
  simp only [createNode, Option.bind_eq_some_iff, Option.map_eq_some_iff] at made
  obtain ⟨⟨start, phys₀⟩, head, ⟨page, idx, phys₁⟩, found, phys₂, set, eq⟩ := made
  obtain ⟨rfl, rfl⟩ := Prod.mk.inj eq
  have kept : phys₂.misses = phys₁.misses := by
    obtain ⟨f, _, rfl⟩ := Option.map_eq_some_iff.mp set
    rfl
  rw [findPage_slot found, kept]
  split at head
  · rcases initAvlPage_misses head with same | ⟨rfl, empty, ends⟩
    · rw [← same]
      exact findPage_misses found
    · exact .inr (findPage_zero empty ends found)
  · cases head
    exact findPage_misses found

end NodePage

def PageZero (e : Word) : Prop := present e = true ∧ hwFrame e = 0

/- What set_page stores on the path that was not there: an entry for each table it draws,
and the entry of the page. -/
def pathInstalls (s : Phys) (f : Nat) (fl c : Word) : List (Fin 512) → List Word
  | [] => []
  | [_] => [c]
  | i :: j :: p =>
    let (s', f') := nextTable s f i fl
    let rest := pathInstalls s' f' fl c (j :: p)
    if present (s.mem f i) then rest else s'.mem f i :: rest

def freshInstalls (pml4t addr : Nat) (flags : PageFlags) (phys : Phys) : List Nat → List Word
  | [] => []
  | i :: is =>
    let (page, phys') := pmmAllocPage phys
    pathInstalls phys' (pml4t / 4096) (tableFlags flags) (leafEntry page flags)
        (path ((addr + i * 0x1000) % 2 ^ 64)) ++
      freshInstalls pml4t addr flags (mapFreshPage pml4t addr flags phys i) is

section Installs

variable {s : Phys} {f : Nat} {fl : Word}

theorem nextTable_misses (flag : FlagWord fl) (i : Fin 512) :
    (nextTable s f i fl).1.misses = s.misses ∨
      (present (s.mem f i) = false ∧ PageZero ((nextTable s f i fl).1.mem f i)) := by
  by_cases there : present (s.mem f i)
  · exact .inl (by simp [nextTable, there])
  · rcases pmmAllocPage_misses s with same | ⟨_, draw⟩
    · exact .inl (by simpa [nextTable, there] using same)
    · refine .inr ⟨by simpa using there, ?_⟩
      have entry : (nextTable s f i fl).1.mem f i = pagePresent ||| fl := by
        simp [nextTable, there, draw]
      rw [entry]
      refine ⟨?_, ?_⟩
      · simp [present, pagePresent]
      · rw [hwFrame_or flag.frame]
        decide

theorem writePath_misses (flag : FlagWord fl) (c : Word) (p : List (Fin 512)) :
    (writePath s f fl c p).misses = s.misses ∨ ∃ e ∈ pathInstalls s f fl c p, PageZero e := by
  induction p generalizing s f with
  | nil => exact .inl rfl
  | cons i p ih =>
    cases p with
    | nil => exact .inl rfl
    | cons j p =>
      simp only [writePath, pathInstalls]
      rcases nextTable_misses (s := s) (f := f) flag i with same | ⟨absent, zero⟩
      · rw [← same]
        refine ih.imp id ?_
        rintro ⟨e, inside, zero⟩
        refine ⟨e, ?_, zero⟩
        split
        · exact inside
        · exact List.mem_cons_of_mem _ inside
      · refine .inr ⟨_, ?_, zero⟩
        rw [if_neg (by simp [absent])]
        exact List.mem_cons_self

theorem leaf_installed (s : Phys) (f : Nat) (fl c : Word) {p : List (Fin 512)} (ne : p ≠ []) :
    c ∈ pathInstalls s f fl c p := by
  induction p generalizing s f with
  | nil => exact absurd rfl ne
  | cons i p ih =>
    cases p with
    | nil => exact List.mem_singleton_self c
    | cons j p =>
      have inside := ih (nextTable s f i fl).1 (nextTable s f i fl).2 (List.cons_ne_nil _ _)
      simp only [pathInstalls]
      split
      · exact inside
      · exact List.mem_cons_of_mem _ inside

theorem mapFreshPage_misses (pml4t addr : Nat) {flags : PageFlags} (here : flags.present = true)
    (phys : Phys) (i : Nat) (is : List Nat) :
    (mapFreshPage pml4t addr flags phys i).misses = phys.misses ∨
      ∃ e ∈ freshInstalls pml4t addr flags phys (i :: is), PageZero e := by
  have flag := tableFlags_flagWord flags
  rw [mapFreshPage_path]
  simp only [freshInstalls, List.mem_append]
  rcases pmmAllocPage_misses phys with same | ⟨_, draw⟩
  · rw [← same]
    refine (writePath_misses flag _ _).imp id ?_
    rintro ⟨e, inside, zero⟩
    exact ⟨e, .inl inside, zero⟩
  · -- the page itself is page 0
    rw [draw]
    refine .inr ⟨leafEntry 0 flags, .inl (leaf_installed _ _ _ _ (List.cons_ne_nil _ _)), ?_⟩
    exact ⟨(leafEntry_bits 0 flags).1.trans here, leafEntry_frame 0 flags⟩

theorem mapFresh_misses (pml4t addr : Nat) {flags : PageFlags} (here : flags.present = true)
    (is : List Nat) (phys : Phys) :
    (is.foldl (mapFreshPage pml4t addr flags) phys).misses = phys.misses ∨
      ∃ e ∈ freshInstalls pml4t addr flags phys is, PageZero e := by
  induction is generalizing phys with
  | nil => exact .inl rfl
  | cons i is ih =>
    rw [List.foldl_cons]
    rcases mapFreshPage_misses pml4t addr here phys i is with same | zero
    · rw [← same]
      refine (ih _).imp id ?_
      rintro ⟨e, inside, zero⟩
      exact ⟨e, List.mem_append_right _ inside, zero⟩
    · exact .inr zero

end Installs

section Request

variable (wild : Int → Word) (m : MemoryManager) (st : Nat × Phys) (pageCount : Nat)
  (write exec kernel : Bool)

def requestEntries : List Word :=
  match allocVirt (nodeSource wild) { m with lock := true } pageCount st with
  | none => []
  | some r =>
    freshInstalls m.pml4t r.1 (mallocFlags write exec kernel) r.2.2.2 (List.range pageCount)

def ZeroNode (t t' : AvlTree) : Prop :=
  ∃ p, getNodePage p = physicalMapOffset ∧ (nodePtrs t).count p < (nodePtrs t').count p

/- What a request owes that meets the empty stack: NULL, page 0 neither mapped nor used for
a table or for nodes, and no 0 pushed when the address is freed. -/
structure ExhaustionReported (addr : Nat) (m' : MemoryManager) (st' : Nat × Phys) : Prop where
  null : addr = 0
  entries : ∀ e ∈ requestEntries wild m st pageCount write exec kernel, ¬ PageZero e
  nodes : ¬ ZeroNode m.tree m'.tree
  later : ∀ parentNull a m'' st'',
    freePages (nodeSource wild) parentNull m' st' a = some (m'', st'') →
      st''.2.freePages.count 0 ≤ st'.2.freePages.count 0

variable {wild m st pageCount write exec kernel}

theorem allocVirt_misses {addr : Nat} {m' : MemoryManager} {st' : Nat × Phys}
    (h : allocVirt (nodeSource wild) m pageCount st = some (addr, m', st')) :
    st'.2.misses = st.2.misses ∨ ZeroNode m.tree m'.tree := by
  unfold allocVirt at h
  split at h
  · cases h
  split at h
  · cases h
    exact .inl rfl
  · rename_i n _
    obtain ⟨⟨t, st₁⟩, rest, eq⟩ := Option.map_eq_some_iff.mp h
    cases eq
    simp only [insertRest] at rest
    split at rest
    · rcases insertNode_ptrs rest with rfl | ⟨p, made, perm⟩
      · exact .inl rfl
      · refine (createNode_misses made).imp id fun zero => ⟨p, zero, ?_⟩
        have ptrs :
            nodePtrs (writeNode n.ptr (fun v => { v with pageCount, allocated := true }) t) =
            nodePtrs t := nodePtrs_write _ _ _ fun _ => rfl
        simp only [ptrs, perm.count_eq, List.count_cons_self]
        exact Nat.lt_succ_self _
    · cases rest
      exact .inl rfl

/-- The page that an empty stack yields is used as any other: as a page, as a table or for
nodes. So a request that met the empty stack is never reported. -/
theorem exhausted_request_never_reported {addr : Nat} {m' : MemoryManager} {st' : Nat × Phys}
    (returned : mallocPages (nodeSource wild) m st pageCount write exec kernel =
      some (addr, m', st'))
    (out : st'.2.misses ≠ st.2.misses) :
    ¬ ExhaustionReported wild m st pageCount write exec kernel addr m' st' := by
  intro reported
  unfold mallocPages at returned
  split at returned
  · cases returned
    exact out rfl
  split at returned
  · cases returned
  obtain ⟨⟨start, m₁, st₁⟩, alloc, eq⟩ := Option.map_eq_some_iff.mp returned
  cases eq
  rcases allocVirt_misses alloc with same | zero
  · have here : (mallocFlags write exec kernel).present = true := rfl
    rcases mapFresh_misses m.pml4t start here (List.range pageCount) st₁.2 with kept | zero
    · exact out (kept.trans same)
    · obtain ⟨e, inside, zero⟩ := zero
      refine reported.entries e ?_ zero
      rw [requestEntries, alloc]
      exact inside
  · exact reported.nodes zero

end Request

/- A manager of one free page, and a machine that has no page left. -/
def lastMgr : MemoryManager := ⟨.node ⟨0, kernStart, 1, false⟩ 0 .nil .nil, 0x1000, false⟩
def emptyPhys : Phys := ⟨fun _ _ => 0, [], 0⟩

theorem exhausted_request_unreported_page :
    ∃ m' st', mallocPages (nodeSource fun _ => 0) lastMgr (0, emptyPhys) 1 true false true =
        some (kernStart, m', st') ∧ st'.2.misses = 4 ∧
      ¬ ExhaustionReported (fun _ => 0) lastMgr (0, emptyPhys) 1 true false true kernStart
        m' st' := by
  refine ⟨_, _, rfl, by decide, exhausted_request_never_reported rfl (by decide)⟩

/-- The request succeeds, its page is page 0, and so are the three tables on the way to it;
when it is given back, 0 goes on the stack. -/
theorem exhausted_request_maps_zero :
    ∃ m' st', mallocPages (nodeSource fun _ => 0) lastMgr (0, emptyPhys) 1 true false true =
        some (kernStart, m', st') ∧ kernStart ≠ 0 ∧ st'.2.misses = 4 ∧
      walk st'.2.mem 1 kernStart = some 0 ∧
      ∃ m'' st'', freePages (nodeSource fun _ => 0) (true, true) m' st' kernStart =
        some (m'', st'') ∧ st''.2.freePages = [0] := by
  refine ⟨_, _, rfl, by decide, by decide, by decide, _, _, rfl, by decide⟩

end Gapxos
