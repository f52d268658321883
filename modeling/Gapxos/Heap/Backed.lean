import Gapxos.Heap.Apart
import Gapxos.Vmm.Isolation

/-! The heap on top of kern_vmm. The pages on the list from heap_root and the blocks in use of
the manager are two records of the same pages; free_pages changes one of them alone. -/
namespace Gapxos
open Bytes Linked Extents Radix Runs SearchTree Tiling

section Own

variable {σ : Type}

/-- The pages of the blocks in use. -/
def Vm.pages (vm : Vm σ) : List Nat :=
  (blocks vm.mgr.tree.toList).flatMap fun b => (List.range b.2).map fun i => b.1 + 4096 * i

def tablesTo (m : Mem) (cr3 v : Nat) : List Nat :=
  (List.range 4).filterMap fun k => tableAt child m cr3 ((path v).take k)

/- The page is mapped to a frame of its own: one that was drawn for it and is not free, that no
other page in use was given, and that is no table on the way to one. What is stored there is read
there, and nowhere else. -/
def Vm.own (vm : Vm σ) (v : Nat) : Bool :=
  match walk vm.phys.mem (vm.mgr.pml4t / 4096) v with
  | none => false
  | some f => ownerAt vm.phys.mem (vm.mgr.pml4t / 4096) v = some (4096 * f) ∧
    4096 * f ∉ vm.phys.freePages ∧ ∀ w ∈ vm.pages,
      (ownerAt vm.phys.mem (vm.mgr.pml4t / 4096) w = some (4096 * f) → w = v) ∧
        f ∉ tablesTo vm.phys.mem (vm.mgr.pml4t / 4096) w

def Vm.backed (vm : Vm σ) (b : Nat × Nat) : Bool :=
  (List.range b.2).all fun i => vm.own (b.1 + 4096 * i)

theorem Vm.own_iff {vm : Vm σ} {v : Nat} : vm.own v = true ↔
    ∃ f, walk vm.phys.mem (vm.mgr.pml4t / 4096) v = some f ∧
      ownerAt vm.phys.mem (vm.mgr.pml4t / 4096) v = some (4096 * f) ∧
      4096 * f ∉ vm.phys.freePages ∧ ∀ w ∈ vm.pages,
        (ownerAt vm.phys.mem (vm.mgr.pml4t / 4096) w = some (4096 * f) → w = v) ∧
          f ∉ tablesTo vm.phys.mem (vm.mgr.pml4t / 4096) w := by
  unfold own
  cases walk vm.phys.mem (vm.mgr.pml4t / 4096) v <;> simp

theorem Vm.backed_iff {vm : Vm σ} {b : Nat × Nat} :
    vm.backed b = true ↔ ∀ i < b.2, vm.own (b.1 + 4096 * i) = true := by
  simp [backed]

theorem mem_pages {vm : Vm σ} {w : Nat} :
    w ∈ vm.pages ↔ ∃ b ∈ blocks vm.mgr.tree.toList, ∃ i < b.2, w = b.1 + 4096 * i := by
  simp only [Vm.pages, List.mem_flatMap, List.mem_map, List.mem_range, eq_comm]

theorem mem_tablesTo {m : Mem} {cr3 v f : Nat} :
    f ∈ tablesTo m cr3 v ↔ ∃ k < 4, tableAt child m cr3 ((path v).take k) = some f := by
  simp [tablesTo]

theorem Vm.own_store {vm : Vm σ} {v f : Nat} (own : vm.own v = true)
    (frame : walk vm.phys.mem (vm.mgr.pml4t / 4096) v = some f) (i : Fin 512) (e : Word) {w : Nat}
    (used : w ∈ vm.pages) :
    walk (store vm.phys.mem f i e) (vm.mgr.pml4t / 4096) w =
        walk vm.phys.mem (vm.mgr.pml4t / 4096) w ∧
      (vm.own w = true → walk vm.phys.mem (vm.mgr.pml4t / 4096) w = some f → w = v) := by
  obtain ⟨g, same, -, -, apart⟩ := Vm.own_iff.mp own
  obtain rfl : f = g := Option.some.inj (frame.symm.trans same)
  refine ⟨?_, fun other same' => ?_⟩
  · have entries : trace child (store vm.phys.mem f i e) (vm.mgr.pml4t / 4096) (path w) =
        trace child vm.phys.mem (vm.mgr.pml4t / 4096) (path w) := by
      apply trace_along
      intro q j r g split reach
      apply congrFun
      apply store_other_frame
      rintro rfl
      refine (apart w used).2 (mem_tablesTo.mpr ⟨q.length, ?_, ?_⟩)
      · have count := congrArg List.length split
        rw [path_length, List.length_append, List.length_cons] at count
        omega
      · rw [split, List.take_left]
        exact reach
    rw [walk, walk, entries]
  · obtain ⟨g, there, owner, -⟩ := Vm.own_iff.mp other
    obtain rfl : f = g := Option.some.inj (same'.symm.trans there)
    exact (apart w used).1 owner

end Own

structure KernHeap (σ : Type) where
  mem : Memory
  live : List (Nat × Nat)
  vm : Vm σ

section Calls

variable {σ : Type} (root : Nat)

/-- The bytes of the blocks in use with frames of their own, start and number. -/
def heldBy (vm : Vm σ) : List (Nat × Nat) :=
  ((blocks vm.mgr.tree.toList).filter vm.backed).map fun b => (b.1, 4096 * b.2)

/-- The heap sees heap_root and those blocks. -/
def KernHeap.heap (s : KernHeap σ) : Heap := ⟨s.mem, (root, 8) :: heldBy s.vm⟩

inductive KernCall
  | malloc (size : Nat)
  | free (p : Nat) (parentNull : Bool × Bool)
  | store (a : Nat) (byte : BitVec 8)

variable (src : NodeSource σ)

/- malloc_pages may leave the new pages, or others, without frames of their own: there is no
answer then. A page that is given back and given out again keeps its bytes here. -/
def KernCall.step (s : KernHeap σ) : KernCall → Option (KernHeap σ)
  | malloc size => do
    match ← (s.heap root).search size root walkBound with
    | .inr _ =>
      let (p, h) ← Gapxos.malloc root size 0 (s.heap root)
      some ⟨h.mem, (p, size) :: s.live, s.vm⟩
    | .inl _ =>
      let r ← mallocPages src s.vm.mgr (s.vm.nodes, s.vm.phys) (pagesFor size) true false true
      let vm := s.vm.give (pagesFor size) r
      if ∀ x ∈ (r.1, 4096 * pagesFor size) :: heldBy s.vm, x ∈ heldBy vm then
        let (p, h) ← Gapxos.malloc root size r.1 (s.heap root)
        some ⟨h.mem, (p, size) :: s.live, vm⟩
      else none
  | free p parentNull => do
    let (pg, allocated, h) ← freeBlock p (s.heap root)
    let vm ← if allocated = 0 then (MgrCall.free pg parentNull).step src s.vm else some s.vm
    some ⟨h.mem, s.live.filter fun l => l.1 ≠ p, vm⟩
  | store a byte => some { s with mem := write s.mem a 1 byte.toNat }

/-- The page that is reached from heap_root by `n` steps. -/
def pageAt (F : Fields) : Nat → Nat
  | 0 => F root 0
  | n + 1 => F (pageAt F n) 0

/-- Every page on the list begins a block that is in use, each page of which has a frame of its
own. -/
def HeapBacked (s : KernHeap σ) : Prop :=
  ∀ n, (∀ k ≤ n, pageAt root (s.heap root).fields k ≠ 0) →
    ∃ pages, (pageAt root (s.heap root).fields n, pages) ∈ blocks s.vm.mgr.tree.toList ∧
      ∀ i < pages, s.vm.own (pageAt root (s.heap root).fields n + 4096 * i) = true

/-- malloc_pages finds the space, a node for the rest of the block, and frames. -/
structure PagesReady (vm : Vm σ) (pageCount : Nat) : Prop where
  room : Room pageCount vm.mgr.tree
  small : top vm.mgr.tree ≤ 250
  creates : Creates src (fun _ _ => True) (vm.nodes, vm.phys) vm.mgr.tree
  frames : (MgrCall.malloc pageCount true false true).Backed src vm

/-- The callers keep to what they hold, new pages hold the block and there are pages for it, and
the loop of free does no harm. -/
def KernCall.Ready (s : KernHeap σ) : KernCall → Prop
  | malloc size => ∀ views, Listed (s.heap root).fields root views →
    NoFit (s.heap root).fields views size →
      size + 2 * headerSize ≤ 4096 * pagesFor size ∧ PagesReady src s.vm (pagesFor size)
  | free p _ => (∃ size, (p, size) ∈ s.live) ∧
    ∀ views, Listed (s.heap root).fields root views → ∀ v ∈ views, ∀ b ∈ v.allocated,
      p = b + headerSize → ReleaseClear (s.heap root).fields v b
  | store a _ => ∃ l ∈ s.live, l.1 ≤ a ∧ a < l.1 + l.2

end Calls

section Held

variable {root : Nat} {h h' : Heap} {F : Fields} {ext : Nat → Nat} {live : List (Nat × Nat)}
  {views : List PageView}

theorem HeapInv.mapped_congr (inv : HeapInv root h F ext live views) (mem : h'.mem = h.mem)
    (same : ∀ r, r ∈ h'.held ↔ r ∈ h.held) : HeapInv root h' F ext live views := by
  refine ⟨⟨inv.rep.apart, inv.rep.word, fun x inside => ?_, fun r inside => ?_,
    fun x inside k room => ?_⟩, inv.chain, inv.pages, fun v inside => ?_, inv.placed, inv.once⟩
  · obtain ⟨r, held, place⟩ := inv.rep.within x inside
    exact ⟨r, (same r).mpr held, place⟩
  · exact inv.rep.ends r ((same r).mp inside)
  · rw [← inv.rep.cells x inside k room, Heap.fields, Heap.fields, mem]
  · obtain ⟨bytes, held, place⟩ := inv.homes v inside
    exact ⟨bytes, (same _).mpr held, place⟩

theorem pageAt_listed {bases : List Nat} (chain : Hung 0 0 F root 0 bases 0) (n : Nat)
    (some_ : ∀ k ≤ n, pageAt root F k ≠ 0) : ∃ A B, bases = A ++ pageAt root F n :: B ∧
      Seg 0 (fun y => F y 0) (F (pageAt root F n) 0) B 0 := by
  induction n with
  | zero =>
    cases bases with
    | nil => exact absurd chain (some_ 0 (Nat.le_refl 0))
    | cons x rest =>
      obtain ⟨here, _, next⟩ := chain
      refine ⟨[], rest, ?_, ?_⟩
      · rw [pageAt, here]
        rfl
      · rw [pageAt, here]
        exact next
  | succ n ih =>
    obtain ⟨A, B, split, next⟩ := ih fun k le => some_ k (Nat.le_succ_of_le le)
    cases B with
    | nil => exact absurd next (some_ (n + 1) (Nat.le_refl _))
    | cons x rest =>
      obtain ⟨here, _, more⟩ := next
      refine ⟨A ++ [pageAt root F n], rest, ?_, ?_⟩
      · rw [split, pageAt, here]
        simp
      · rw [pageAt, here]
        exact more

variable {σ : Type} {s : KernHeap σ}

theorem HeapInv.backed (inv : HeapInv root (s.heap root) F ext s.live views) :
    HeapBacked root s := by
  have inv := inv.fields
  intro n some_
  obtain ⟨A, B, split, _⟩ := pageAt_listed inv.chain n some_
  have listed : pageAt root (s.heap root).fields n ∈ views.map PageView.base := by
    rw [split]
    simp
  obtain ⟨v, inside, base⟩ := List.mem_map.mp listed
  obtain ⟨bytes, held, _⟩ := inv.homes v inside
  -- the word heap_root is no page
  have other : v.base ≠ root := by
    intro same
    refine (List.nodup_cons.mp (bases_nodup inv.rep.nodup)).1 ?_
    rw [← same]
    exact List.mem_map_of_mem inside
  rcases List.mem_cons.mp held with no | used
  · exact absurd (congrArg Prod.fst no) other
  · obtain ⟨⟨a, pages⟩, there, eq⟩ := List.mem_map.mp used
    obtain ⟨there, backed⟩ := List.mem_filter.mp there
    obtain rfl : a = v.base := (Prod.mk.inj eq).1
    rw [← base]
    exact ⟨pages, there, Vm.backed_iff.mp backed⟩

end Held

/-- heap_root is no part of the addresses that kern_vmm gives out, and NULL is none of them. -/
structure RootApart (root start n : Nat) : Prop where
  word : root + 8 ≤ 2 ^ 64
  off : root + 8 ≤ start ∨ start + 4096 * n ≤ root
  nonnull : 0 < start
  fits : start + 4096 * n ≤ 2 ^ 64

section Step

variable {σ : Type} {src : NodeSource σ} {root start n : Nat} {role₀ : Nat → Role}

theorem mem_heldBy {vm : Vm σ} {x : Nat × Nat} : x ∈ heldBy vm ↔
    ∃ b ∈ blocks vm.mgr.tree.toList, vm.backed b = true ∧ x = (b.1, 4096 * b.2) := by
  simp only [heldBy, List.mem_map, List.mem_filter, and_assoc, eq_comm]

theorem Accounts.backed {role : Nat → Role} {x : LedgerVm σ} (acc : Accounts role₀ role x)
    (tiled : Tiled start n x.vm) (narrow : n ≤ 2 ^ 36) {b : Nat × Nat} (mine : b ∈ x.mine) :
    x.vm.backed b = true := by
  refine Vm.backed_iff.mpr fun i less => Vm.own_iff.mpr ?_
  obtain ⟨f, owned⟩ := acc.given b mine _ ⟨i, less, rfl⟩
  have owner := (acc.mat.owner _ f).mpr owned
  refine ⟨f, acc.mat.walks _ _ owner, owner, ?_, fun w used => ⟨fun owner' => ?_, fun table => ?_⟩⟩
  · rw [acc.mat.free f, owned]
    simp
  · obtain ⟨c, there, j, less', rfl⟩ := mem_pages.mp used
    have same := (acc.mat.owner _ f).mp owner'
    rw [owned] at same
    obtain ⟨rfl, rfl⟩ := tiled.page_once narrow (acc.sub b mine) (tiled.held.mem_iff.mpr there) less
      less' (Role.page.inj same).symm
    rfl
  · obtain ⟨k, short, reach⟩ := mem_tablesTo.mp table
    have isTable : IsTable x.vm.phys.mem (x.vm.mgr.pml4t / 4096) f :=
      ⟨(path w).take k, by rw [List.length_take]; omega, reach⟩
    rw [acc.mat.table f, owned] at isTable
    cases isTable

theorem Accounts.heldBy {role : Nat → Role} {x : LedgerVm σ} (acc : Accounts role₀ role x)
    (tiled : Tiled start n x.vm) (narrow : n ≤ 2 ^ 36)
    (clean : ∀ f v, start ≤ v → v < start + 4096 * n → role₀ f ≠ .page (pageOf v))
    (r : Nat × Nat) : r ∈ heldBy x.vm ↔ ∃ b ∈ x.mine, r = (b.1, 4096 * b.2) := by
  rw [mem_heldBy]
  constructor
  · rintro ⟨b, used, backed, rfl⟩
    refine ⟨b, ?_, rfl⟩
    have held := tiled.held.mem_iff.mpr used
    obtain ⟨v, inside, -, addr, count⟩ := mem_blocks.mp used
    obtain ⟨low, pos, high⟩ := tiles_mem tiled.tiles inside
    rw [AvlNode.len, count] at pos high
    obtain ⟨f, -, owner, -⟩ := Vm.own_iff.mp (Vm.backed_iff.mp backed 0 (by omega))
    -- the first page tells the block
    rcases acc.only f _ ((acc.mat.owner _ f).mp owner) with ⟨c, mine, j, less, same⟩ | old
    · obtain ⟨rfl, -⟩ := tiled.page_once narrow held (acc.sub c mine) (by omega) less same.symm
      exact mine
    · exact absurd old (clean f _ (by omega) (by omega))
  · rintro ⟨b, mine, rfl⟩
    exact ⟨b, tiled.held.mem_iff.mp (acc.sub b mine), acc.backed tiled narrow mine, rfl⟩

theorem give_blocks {own : σ → Nat → Prop} {vm : Vm σ} {pages : Nat}
    {r : Nat × MemoryManager × σ × Phys} (sound : Sound own start n vm) (pos : 0 < pages)
    (sound' : Sound own start n (vm.give pages r)) :
    (blocks r.2.1.tree.toList).Perm ((r.1, pages) :: blocks vm.mgr.tree.toList) := by
  have held : (vm.give pages r).held = (r.1, pages) :: vm.held := if_neg (Nat.ne_of_gt pos)
  have after : (vm.give pages r).held.Perm (blocks r.2.1.tree.toList) := sound'.held
  rw [held] at after
  exact after.symm.trans (sound.held.cons _)

theorem give_fresh {own : σ → Nat → Prop} (apart : RootApart root start n) {s : KernHeap σ}
    {pages : Nat} {r : Nat × MemoryManager × σ × Phys} (sound : Sound own start n s.vm)
    (pos : 0 < pages) (sound' : Sound own start n (s.vm.give pages r)) :
    FreshPages (s.heap root) r.1 (4096 * pages) := by
  have used := give_blocks sound pos sound'
  have tiles : Tiles AvlNode.addr AvlNode.len start (start + 4096 * n) r.2.1.tree.toList :=
    sound'.tiles
  obtain ⟨v, inside, _, addr, count⟩ := mem_blocks.mp (used.mem_iff.mpr List.mem_cons_self)
  obtain ⟨low, _, high⟩ := tiles_mem tiles inside
  have len : v.len = 4096 * pages := by rw [AvlNode.len, count]
  rw [addr, len] at high
  rw [addr] at low
  have bounds := apart.off
  have nonnull := apart.nonnull
  have fits := apart.fits
  refine ⟨by omega, by omega, fun x held => ?_⟩
  rcases List.mem_cons.mp held with rfl | held
  · dsimp only
    omega
  · obtain ⟨⟨a, c⟩, there, -, rfl⟩ := mem_heldBy.mp held
    obtain ⟨w, inside', _, addr', count'⟩ :=
      mem_blocks.mp (used.mem_iff.mpr (List.mem_cons_of_mem _ there))
    -- the addresses of the blocks are distinct
    have once : ((blocks r.2.1.tree.toList).map Prod.fst).Nodup := by
      have sorted : (r.2.1.tree.toList.map AvlNode.addr).Nodup :=
        List.pairwise_map.mpr ((tiles_sorted tiles).imp Nat.ne_of_lt)
      have part : ((blocks r.2.1.tree.toList).map Prod.fst).Sublist
          (r.2.1.tree.toList.map AvlNode.addr) := by
        rw [blocks, List.map_map]
        exact List.filter_sublist.map _
      exact part.nodup sorted
    have new := (used.map Prod.fst).nodup_iff.mp once
    rw [List.map_cons, List.nodup_cons] at new
    have ne : w.addr ≠ v.addr := by
      rw [addr, addr']
      rintro rfl
      exact new.1 (List.mem_map.mpr ⟨_, there, rfl⟩)
    have len' : w.len = 4096 * c := by rw [AvlNode.len, count']
    have off := tiles_apart tiles inside' inside ne
    rw [addr, addr', len, len'] at off
    exact off

/-- What the heap counts on: kern_vmm has its range for itself, and in the ledger of memory before
its first call no page of the range has a frame. -/
structure HeapRange (root start n : Nat) (role₀ : Nat → Role) : Prop
    extends RootApart root start n where
  narrow : n ≤ 2 ^ 36
  clean : ∀ f v, start ≤ v → v < start + 4096 * n → role₀ f ≠ .page (pageOf v)

/-- kern_vmm in order: its blocks tile the range, and the frames behind those of malloc_pages are
their own. -/
def VmSound (start n : Nat) (role₀ : Nat → Role) (vm : Vm σ) : Prop :=
  Sound (fun _ _ => True) start n vm ∧ ∃ role mine taken, Accounts role₀ role ⟨vm, mine, taken⟩

theorem VmSound.malloc (range : HeapRange root start n role₀) {vm : Vm σ}
    (sound : VmSound start n role₀ vm) {pages : Nat} (pos : 0 < pages)
    (ready : PagesReady src vm pages) :
    ∃ r, mallocPages src vm.mgr (vm.nodes, vm.phys) pages true false true = some r ∧
      VmSound start n role₀ (vm.give pages r) ∧
      ∀ x, x ∈ heldBy (vm.give pages r) ↔ x ∈ (r.1, 4096 * pages) :: heldBy vm := by
  obtain ⟨sound, role, mine, taken, acc⟩ := sound
  obtain ⟨vm', step, sound'⟩ :
      ∃ vm', (MgrCall.malloc pages true false true).step src vm = some vm' ∧ Sound _ start n vm' :=
    malloc_sound range.fits ready.creates sound ready.small fun _ => ready.room
  obtain ⟨role', acc'⟩ := acc.malloc range.clean range.narrow range.fits ready.frames step
    sound'.toTiled
  obtain ⟨r, given, rfl⟩ := Option.map_eq_some_iff.mp step
  have some_ : pages ≠ 0 := Nat.ne_of_gt pos
  have blocks : (MgrCall.malloc pages true false true).mineAfter mine (vm.give pages r) =
      (r.1, pages) :: mine := by
    rw [MgrCall.mineAfter, if_neg some_, Vm.give, if_neg some_]
    rfl
  refine ⟨r, given, ⟨sound', role', _, _, acc'⟩, fun x => ?_⟩
  have before := acc.heldBy sound.toTiled range.narrow range.clean x
  have after := acc'.heldBy sound'.toTiled range.narrow range.clean x
  rw [after, List.mem_cons, before, blocks, List.exists_mem_cons_iff]

def KernSound (root start n : Nat) (role₀ : Nat → Role) (s : KernHeap σ) : Prop :=
  VmSound start n role₀ s.vm ∧ ∃ F ext views, HeapInv root (s.heap root) F ext s.live views

theorem KernCall.malloc_sound (range : HeapRange root start n role₀) {s : KernHeap σ}
    (sound : KernSound root start n role₀ s) {size : Nat}
    (ready : (malloc size).Ready root src s) :
    ∃ t, (malloc size).step root src s = some t ∧ KernSound root start n role₀ t := by
  obtain ⟨vm, F, ext, views, inv⟩ := sound
  have inv := inv.fields
  have listed := inv.listed
  rcases inv.search size with ⟨v, inside, b, free, large, search⟩ | ⟨none_, search⟩
  · have no : ¬NoFit (s.heap root).fields views size := fun none_ =>
      absurd (none_ v inside b free) (Nat.not_le_of_lt large)
    obtain ⟨p, h, F', ext', views', eq, inv'⟩ := malloc_step inv
      (fun none_ => absurd none_ no : _ → FreshPages (s.heap root) 0 _)
      fun none_ => absurd none_ no
    have held := malloc_held eq search
    refine ⟨⟨h.mem, (p, size) :: s.live, s.vm⟩, ?_, vm, F', ext', views', ?_⟩
    · simp only [step, search, eq, Option.bind_eq_bind, Option.bind_some]
    · exact inv'.mapped_congr rfl fun x => by rw [held]; rfl
  · obtain ⟨fits, pages⟩ := ready views listed none_
    obtain ⟨r, given, vm', reach⟩ := vm.malloc range (pagesFor_pos size) pages
    have new := give_fresh range.toRootApart vm.1 (pagesFor_pos size) vm'.1
    obtain ⟨p, h, F', ext', views', eq, inv'⟩ := malloc_step inv (fun _ => new) fun _ => fits
    have held := malloc_held eq search
    refine ⟨⟨h.mem, (p, size) :: s.live, s.vm.give (pagesFor size) r⟩, ?_, vm', F', ext', views',
      ?_⟩
    · simp only [step, search, given, eq, Option.bind_eq_bind, Option.bind_some]
      rw [if_pos fun x inside => (reach x).mpr inside]
    · refine inv'.mapped_congr rfl fun x => ?_
      rw [held]
      dsimp only
      rw [Heap.hold, if_neg new.nonnull]
      -- the same ranges, heap_root's word first in one of them
      show x ∈ (root, 8) :: heldBy (s.vm.give (pagesFor size) r) ↔
        x ∈ (r.1, 4096 * pagesFor size) :: (root, 8) :: heldBy s.vm
      rw [List.mem_cons, reach, List.mem_cons, List.mem_cons, List.mem_cons]
      exact or_left_comm

theorem KernCall.free_sound {s : KernHeap σ} (sound : KernSound root start n role₀ s) {p : Nat}
    {parentNull : Bool × Bool} (ready : (free p parentNull).Ready root src s) :
    ∃ t, (free p parentNull).step root src s = some t ∧ KernSound root start n role₀ t := by
  obtain ⟨vm, F, ext, views, inv⟩ := sound
  obtain ⟨⟨size, used⟩, clear⟩ := ready
  have inv := inv.fields
  obtain ⟨pg, allocated, h, F', ext', views', eq, some_, inv'⟩ :=
    freeBlock_step inv used (clear views inv.listed)
  have held := freeBlock_held eq
  -- the page keeps a block, and free_pages is not called
  refine ⟨⟨h.mem, s.live.filter fun l => l.1 ≠ p, s.vm⟩, ?_, vm, F', ext', views', ?_⟩
  · simp only [step, eq, if_neg some_, Option.bind_eq_bind, Option.bind_some]
  · exact inv'.mapped_congr rfl fun x => by rw [held]; rfl

theorem KernCall.step_sound (range : HeapRange root start n role₀) (s : KernHeap σ) (c : KernCall)
    (sound : KernSound root start n role₀ s) (ready : c.Ready root src s) :
    ∃ t, c.step root src s = some t ∧ KernSound root start n role₀ t := by
  cases c with
  | malloc size => exact malloc_sound range sound ready
  | free p parentNull => exact free_sound sound ready
  | store a byte =>
    obtain ⟨vm, F, ext, views, inv⟩ := sound
    obtain ⟨l, inside, low, high⟩ := ready
    exact ⟨_, rfl, vm, F, ext, views, inv.store inside low high byte.toNat⟩

theorem emptyKern_inv (apart : RootApart root start n) {mem : Memory} (null : read mem root 8 = 0)
    {vm : Vm σ} (tiled : Tiled start n vm) :
    HeapInv root ((⟨mem, [], vm⟩ : KernHeap σ).heap root)
      ((⟨mem, [], vm⟩ : KernHeap σ).heap root).fields (fun _ => 8) [] [] := by
  refine ⟨⟨List.pairwise_singleton _ _, by simp, ?_, fun r inside => ?_, fun _ _ _ _ => rfl⟩, null,
    by simp, by simp, by simp, List.nodup_nil⟩
  · intro x here
    obtain rfl := List.mem_singleton.mp here
    exact ⟨(x, 8), List.mem_cons_self, Nat.le_refl _, Nat.le_refl _⟩
  · rcases List.mem_cons.mp inside with rfl | inside
    · exact apart.word
    · obtain ⟨⟨a, c⟩, used, -, rfl⟩ := mem_heldBy.mp inside
      exact Nat.le_trans (tiled.inside (tiled.held.mem_iff.mpr used)).2 apart.fits

/-- In a run of calls that are all ready when they are made, every call returns, and the pages on
the list are in use after each, with frames of their own. -/
theorem heap_run_backed (range : HeapRange root start n role₀) (mem : Memory)
    (null : read mem root 8 = 0) (vm : Vm σ) (sound : VmSound start n role₀ vm)
    (calls : List KernCall)
    (ok : All (KernCall.step root src) (KernCall.Ready root src) ⟨mem, [], vm⟩ calls)
    (before : List KernCall) (part : before <+: calls) :
    ∃ s, run (KernCall.step root src) ⟨mem, [], vm⟩ before = some s ∧ HeapBacked root s := by
  obtain ⟨s, eq, _, F, ext, views, inv⟩ := run_keeps (KernCall.step_sound range) part
    ⟨sound, _, _, _, emptyKern_inv range.toRootApart null sound.1.toTiled⟩ ok
  exact ⟨s, eq, inv.backed⟩

end Step

/- A manager of four pages that has just been made. -/
def fourPages : Vm Nat :=
  ⟨⟨.node ⟨0, kernStart, 4, false⟩ 0 .nil .nil, 0x1000, false⟩, 1, blankPhys, []⟩

/-- The heap before its first call. -/
def noHeap : KernHeap Nat := ⟨fun _ => 0, [], fourPages⟩

theorem rootAt_apart : RootApart rootAt kernStart 4 :=
  ⟨by decide, by decide, by decide, by decide⟩

theorem fourPages_sound : VmSound kernStart 4 blankRole fourPages := by
  obtain ⟨m, st, made, sound⟩ : ∃ m st,
      createMgr counter kernStart 4 (0, blankPhys) = some (m, st) ∧
      ∀ pml4t, Sound _ kernStart 4 ⟨{ m with pml4t }, st.1, st.2, []⟩ :=
    createMgr_sound counter_fresh (by decide) (0, blankPhys)
  obtain ⟨rfl, rfl⟩ := Prod.mk.inj (Option.some.inj made)
  have sound : Sound _ kernStart 4 fourPages := sound 0x1000
  have nodes := sound.nodes
  refine ⟨⟨sound.toTiled, ⟨nodes.ptrs, fun _ _ => trivial, nodes.tall⟩, rfl⟩, blankRole, [], [], ?_⟩
  exact ⟨blank_matches, fun _ => .rfl, by simp, by simp, fun _ _ => .inr, fun _ _ => id, by simp,
    by simp [fourPages]⟩

theorem kern_range : HeapRange rootAt kernStart 4 blankRole :=
  ⟨rootAt_apart, by decide, fun f _ _ _ => blankRole_page f _⟩

theorem fourPages_ready : PagesReady counter fourPages 2 := by
  refine ⟨⟨⟨0, kernStart, 4, false⟩, by decide, by decide, by decide⟩, by decide,
    ⟨1, (2, blankPhys), rfl, by decide, trivial, fun _ _ => trivial⟩, fun _ => ⟨?_, ?_⟩⟩
  · rintro k st ⟨⟩
    exact .refl _ _
  · rintro r ⟨⟩
    refine ⟨⟨by decide, .inr ⟨?_, [], (List.range 15).map (2 + ·), by decide, by decide,
      fun _ _ _ => rfl⟩⟩, fun s eq => ⟨?_, fun _ _ => trivial⟩⟩
    · show SmallWalk [0]
      exact fun e inside there => absurd there (by rw [List.mem_singleton.mp inside]; decide)
    · obtain rfl := Option.some.inj eq
      exact ⟨by decide, .inl ⟨14, by decide⟩⟩

theorem heap_run_backed_below : ∃ s, run (KernCall.step rootAt counter) noHeap
    [.malloc 10, .malloc 3000, .free (pagesAt + 1062) (true, true)] = some s ∧
      HeapBacked rootAt s := by
  refine heap_run_backed kern_range (fun _ => 0) (by decide) fourPages fourPages_sound _ ?_ _
    (List.prefix_refl _)
  refine ⟨fun _ _ _ => ⟨by decide, fourPages_ready⟩,
    fun s eq => ⟨fun views listed none_ => ?_, fun t eq' => ⟨?_, fun _ _ => trivial⟩⟩⟩
  all_goals have eq : KernCall.step rootAt counter noHeap (.malloc 10) = some s := eq
  · -- the first page has a block that is long enough
    have state : (KernCall.step rootAt counter noHeap (.malloc 10)).map
        (fun s => blockWords (s.heap rootAt).fields) =
        some [pagesAt, 0, pagesAt + 24, pagesAt + 4062, 0, 4014, 0, 0] := by decide
    rw [eq, Option.map_some, Option.some.injEq] at state
    simp only [blockWords, List.cons.injEq, and_true] at state
    obtain ⟨root, next, free, -, last, length, -, -⟩ := state
    obtain ⟨bases, page⟩ := onePage_free listed root next free last
    obtain ⟨v, inside, -⟩ := List.mem_map.mp (bases ▸ List.mem_singleton_self pagesAt :
      pagesAt ∈ views.map PageView.base)
    have short := none_ v inside (pagesAt + 24) (by rw [(page v inside).2]; simp)
    rw [length] at short
    exact absurd short (by decide)
  · have state : ((KernCall.step rootAt counter noHeap (.malloc 10)).bind fun s =>
        KernCall.step rootAt counter s (.malloc 3000)).map
        (fun s => (s.live, blockWords (s.heap rootAt).fields)) =
        some ([(pagesAt + 1062, 3000), (pagesAt + 4086, 10)],
          [pagesAt, 0, pagesAt + 24, pagesAt + 4062, 0, 990, pagesAt + 1038, 0]) := by decide
    rw [eq, Option.bind_some, eq', Option.map_some, Option.some.injEq, Prod.mk.injEq]
      at state
    obtain ⟨live, words⟩ := state
    refine ⟨⟨3000, ?_⟩, fun views listed v inside b _ ptr =>
      secondBlock_clear words listed inside ptr⟩
    rw [live]
    exact List.mem_cons_self

/-- The only block of a page is given back. The page goes to free_pages and stays on the list,
and the next malloc reads a header that is no longer mapped. -/
theorem heap_page_released : ∃ s t,
    KernCall.step rootAt counter noHeap (.malloc 10) = some s ∧ s.live = [(pagesAt + 4086, 10)] ∧
    KernCall.step rootAt counter s (.free (pagesAt + 4086) (true, true)) = some t ∧
    pageAt rootAt (t.heap rootAt).fields 0 = pagesAt ∧ blocks t.vm.mgr.tree.toList = [] ∧
    ¬ HeapBacked rootAt t ∧ ∀ size, KernCall.step rootAt counter t (.malloc size) = none := by
  have state : ((KernCall.step rootAt counter noHeap (.malloc 10)).bind fun s =>
      (KernCall.step rootAt counter s (.free (pagesAt + 4086) (true, true))).map fun t =>
        (s.live, pageAt rootAt (t.heap rootAt).fields 0, blocks t.vm.mgr.tree.toList)) =
      some ([(pagesAt + 4086, 10)], pagesAt, []) := by decide
  obtain ⟨s, first, state⟩ := Option.bind_eq_some_iff.mp state
  obtain ⟨t, second, state⟩ := Option.map_eq_some_iff.mp state
  simp only [Prod.mk.injEq] at state
  obtain ⟨live, page, used⟩ := state
  refine ⟨s, t, first, live, second, page, used, fun backed => ?_, fun size => ?_⟩
  · obtain ⟨pages, inside⟩ := backed 0 fun k le => by
      rw [Nat.le_zero.mp le, page]
      decide
    rw [used] at inside
    exact absurd inside.1 List.not_mem_nil
  · have held : (t.heap rootAt).held = [(rootAt, 8)] := by
      show (rootAt, 8) :: heldBy t.vm = _
      rw [heldBy, used, List.filter_nil, List.map_nil]
    have root : (t.heap rootAt).load rootAt = some pagesAt := by
      rw [Heap.load, Heap.mapped, held, ← page]
      exact if_pos (by decide)
    have header : (t.heap rootAt).load (pagesAt + 8) = none := by
      rw [Heap.load, Heap.mapped, held]
      exact if_neg (by decide)
    have search : (t.heap rootAt).search size rootAt walkBound = none := by
      show (t.heap rootAt).search size rootAt (2 ^ 64 + 1) = none
      rw [Heap.search]
      simp only [root, Option.bind_eq_bind, Option.bind_some, header, Option.bind_none,
        if_neg (show ¬ pagesAt = 0 by decide)]
    simp only [KernCall.step, search, Option.bind_eq_bind, Option.bind_none]

end Gapxos
