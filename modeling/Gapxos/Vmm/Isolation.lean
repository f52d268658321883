import Gapxos.Vmm.Roles

/-! Whose memory is whose. Along a run of calls on a manager every frame keeps one role:
each page that malloc_pages has given out and that was not given back has a frame of its
own, and no frame is lost. -/
namespace Gapxos
open Radix SearchTree Tiling Runs

abbrev blockPage (addr i : Nat) : Nat := (addr + i * 0x1000) % 2 ^ 64

def Among (addr : Nat) (is : List Nat) (p : Nat) : Prop :=
  ∃ i ∈ is, p = pageOf (blockPage addr i)

/- What a pass has to find: for malloc_pages a frame to give, for both the tables. -/
def FreshOk (pml4t addr : Nat) (s : Phys) (i : Nat) : Prop :=
  s.freePages ≠ [] ∧ Openable (pmmAllocPage s).2 (pml4t / 4096) (blockPage addr i)

def RangeOk (pml4t addr : Nat) (s : Phys) (i : Nat) : Prop :=
  Openable s (pml4t / 4096) (blockPage addr i)

section Loops

variable {pml4t addr mapAddr : Nat} {flags : PageFlags} {role : Nat → Role} {s : Phys}
  {is : List Nat}

theorem Matches.mapFresh (mat : Matches (pml4t / 4096) role s) (mapped : flags.present = true)
    (usable : flags.usable = true)
    (once : (is.map fun i => pageOf (blockPage addr i)).Nodup)
    (unowned : ∀ i ∈ is, ∀ f, role f ≠ .page (pageOf (blockPage addr i)))
    (ready : All (fun s i => some (mapFreshPage pml4t addr flags s i)) (FreshOk pml4t addr) s is) :
    ∃ role', Matches (pml4t / 4096) role' (is.foldl (mapFreshPage pml4t addr flags) s) ∧
      Evolves (pml4t / 4096) (Among addr is) (fun _ => False) s
        (is.foldl (mapFreshPage pml4t addr flags) s) role role' ∧
      ∀ i ∈ is, (∃ f, role' f = .page (pageOf (blockPage addr i))) ∧
        UpperPresent (is.foldl (mapFreshPage pml4t addr flags) s).mem (pml4t / 4096)
          (blockPage addr i) := by
  induction is generalizing s role with
  | nil => exact ⟨role, mat, .refl _ _ _ _, by simp⟩
  | cons i is ih =>
    obtain ⟨now, later⟩ := ready
    rw [List.map_cons, List.nodup_cons, List.mem_map] at once
    obtain ⟨role₁, mat₁, first, ⟨f, given⟩, upper⟩ :=
      mat.setFresh now.1 now.2 (unowned i (by simp)) mapped usable
    have unowned₁ : ∀ j ∈ is, ∀ f, role₁ f ≠ .page (pageOf (blockPage addr j)) := by
      intro j inside f is
      refine unowned j (by simp [inside]) f ((first.page f _ fun same => ?_).mp is)
      exact once.1 ⟨j, inside, same⟩
    obtain ⟨role₂, mat₂, second, rest⟩ := ih mat₁ once.2 unowned₁ (later _ rfl)
    have sub : ∀ p, p = pageOf (blockPage addr i) → Among addr (i :: is) p :=
      fun p same => ⟨i, by simp, same⟩
    have sub' : ∀ p, Among addr is p → Among addr (i :: is) p :=
      fun p ⟨j, inside, same⟩ => ⟨j, by simp [inside], same⟩
    refine ⟨role₂, mat₂, (first.mono sub fun _ => id).trans (second.mono sub' fun _ => id),
      fun j inside => ?_⟩
    rcases List.mem_cons.mp inside with rfl | inside
    · refine ⟨⟨f, (second.page f _ ?_).mpr given⟩, second.upper upper⟩
      exact fun ⟨l, inside, same⟩ => once.1 ⟨l, inside, same.symm⟩
    · exact rest j inside

theorem Matches.mapRange (mat : Matches (pml4t / 4096) role s) (foreign : flags.usable = false)
    (unowned : ∀ i ∈ is, ∀ f, role f ≠ .page (pageOf (blockPage addr i)))
    (ready : All (fun s i => some (setPage s pml4t (blockPage addr i) (blockPage mapAddr i) flags))
      (RangeOk pml4t addr) s is) :
    let s' := is.foldl
      (fun s i => setPage s pml4t (blockPage addr i) (blockPage mapAddr i) flags) s
    ∃ role', Matches (pml4t / 4096) role' s' ∧
      Evolves (pml4t / 4096) (fun _ => False) (fun _ => False) s s' role role' ∧
      ∀ i ∈ is, UpperPresent s'.mem (pml4t / 4096) (blockPage addr i) := by
  induction is generalizing s role with
  | nil => exact ⟨role, mat, .refl _ _ _ _, by simp⟩
  | cons i is ih =>
    obtain ⟨now, later⟩ := ready
    obtain ⟨role₁, mat₁, first, upper⟩ :=
      mat.setForeign (blockPage mapAddr i) now (unowned i (by simp)) foreign
    have unowned₁ : ∀ j ∈ is, ∀ f, role₁ f ≠ .page (pageOf (blockPage addr j)) :=
      fun j inside f is => unowned j (by simp [inside]) f ((first.page f _ (by simp)).mp is)
    obtain ⟨role₂, mat₂, second, rest⟩ := ih mat₁ unowned₁ (later _ rfl)
    refine ⟨role₂, mat₂, first.trans second, fun j inside => ?_⟩
    rcases List.mem_cons.mp inside with rfl | inside
    · exact second.upper upper
    · exact rest j inside

theorem Matches.unmapRange (mat : Matches (pml4t / 4096) role s)
    (upper : ∀ i ∈ is, UpperPresent s.mem (pml4t / 4096) (blockPage addr i)) :
    let s' := is.foldl (fun s i => freePage s pml4t (blockPage addr i)) s
    ∃ role', Matches (pml4t / 4096) role' s' ∧
      Evolves (pml4t / 4096) (Among addr is) (fun _ => False) s s' role role' ∧
      ∀ i ∈ is, ∀ f, role' f ≠ .page (pageOf (blockPage addr i)) := by
  induction is generalizing s role with
  | nil => exact ⟨role, mat, .refl _ _ _ _, by simp⟩
  | cons i is ih =>
    obtain ⟨role₁, mat₁, first, gone⟩ := mat.freed (upper i (by simp))
    obtain ⟨role₂, mat₂, second, rest⟩ :=
      ih mat₁ fun j inside => first.upper (upper j (by simp [inside]))
    have sub : ∀ p, p = pageOf (blockPage addr i) → Among addr (i :: is) p :=
      fun p same => ⟨i, by simp, same⟩
    have sub' : ∀ p, Among addr is p → Among addr (i :: is) p :=
      fun p ⟨j, inside, same⟩ => ⟨j, by simp [inside], same⟩
    refine ⟨role₂, mat₂, (first.mono sub fun _ => id).trans (second.mono sub' fun _ => id),
      fun j inside f owned => ?_⟩
    rcases List.mem_cons.mp inside with rfl | inside
    · by_cases again : Among addr is (pageOf (blockPage addr j))
      · obtain ⟨l, inside, same⟩ := again
        exact rest l inside f (same ▸ owned)
      · exact gone f ((second.page f _ again).mp owned)
    · exact rest j inside f owned

end Loops

/-- A manager among its callers; `mine` are the blocks that malloc_pages has given out, and
`taken` the pages that the node allocator has drawn for itself. -/
structure LedgerVm (σ : Type) where
  vm : Vm σ
  mine : List (Nat × Nat)
  taken : List Nat

def OnPage (b : Nat × Nat) (p : Nat) : Prop := ∃ i < b.2, p = pageOf (b.1 + 4096 * i)

section Calls

variable {σ : Type} (src : NodeSource σ)

def MgrCall.mineAfter (mine : List (Nat × Nat)) (vm : Vm σ) : MgrCall → List (Nat × Nat)
  | malloc pageCount _ _ _ => if pageCount = 0 then mine else vm.held.head?.toList ++ mine
  | map _ _ _ => mine
  | free addr _ => mine.filter (·.1 ≠ addr)

/-- The pages that are on the stack of `s` and no longer on that of `s'`. -/
def drawnPages (s s' : Phys) : List Nat := s.freePages.filter (· ∉ s'.freePages)

/-- The pages that the node allocator draws when a block is cut off. -/
def nodePages (vm : Vm σ) (pageCount : Nat) : List Nat :=
  ((allocVirt src { vm.mgr with lock := true } pageCount (vm.nodes, vm.phys)).map
    fun r => drawnPages vm.phys r.2.2.2).getD []

/-- The pages that the node allocator draws during a call that ends in `vm'`. -/
def MgrCall.takenBy (vm vm' : Vm σ) : MgrCall → List Nat
  | malloc pageCount _ _ _ => if pageCount = 0 then [] else nodePages src vm pageCount
  | map mapAddr pageCount _ =>
    if pageCount = 0 ∨ mapAddr % 0x1000 ≠ 0 then [] else nodePages src vm pageCount
  | free addr _ =>
    (((avlFind addr vm.mgr.tree).filter (·.allocated)).map fun k =>
      drawnPages (unmapRange vm.phys vm.mgr.pml4t addr k.pageCount) vm'.phys).getD []

def MgrCall.ledgerStep (x : LedgerVm σ) (c : MgrCall) : Option (LedgerVm σ) :=
  (c.step src x.vm).map fun vm =>
    ⟨vm, c.mineAfter x.mine vm, x.taken ++ c.takenBy src x.vm vm⟩

/- What a call has to find: frames and tables for its pages, and a node allocator that
takes what it needs from the free stack. -/
def MgrCall.Backed (vm : Vm σ) : MgrCall → Prop
  | malloc pageCount write exec kernel => pageCount ≠ 0 →
    (∀ k st, src.createNode (vm.nodes, vm.phys) = some (k, st) →
      Quiet (vm.mgr.pml4t / 4096) vm.phys st.2) ∧
    ∀ r, allocVirt src { vm.mgr with lock := true } pageCount (vm.nodes, vm.phys) = some r →
      All (fun s i => some (mapFreshPage vm.mgr.pml4t r.1 (mallocFlags write exec kernel) s i))
        (FreshOk vm.mgr.pml4t r.1) r.2.2.2 (List.range pageCount)
  | map mapAddr pageCount kernel => ¬ (pageCount = 0 ∨ mapAddr % 0x1000 ≠ 0) →
    (∀ k st, src.createNode (vm.nodes, vm.phys) = some (k, st) →
      Quiet (vm.mgr.pml4t / 4096) vm.phys st.2) ∧
    ∀ r, allocVirt src { vm.mgr with lock := true } pageCount (vm.nodes, vm.phys) = some r →
      All (fun s i => some (setPage s vm.mgr.pml4t (blockPage r.1 i) (blockPage mapAddr i)
        (mapFlags kernel))) (RangeOk vm.mgr.pml4t r.1) r.2.2.2 (List.range pageCount)
  | free addr _ => ∀ n, avlFind addr vm.mgr.tree = some n → n.allocated = true →
    ∀ st st', Frees src vm.mgr.tree
        (vm.nodes, unmapRange vm.phys vm.mgr.pml4t addr n.pageCount) st →
      Frees src vm.mgr.tree st st' →
        Quiet (vm.mgr.pml4t / 4096) (unmapRange vm.phys vm.mgr.pml4t addr n.pageCount) st'.2

end Calls

section Blocks

variable {σ : Type} {start n : Nat} {vm : Vm σ} {b c : Nat × Nat}

theorem Tiled.inside (tiled : Tiled start n vm) (held : b ∈ vm.held) :
    start ≤ b.1 ∧ b.1 + 4096 * b.2 ≤ start + 4096 * n := by
  obtain ⟨a, k⟩ := b
  obtain ⟨v, inside, -, rfl, rfl⟩ := mem_blocks.mp (tiled.held.mem_iff.mp held)
  obtain ⟨first, -, last⟩ := tiles_mem tiled.tiles inside
  exact ⟨first, last⟩

theorem Tiled.found (tiled : Tiled start n vm) (held : b ∈ vm.held) :
    ∃ v, avlFind b.1 vm.mgr.tree = some v ∧ v.allocated = true ∧ v.pageCount = b.2 := by
  obtain ⟨a, k⟩ := b
  obtain ⟨v, inside, used, rfl, rfl⟩ := mem_blocks.mp (tiled.held.mem_iff.mp held)
  exact ⟨v, find_of_mem (tiles_sorted tiled.tiles) inside, used, rfl⟩

theorem pageOf_apart {v w : Nat} (before : v + 4096 ≤ w) (near : w + 4096 ≤ v + 2 ^ 48) :
    pageOf v ≠ pageOf w := by
  simp only [pageOf]
  omega

theorem block_once (inside : start ≤ b.1 ∧ b.1 + 4096 * b.2 ≤ start + 4096 * n)
    (narrow : n ≤ 2 ^ 36) {i j : Nat} (hi : i < b.2) (hj : j < b.2)
    (same : pageOf (b.1 + 4096 * i) = pageOf (b.1 + 4096 * j)) : i = j := by
  rcases Nat.lt_trichotomy i j with less | equal | more
  · exact absurd same (pageOf_apart (by omega) (by omega))
  · exact equal
  · exact absurd same.symm (pageOf_apart (by omega) (by omega))

theorem block_apart (first : start ≤ b.1 ∧ b.1 + 4096 * b.2 ≤ start + 4096 * n)
    (second : start ≤ c.1 ∧ c.1 + 4096 * c.2 ≤ start + 4096 * n) (narrow : n ≤ 2 ^ 36)
    (order : b.1 + 4096 * b.2 ≤ c.1) {p : Nat} (one : OnPage b p) : ¬ OnPage c p := by
  obtain ⟨i, hi, rfl⟩ := one
  rintro ⟨j, hj, same⟩
  exact pageOf_apart (by omega) (by omega) same

theorem Tiled.apart (tiled : Tiled start n vm) (narrow : n ≤ 2 ^ 36) :
    vm.held.Pairwise fun b c => ∀ p, OnPage b p → ¬ OnPage c p := by
  have sorted : (blocks vm.mgr.tree.toList).Pairwise fun b c => b.1 + 4096 * b.2 ≤ c.1 := by
    refine List.Pairwise.map _ (fun _ _ order => order) ?_
    exact (tiles_pairwise tiled.tiles).sublist List.filter_sublist
  have apart : (blocks vm.mgr.tree.toList).Pairwise fun b c => ∀ p, OnPage b p → ¬ OnPage c p :=
    sorted.imp_of_mem fun {b c} one other order p => block_apart
      (tiled.inside (tiled.held.mem_iff.mpr one)) (tiled.inside (tiled.held.mem_iff.mpr other))
      narrow order
  refine (tiled.held.pairwise_iff fun {b c} apart p one other => ?_).mpr apart
  exact apart p other one

theorem Tiled.apart_of_ne (tiled : Tiled start n vm) (narrow : n ≤ 2 ^ 36) (one : b ∈ vm.held)
    (other : c ∈ vm.held) (ne : b.1 ≠ c.1) {p : Nat} (page : OnPage b p) : ¬ OnPage c p := by
  have inside := tiled.inside one
  have inside' := tiled.inside other
  obtain ⟨a, k⟩ := b
  obtain ⟨a', k'⟩ := c
  obtain ⟨v, in_tree, -, rfl, rfl⟩ := mem_blocks.mp (tiled.held.mem_iff.mp one)
  obtain ⟨w, in_tree', -, rfl, rfl⟩ := mem_blocks.mp (tiled.held.mem_iff.mp other)
  rcases tiles_apart tiled.tiles in_tree in_tree' ne with order | order
  · exact block_apart inside inside' narrow order page
  · exact fun page' => block_apart inside' inside narrow order page' page

theorem Tiled.page_once (tiled : Tiled start n vm) (narrow : n ≤ 2 ^ 36) (one : b ∈ vm.held)
    (other : c ∈ vm.held) {i j : Nat} (hi : i < b.2) (hj : j < c.2)
    (same : pageOf (c.1 + 4096 * j) = pageOf (b.1 + 4096 * i)) : c = b ∧ j = i := by
  have equal : b.1 = c.1 := by
    by_contra ne
    exact tiled.apart_of_ne narrow one other ne ⟨i, hi, rfl⟩ ⟨j, hj, same.symm⟩
  obtain ⟨v, found, -, size⟩ := tiled.found one
  obtain ⟨w, found', -, size'⟩ := tiled.found other
  rw [equal, found'] at found
  cases found
  have block : c = b := Prod.ext equal.symm (size'.symm.trans size)
  subst block
  exact ⟨rfl, block_once (tiled.inside one) narrow hj hi same⟩

end Blocks

/-- The frames behind the blocks. `role₀` is the ledger the run began with. -/
structure Accounts {σ : Type} (role₀ role : Nat → Role) (x : LedgerVm σ) : Prop where
  mat : Matches (x.vm.mgr.pml4t / 4096) role x.vm.phys
  other : ∀ f, role f = .other ↔ role₀ f = .other
  nodes : ∀ f, role f = .node ↔ role₀ f = .node ∨ 4096 * f ∈ x.taken
  given : ∀ b ∈ x.mine, ∀ p, OnPage b p → ∃ f, role f = .page p
  only : ∀ f p, role f = .page p → (∃ b ∈ x.mine, OnPage b p) ∨ role₀ f = .page p
  before : ∀ f p, role₀ f = .page p → role f = .page p
  sub : ∀ b ∈ x.mine, b ∈ x.vm.held
  upper : ∀ b ∈ x.vm.held, ∀ i < b.2,
    UpperPresent x.vm.phys.mem (x.vm.mgr.pml4t / 4096) (b.1 + 4096 * i)

section Steps

variable {σ : Type} {src : NodeSource σ} {start n : Nat} {role₀ role : Nat → Role}
  {x : LedgerVm σ}

theorem Accounts.unowned (acc : Accounts role₀ role x)
    (clean : ∀ f v, start ≤ v → v < start + 4096 * n → role₀ f ≠ .page (pageOf v))
    {b : Nat × Nat} (inside : start ≤ b.1 ∧ b.1 + 4096 * b.2 ≤ start + 4096 * n)
    (new : ∀ c ∈ x.vm.held, ∀ p, OnPage b p → ¬ OnPage c p) {p : Nat} (page : OnPage b p)
    (f : Nat) : role f ≠ .page p := by
  intro owned
  rcases acc.only f p owned with ⟨c, mine, other⟩ | old
  · exact new c (acc.sub c mine) p page other
  · obtain ⟨i, hi, rfl⟩ := page
    exact clean f _ (by omega) (by omega) old

theorem Accounts.nodesAfter {role' : Nat → Role} {P : Nat → Prop} {s s' : Phys} {cr3 : Nat}
    {pages : List Nat} (acc : Accounts role₀ role x)
    (evolves : Evolves cr3 P (4096 * · ∈ pages) s s' role role')
    (drawn : ∀ f, 4096 * f ∈ pages → role' f = .node) (f : Nat) :
    role' f = .node ↔ role₀ f = .node ∨ 4096 * f ∈ x.taken ++ pages := by
  rw [List.mem_append, ← or_assoc, ← acc.nodes f]
  exact ⟨evolves.taken f, fun is => is.elim (evolves.node f) (drawn f)⟩

theorem Accounts.add {role' : Nat → Role} {vm : Vm σ} {mine : List (Nat × Nat)} {b : Nat × Nat}
    {pages : List Nat} (acc : Accounts role₀ role x)
    (clean : ∀ f v, start ≤ v → v < start + 4096 * n → role₀ f ≠ .page (pageOf v))
    (inside : start ≤ b.1 ∧ b.1 + 4096 * b.2 ≤ start + 4096 * n)
    (new : ∀ c ∈ x.vm.held, ∀ p, OnPage b p → ¬ OnPage c p)
    (same : vm.mgr.pml4t = x.vm.mgr.pml4t) (held : vm.held = b :: x.vm.held)
    (mat : Matches (x.vm.mgr.pml4t / 4096) role' vm.phys)
    (evolves : Evolves (x.vm.mgr.pml4t / 4096) (OnPage b) (4096 * · ∈ pages) x.vm.phys vm.phys
      role role')
    (drawn : ∀ f, 4096 * f ∈ pages → role' f = .node)
    (upper : ∀ i < b.2, UpperPresent vm.phys.mem (x.vm.mgr.pml4t / 4096) (b.1 + 4096 * i))
    (frames : mine = b :: x.mine ∧ (∀ p, OnPage b p → ∃ f, role' f = .page p) ∨
      mine = x.mine ∧ ∀ p, OnPage b p → ∀ f, role' f ≠ .page p) :
    Accounts role₀ role' ⟨vm, mine, x.taken ++ pages⟩ := by
  have old : ∀ c ∈ x.mine, ∀ p, OnPage c p → ∃ f, role' f = .page p := by
    intro c inside p page
    obtain ⟨f, owned⟩ := acc.given c inside p page
    exact ⟨f, (evolves.page f p fun here => new c (acc.sub c inside) p here page).mpr owned⟩
  have mine_sub : ∀ c ∈ mine, c = b ∨ c ∈ x.mine := by
    rcases frames with ⟨rfl, -⟩ | ⟨rfl, -⟩
    · simp
    · exact fun _ inside => .inr inside
  refine ⟨same ▸ mat, fun f => (evolves.other f).trans (acc.other f),
    acc.nodesAfter evolves drawn, ?_, ?_, ?_, ?_, ?_⟩
  · intro c inside p page
    rcases frames with ⟨rfl, given⟩ | ⟨rfl, -⟩
    · rcases List.mem_cons.mp inside with rfl | inside
      · exact given p page
      · exact old c inside p page
    · exact old c inside p page
  · intro f p owned
    by_cases here : OnPage b p
    · rcases frames with ⟨rfl, -⟩ | ⟨rfl, none⟩
      · exact .inl ⟨b, by simp, here⟩
      · exact absurd owned (none p here f)
    · refine (acc.only f p ((evolves.page f p here).mp owned)).imp_left ?_
      rintro ⟨c, inside, page⟩
      refine ⟨c, ?_, page⟩
      rcases frames with ⟨rfl, -⟩ | ⟨rfl, -⟩
      · simp [inside]
      · exact inside
  · intro f p owned
    refine (evolves.page f p ?_).mpr (acc.before f p owned)
    rintro ⟨i, hi, rfl⟩
    exact clean f _ (by omega) (by omega) owned
  · intro c inside
    rw [held]
    rcases mine_sub c inside with rfl | inside
    · simp
    · exact List.mem_cons_of_mem _ (acc.sub c inside)
  · intro c inside i hi
    rw [held] at inside
    rw [same]
    rcases List.mem_cons.mp inside with rfl | inside
    · exact upper i hi
    · exact evolves.upper (acc.upper c inside i hi)

theorem blockPage_eq {b : Nat × Nat}
    (inside : start ≤ b.1 ∧ b.1 + 4096 * b.2 ≤ start + 4096 * n) (fits : start + 4096 * n ≤ 2 ^ 64)
    {i : Nat} (hi : i < b.2) : blockPage b.1 i = b.1 + 4096 * i := by
  rw [blockPage, Nat.mod_eq_of_lt (by omega)]
  omega

theorem among_range {b : Nat × Nat}
    (inside : start ≤ b.1 ∧ b.1 + 4096 * b.2 ≤ start + 4096 * n) (fits : start + 4096 * n ≤ 2 ^ 64)
    {p : Nat} : Among b.1 (List.range b.2) p ↔ OnPage b p := by
  constructor
  · rintro ⟨i, hi, rfl⟩
    have hi := List.mem_range.mp hi
    exact ⟨i, hi, by rw [blockPage_eq inside fits hi]⟩
  · rintro ⟨i, hi, rfl⟩
    exact ⟨i, List.mem_range.mpr hi, by rw [blockPage_eq inside fits hi]⟩

theorem mem_drawnPages {s s' : Phys} {a : Nat} :
    a ∈ drawnPages s s' ↔ a ∈ s.freePages ∧ a ∉ s'.freePages := by
  simp [drawnPages]

theorem Accounts.malloc {pageCount : Nat} {write exec kernel : Bool} {vm : Vm σ}
    (acc : Accounts role₀ role x)
    (clean : ∀ f v, start ≤ v → v < start + 4096 * n → role₀ f ≠ .page (pageOf v))
    (narrow : n ≤ 2 ^ 36) (fits : start + 4096 * n ≤ 2 ^ 64)
    (backed : (MgrCall.malloc pageCount write exec kernel).Backed src x.vm)
    (step : (MgrCall.malloc pageCount write exec kernel).step src x.vm = some vm)
    (tiled : Tiled start n vm) :
    ∃ role', Accounts role₀ role'
      ⟨vm, (MgrCall.malloc pageCount write exec kernel).mineAfter x.mine vm,
        x.taken ++ (MgrCall.malloc pageCount write exec kernel).takenBy src x.vm vm⟩ := by
  obtain ⟨r, done, rfl⟩ := Option.map_eq_some_iff.mp step
  unfold mallocPages at done
  split at done
  · rename_i zero
    cases done
    refine ⟨role, ?_⟩
    rw [MgrCall.mineAfter, if_pos zero, MgrCall.takenBy, if_pos zero, List.append_nil, Vm.give,
      if_pos zero]
    exact acc
  split at done
  · cases done
  · rename_i some _
    obtain ⟨quiet, ready⟩ := backed some
    obtain ⟨r, found, rfl⟩ := Option.map_eq_some_iff.mp done
    obtain ⟨same, beside⟩ := allocVirt_quiet found quiet
    have held : (x.vm.give pageCount (r.1, { r.2.1 with lock := false }, r.2.2.1,
        mapFresh r.2.2.2 x.vm.mgr.pml4t r.1 pageCount (mallocFlags write exec kernel))).held =
        (r.1, pageCount) :: x.vm.held := if_neg some
    have inside := tiled.inside (b := (r.1, pageCount)) (by rw [held]; simp)
    have new := (List.pairwise_cons.mp (held ▸ tiled.apart narrow)).1
    obtain ⟨role₁, mat₁, first, drawn⟩ := acc.mat.quiet beside
    have unowned : ∀ i ∈ List.range pageCount, ∀ f,
        role₁ f ≠ .page (pageOf (blockPage r.1 i)) := fun i hi f owned =>
      acc.unowned clean inside new ((among_range inside fits).mp ⟨i, hi, rfl⟩) f
        ((first.page f _ (by simp)).mp owned)
    have once : ((List.range pageCount).map fun i => pageOf (blockPage r.1 i)).Nodup := by
      refine List.Nodup.map_on (fun i hi j hj equal => ?_) List.nodup_range
      have hi := List.mem_range.mp hi
      have hj := List.mem_range.mp hj
      rw [blockPage_eq inside fits hi, blockPage_eq inside fits hj] at equal
      exact block_once inside narrow hi hj equal
    obtain ⟨role₂, mat₂, second, backs⟩ := mat₁.mapFresh rfl rfl once unowned (ready r found)
    have pages : (MgrCall.malloc pageCount write exec kernel).takenBy src x.vm
        (x.vm.give pageCount (r.1, { r.2.1 with lock := false }, r.2.2.1,
          mapFresh r.2.2.2 x.vm.mgr.pml4t r.1 pageCount (mallocFlags write exec kernel))) =
        drawnPages x.vm.phys r.2.2.2 := by
      rw [MgrCall.takenBy, if_neg some, nodePages, found]
      rfl
    rw [pages]
    refine ⟨role₂, acc.add clean inside new same held mat₂ ?_ ?_ ?_ (.inl ⟨?_, ?_⟩)⟩
    · exact (first.mono (fun _ => False.elim) fun _ => mem_drawnPages.mpr).trans
        (second.mono (fun p page => (among_range inside fits).mp page) fun _ => False.elim)
    · intro f inside
      obtain ⟨there, gone⟩ := mem_drawnPages.mp inside
      exact second.node f (drawn f there gone)
    · intro i hi
      rw [← blockPage_eq inside fits hi]
      exact (backs i (List.mem_range.mpr hi)).2
    · rw [MgrCall.mineAfter, if_neg some, held]
      rfl
    · rintro p ⟨i, hi, rfl⟩
      rw [← blockPage_eq inside fits hi]
      exact (backs i (List.mem_range.mpr hi)).1

theorem Accounts.map {mapAddr pageCount : Nat} {kernel : Bool} {vm : Vm σ}
    (acc : Accounts role₀ role x)
    (clean : ∀ f v, start ≤ v → v < start + 4096 * n → role₀ f ≠ .page (pageOf v))
    (narrow : n ≤ 2 ^ 36) (fits : start + 4096 * n ≤ 2 ^ 64)
    (backed : (MgrCall.map mapAddr pageCount kernel).Backed src x.vm)
    (step : (MgrCall.map mapAddr pageCount kernel).step src x.vm = some vm)
    (tiled : Tiled start n vm) :
    ∃ role', Accounts role₀ role'
      ⟨vm, x.mine, x.taken ++ (MgrCall.map mapAddr pageCount kernel).takenBy src x.vm vm⟩ := by
  obtain ⟨r, done, rfl⟩ := Option.map_eq_some_iff.mp step
  unfold mapMemory at done
  split at done
  · rename_i refused
    cases done
    have none : (if mapAddr % 0x1000 ≠ 0 then 0 else pageCount) = 0 := by
      split <;> omega
    refine ⟨role, ?_⟩
    rw [MgrCall.takenBy, if_pos refused, List.append_nil, Vm.give, if_pos none]
    exact acc
  split at done
  · cases done
  · rename_i some _
    obtain ⟨quiet, ready⟩ := backed some
    obtain ⟨ne, aligned⟩ := not_or.mp some
    obtain ⟨r, found, rfl⟩ := Option.map_eq_some_iff.mp done
    obtain ⟨same, beside⟩ := allocVirt_quiet found quiet
    have asked : (if mapAddr % 0x1000 ≠ 0 then 0 else pageCount) = pageCount := if_neg aligned
    rw [asked] at tiled ⊢
    have held : (x.vm.give pageCount (r.1, { r.2.1 with lock := false }, r.2.2.1,
        mapRange r.2.2.2 x.vm.mgr.pml4t r.1 mapAddr pageCount (mapFlags kernel))).held =
        (r.1, pageCount) :: x.vm.held := if_neg ne
    have inside := tiled.inside (b := (r.1, pageCount)) (by rw [held]; simp)
    have new := (List.pairwise_cons.mp (held ▸ tiled.apart narrow)).1
    obtain ⟨role₁, mat₁, first, drawn⟩ := acc.mat.quiet beside
    have unowned : ∀ i ∈ List.range pageCount, ∀ f,
        role₁ f ≠ .page (pageOf (blockPage r.1 i)) := fun i hi f owned =>
      acc.unowned clean inside new ((among_range inside fits).mp ⟨i, hi, rfl⟩) f
        ((first.page f _ (by simp)).mp owned)
    obtain ⟨role₂, mat₂, second, backs⟩ := mat₁.mapRange rfl unowned (ready r found)
    have pages : (MgrCall.map mapAddr pageCount kernel).takenBy src x.vm
        (x.vm.give pageCount (r.1, { r.2.1 with lock := false }, r.2.2.1,
          mapRange r.2.2.2 x.vm.mgr.pml4t r.1 mapAddr pageCount (mapFlags kernel))) =
        drawnPages x.vm.phys r.2.2.2 := by
      rw [MgrCall.takenBy, if_neg some, nodePages, found]
      rfl
    rw [pages]
    refine ⟨role₂, acc.add clean inside new same held mat₂ ?_ ?_ ?_ (.inr ⟨rfl, ?_⟩)⟩
    · exact (first.mono (fun _ => False.elim) fun _ => mem_drawnPages.mpr).trans
        (second.mono (fun _ => False.elim) fun _ => False.elim)
    · intro f inside
      obtain ⟨there, gone⟩ := mem_drawnPages.mp inside
      exact second.node f (drawn f there gone)
    · intro i hi
      rw [← blockPage_eq inside fits hi]
      exact backs i (List.mem_range.mpr hi)
    · rintro p page f owned
      exact acc.unowned clean inside new page f
        ((first.page f p (by simp)).mp ((second.page f p (by simp)).mp owned))

theorem Accounts.free {addr : Nat} {parentNull : Bool × Bool} {vm : Vm σ}
    (acc : Accounts role₀ role x)
    (clean : ∀ f v, start ≤ v → v < start + 4096 * n → role₀ f ≠ .page (pageOf v))
    (narrow : n ≤ 2 ^ 36) (fits : start + 4096 * n ≤ 2 ^ 64)
    (backed : (MgrCall.free addr parentNull).Backed src x.vm)
    (step : (MgrCall.free addr parentNull).step src x.vm = some vm)
    (tiled : Tiled start n x.vm) :
    ∃ role', Accounts role₀ role'
      ⟨vm, x.mine.filter (·.1 ≠ addr),
        x.taken ++ (MgrCall.free addr parentNull).takenBy src x.vm vm⟩ := by
  obtain ⟨⟨m, st⟩, done, rfl⟩ := Option.map_eq_some_iff.mp step
  by_cases held : ∃ k, avlFind addr x.vm.mgr.tree = some k ∧ k.allocated = true
  · obtain ⟨k, found, used⟩ := held
    obtain ⟨same, st₁, before, after⟩ := freePages_frees found used done
    have quiet := backed k found used st₁ st before after
    obtain ⟨in_tree, rfl⟩ := find_some found
    have mine : (k.addr, k.pageCount) ∈ x.vm.held :=
      tiled.held.mem_iff.mpr (mem_blocks.mpr ⟨k, in_tree, used, rfl, rfl⟩)
    have inside := tiled.inside mine
    have only : ∀ c ∈ x.vm.held, c.1 = k.addr → c = (k.addr, k.pageCount) := by
      intro c held equal
      obtain ⟨v, found', -, size⟩ := tiled.found held
      rw [equal, found] at found'
      cases found'
      exact Prod.ext equal size.symm
    have tables : ∀ i ∈ List.range k.pageCount,
        UpperPresent x.vm.phys.mem (x.vm.mgr.pml4t / 4096) (blockPage k.addr i) := fun i hi => by
      have hi := List.mem_range.mp hi
      rw [blockPage_eq inside fits hi]
      exact acc.upper _ mine i hi
    obtain ⟨role₁, mat₁, first, gone⟩ := acc.mat.unmapRange tables
    obtain ⟨role₂, mat₂, second, drawn⟩ := mat₁.quiet quiet
    have pages : (MgrCall.free k.addr parentNull).takenBy src x.vm
        ⟨m, st.1, st.2, x.vm.held.filter (·.1 ≠ k.addr)⟩ =
        drawnPages (unmapRange x.vm.phys x.vm.mgr.pml4t k.addr k.pageCount) st.2 := by
      rw [MgrCall.takenBy, found, Option.filter_some, if_pos used]
      rfl
    rw [pages]
    have evolves : Evolves (x.vm.mgr.pml4t / 4096) (OnPage (k.addr, k.pageCount))
        (4096 * · ∈ drawnPages (unmapRange x.vm.phys x.vm.mgr.pml4t k.addr k.pageCount) st.2)
        x.vm.phys st.2 role role₂ :=
      (first.mono (fun p page => (among_range inside fits).mp page) fun _ => False.elim).trans
        (second.mono (fun _ => False.elim) fun _ => mem_drawnPages.mpr)
    refine ⟨role₂, ⟨same ▸ mat₂, fun f => (evolves.other f).trans (acc.other f),
      acc.nodesAfter evolves fun f inside => ?_, ?_, ?_, ?_, ?_, ?_⟩⟩
    · obtain ⟨there, gone⟩ := mem_drawnPages.mp inside
      exact drawn f there gone
    · intro c kept p page
      obtain ⟨kept, ne⟩ := List.mem_filter.mp kept
      obtain ⟨f, owned⟩ := acc.given c kept p page
      refine ⟨f, (evolves.page f p fun here => ?_).mpr owned⟩
      exact tiled.apart_of_ne narrow mine (acc.sub c kept)
        (fun equal => by simp [← equal] at ne) here page
    · intro f p owned
      have here : ¬ OnPage (k.addr, k.pageCount) p := by
        intro here
        obtain ⟨i, hi, equal⟩ := (among_range inside fits).mpr here
        refine gone i hi f (equal ▸ ?_)
        exact (second.page f p (by simp)).mp owned
      refine (acc.only f p ((evolves.page f p here).mp owned)).imp_left ?_
      rintro ⟨c, kept, page⟩
      refine ⟨c, List.mem_filter.mpr ⟨kept, ?_⟩, page⟩
      simp only [decide_eq_true_eq]
      intro equal
      rw [only c (acc.sub c kept) equal] at page
      exact here page
    · intro f p owned
      refine (evolves.page f p ?_).mpr (acc.before f p owned)
      rintro ⟨i, hi, rfl⟩
      exact clean f _ (by omega) (by omega) owned
    · intro c kept
      obtain ⟨kept, ne⟩ := List.mem_filter.mp kept
      exact List.mem_filter.mpr ⟨acc.sub c kept, ne⟩
    · intro c kept i hi
      obtain ⟨kept, -⟩ := List.mem_filter.mp kept
      rw [same]
      exact evolves.upper (acc.upper c kept i hi)
  · obtain ⟨rfl, rfl⟩ := freePages_idle (fun k found used => held ⟨k, found, used⟩) done
    have none : ∀ b ∈ x.vm.held, b.1 ≠ addr := by
      rintro b inside rfl
      obtain ⟨k, found, used, -⟩ := tiled.found inside
      exact held ⟨k, found, used⟩
    have kept : x.mine.filter (·.1 ≠ addr) = x.mine :=
      List.filter_eq_self.mpr fun b inside => by simpa using none b (acc.sub b inside)
    have same : x.vm.held.filter (·.1 ≠ addr) = x.vm.held :=
      List.filter_eq_self.mpr fun b inside => by simpa using none b inside
    have quiet : (MgrCall.free addr parentNull).takenBy src x.vm
        ⟨x.vm.mgr, x.vm.nodes, x.vm.phys, x.vm.held.filter (·.1 ≠ addr)⟩ = [] := by
      have nothing : (avlFind addr x.vm.mgr.tree).filter (·.allocated) = .none :=
        Option.filter_eq_none_iff.mpr fun k found used => held ⟨k, found, used⟩
      rw [MgrCall.takenBy, nothing]
      rfl
    refine ⟨role, ?_⟩
    rw [kept, quiet, List.append_nil, same]
    exact acc

theorem step_accounts {live : σ → Nat → Prop} (fresh : FreshSource src live) (pos : 0 < n)
    (narrow : n ≤ 2 ^ 36) (fits : start + 4096 * n ≤ 2 ^ 64)
    (clean : ∀ f v, start ≤ v → v < start + 4096 * n → role₀ f ≠ .page (pageOf v)) {c : MgrCall}
    (both : Sound live start n x.vm ∧ ∃ role, Accounts role₀ role x)
    (ready : c.Clear src x.vm ∧ c.Backed src x.vm) :
    ∃ y, c.ledgerStep src x = some y ∧ Sound live start n y.vm ∧ ∃ role, Accounts role₀ role y := by
  obtain ⟨sound, role, acc⟩ := both
  obtain ⟨vm, eq, sound'⟩ := step_sound fresh pos fits sound ready.1
  refine ⟨⟨vm, c.mineAfter x.mine vm, x.taken ++ c.takenBy src x.vm vm⟩,
    by rw [MgrCall.ledgerStep, eq]; rfl, sound', ?_⟩
  cases c with
  | malloc pageCount write exec kernel =>
    exact acc.malloc clean narrow fits ready.2 eq sound'.toTiled
  | map mapAddr pageCount kernel => exact acc.map clean narrow fits ready.2 eq sound'.toTiled
  | free addr parentNull => exact acc.free clean narrow fits ready.2 eq sound.toTiled

end Steps

/-- A manager that nothing was asked of yet; in the ledger of its memory no page of its range
has a frame. -/
structure Opening {σ : Type} (src : NodeSource σ) (live : σ → Nat → Prop) (start n : Nat)
    (role₀ : Nat → Role) (vm : Vm σ) : Prop where
  fresh : FreshSource src live
  pos : 0 < n
  narrow : n ≤ 2 ^ 36
  fits : start + 4096 * n ≤ 2 ^ 64
  clean : ∀ f v, start ≤ v → v < start + 4096 * n → role₀ f ≠ .page (pageOf v)
  none : vm.held = []
  sound : Sound live start n vm
  mat : Matches (vm.mgr.pml4t / 4096) role₀ vm.phys

theorem Opening.accounts {σ : Type} {src : NodeSource σ} {live : σ → Nat → Prop} {start n : Nat}
    {role₀ : Nat → Role} {vm : Vm σ} (opening : Opening src live start n role₀ vm) :
    Accounts role₀ role₀ (⟨vm, [], []⟩ : LedgerVm σ) :=
  ⟨opening.mat, fun _ => .rfl, by simp, by simp, fun _ _ => .inr, fun _ _ => id, by simp,
    by simp [opening.none]⟩

section Runs

variable {σ : Type} {src : NodeSource σ} {live : σ → Nat → Prop}

variable {start n : Nat} {role₀ : Nat → Role} {vm : Vm σ} {calls before : List MgrCall}

theorem run_accounts (opening : Opening src live start n role₀ vm) (part : before <+: calls)
    (ready : All (MgrCall.ledgerStep src) (fun x c => c.Clear src x.vm ∧ c.Backed src x.vm)
      ⟨vm, [], []⟩ calls) :
    ∃ y, run (MgrCall.ledgerStep src) ⟨vm, [], []⟩ before = some y ∧
      Sound live start n y.vm ∧ ∃ role, Accounts role₀ role y := by
  exact run_keeps (fun _ _ both ready =>
    step_accounts opening.fresh opening.pos opening.narrow opening.fits opening.clean both ready)
    part ⟨opening.sound, role₀, opening.accounts⟩ ready

/- The machine of `threePages`: its table has no entry, and sixteen frames are free. -/
def blankRole (f : Nat) : Role :=
  if f = 1 then .table else if 2 ≤ f ∧ f < 18 then .free else .other

theorem blankRole_page (f p : Nat) : blankRole f ≠ .page p := by
  unfold blankRole
  split
  · simp
  · split <;> simp

theorem blank_matches : Matches 1 blankRole blankPhys := by
  have unowned : ∀ v, ownerAt blankPhys.mem 1 v = none := fun v => by
    simp [ownerAt, path, trace, blankPhys, child, present, leafOwner]
  refine ⟨threePages_inv.tables, by decide, by decide, fun f some => ?_, fun f p is => ?_,
    fun f => ?_, fun f => ?_, fun v f => ?_, fun v f owned => ?_⟩
  · unfold blankRole at some
    split at some
    · omega
    · split at some
      · omega
      · simp at some
  · exact absurd is (blankRole_page f p)
  · rw [blankRole]
    simp only [blankPhys, List.mem_map, List.mem_range]
    constructor
    · rintro ⟨i, low, eq⟩
      rw [if_neg (by omega), if_pos (by omega)]
    · split
      · simp
      · split
        · exact fun _ => ⟨f - 2, by omega, by omega⟩
        · simp
  · constructor
    · rintro ⟨p, -, reach⟩
      rw [(blank_root reach).2]
      rfl
    · intro is
      have root : f = 1 := by
        unfold blankRole at is
        split at is
        · assumption
        · split at is <;> simp at is
      exact ⟨[], by simp, by rw [root]; rfl⟩
  · rw [unowned]
    simp [blankRole_page]
  · rw [unowned] at owned
    cases owned

theorem threePages_sound : Sound (fun k p => p < k) kernStart 3 threePages.vm := by
  obtain ⟨m, st, made, sound⟩ : ∃ m st,
      createMgr counter kernStart 3 (0, blankPhys) = some (m, st) ∧
      ∀ pml4t, Sound _ kernStart 3 ⟨{ m with pml4t }, st.1, st.2, []⟩ :=
    createMgr_sound counter_fresh (by decide) (0, blankPhys)
  obtain ⟨rfl, rfl⟩ := Prod.mk.inj (Option.some.inj made)
  exact sound 0x1000

theorem threePages_opening :
    Opening counter (fun k p => p < k) kernStart 3 blankRole threePages.vm :=
  ⟨counter_fresh, by decide, by decide, by decide, fun f v _ _ => blankRole_page f _, rfl,
    threePages_sound, blank_matches⟩

theorem threePages_ready : All (MgrCall.ledgerStep counter)
    (fun x c => c.Clear counter x.vm ∧ c.Backed counter x.vm) ⟨threePages.vm, [], []⟩
    [.malloc 1 true false true, .free kernStart (true, true)] := by
  refine ⟨⟨⟨fun _ => ⟨⟨0, kernStart, 3, false⟩, by decide, by decide, by decide⟩, by decide,
    trivial⟩, fun _ => ⟨?_, ?_⟩⟩, fun x eq => ?_⟩
  · rintro k st ⟨⟩
    exact .refl _ _
  · rintro r ⟨⟩
    refine ⟨⟨by decide, .inr ⟨?_, [], (List.range 15).map (2 + ·), by decide, by decide,
      fun _ _ _ => rfl⟩⟩, fun _ _ => trivial⟩
    show SmallWalk [0]
    exact fun e inside there => absurd there (by rw [List.mem_singleton.mp inside]; decide)
  · obtain rfl := Option.some.inj eq
    refine ⟨⟨⟨fun none => absurd none (by decide), by decide, fun n found used => ?_⟩, ?_⟩,
      fun _ _ => trivial⟩
    · obtain rfl := Option.some.inj found
      refine ⟨by decide, by decide, by decide, fun parentNull st r merged => ?_⟩
      obtain rfl := Option.some.inj merged
      show ∀ v ∈ [(⟨0, kernStart, 1, false⟩ : AvlNode), ⟨1, kernStart + 4096, 2, false⟩],
        v.allocated = false → v.addr = kernStart + 4096 →
          removable v.addr (.node ⟨0, kernStart, 1, false⟩ 1 .nil
            (.node ⟨1, kernStart + 4096, 2, false⟩ 0 .nil .nil)) = true
      decide
    · rintro n ⟨⟩ _ st st' first second
      have same : ∀ u u' : Nat × Phys, Frees counter (.node ⟨0, kernStart, 1, true⟩ 1 .nil
          (.node ⟨1, kernStart + 4096, 2, false⟩ 0 .nil .nil)) u u' → u' = u := by
        rintro u u' (eq | ⟨p, _, ⟨⟩⟩)
        · exact eq
        · rfl
      rw [same _ _ second, same _ _ first]
      exact .refl _ _

/-- After every call of a run, the pages that malloc_pages has given out and that were not
given back are walked to frames of their own: no two pages share one, and none is free, a
page table or a page of the node allocator. -/
theorem mgr_run_isolated (opening : Opening src live start n role₀ vm) (part : before <+: calls)
    (ready : All (MgrCall.ledgerStep src) (fun x c => c.Clear src x.vm ∧ c.Backed src x.vm)
      ⟨vm, [], []⟩ calls) :
    ∃ y, run (MgrCall.ledgerStep src) ⟨vm, [], []⟩ before = some y ∧
      (∀ b ∈ y.mine, b ∈ y.vm.held) ∧
      ∀ b ∈ y.mine, ∀ i < b.2, ∃ f,
        walk y.vm.phys.mem (y.vm.mgr.pml4t / 4096) (b.1 + 4096 * i) = some f ∧
        4096 * f ∉ y.vm.phys.freePages ∧ 4096 * f ∉ y.taken ∧
        ¬ IsTable y.vm.phys.mem (y.vm.mgr.pml4t / 4096) f ∧
        ∀ c ∈ y.mine, ∀ j < c.2,
          walk y.vm.phys.mem (y.vm.mgr.pml4t / 4096) (c.1 + 4096 * j) = some f →
            c = b ∧ j = i := by
  obtain ⟨y, eq, sound, role, acc⟩ := run_accounts opening part ready
  have walked : ∀ c ∈ y.mine, ∀ j < c.2, ∃ f, role f = .page (pageOf (c.1 + 4096 * j)) ∧
      walk y.vm.phys.mem (y.vm.mgr.pml4t / 4096) (c.1 + 4096 * j) = some f := by
    intro c inside j hj
    obtain ⟨f, owned⟩ := acc.given c inside _ ⟨j, hj, rfl⟩
    exact ⟨f, owned, acc.mat.walks _ _ ((acc.mat.owner _ f).mpr owned)⟩
  refine ⟨y, eq, acc.sub, fun b inside i hi => ?_⟩
  obtain ⟨f, owned, there⟩ := walked b inside i hi
  refine ⟨f, there, ?_, fun taken => ?_, ?_, fun c inside' j hj there' => ?_⟩
  · rw [acc.mat.free f, owned]
    simp
  · rw [(acc.nodes f).mpr (.inr taken)] at owned
    cases owned
  · rw [acc.mat.table f, owned]
    simp
  · obtain ⟨g, owned', same⟩ := walked c inside' j hj
    rw [there'] at same
    cases same
    rw [owned] at owned'
    exact sound.page_once opening.narrow (acc.sub b inside) (acc.sub c inside') hi hj
      (Role.page.inj owned').symm

theorem mgr_run_isolated_held :
    ∃ y, run (MgrCall.ledgerStep counter) ⟨threePages.vm, [], []⟩ [.malloc 1 true false true] =
        some y ∧ y.mine = [(kernStart, 1)] ∧ ∃ f,
      walk y.vm.phys.mem (y.vm.mgr.pml4t / 4096) kernStart = some f ∧
      4096 * f ∉ y.vm.phys.freePages := by
  have part : [MgrCall.malloc 1 true false true] <+:
      [.malloc 1 true false true, .free kernStart (true, true)] := ⟨_, rfl⟩
  obtain ⟨y, eq, -, own⟩ := mgr_run_isolated threePages_opening part threePages_ready
  have mine : y.mine = [(kernStart, 1)] := by
    cases eq
    rfl
  obtain ⟨f, there, away, -⟩ := own (kernStart, 1) (by simp [mine]) 0 (by decide)
  exact ⟨y, eq, mine, f, there, away⟩

/-- Once everything is given back, every frame that was free at the beginning is free
again, unless it has become a page table or was drawn by the node allocator. -/
theorem mgr_run_no_leak (opening : Opening src live start n role₀ vm) (part : before <+: calls)
    (ready : All (MgrCall.ledgerStep src) (fun x c => c.Clear src x.vm ∧ c.Backed src x.vm)
      ⟨vm, [], []⟩ calls) :
    ∃ y, run (MgrCall.ledgerStep src) ⟨vm, [], []⟩ before = some y ∧
      (y.mine = [] → ∀ f, 4096 * f ∈ vm.phys.freePages →
        4096 * f ∈ y.vm.phys.freePages ∨ IsTable y.vm.phys.mem (y.vm.mgr.pml4t / 4096) f ∨
          4096 * f ∈ y.taken) := by
  obtain ⟨y, eq, -, role, acc⟩ := run_accounts opening part ready
  refine ⟨y, eq, fun empty f free => ?_⟩
  have was := (opening.mat.free f).mp free
  rw [acc.mat.free f, acc.mat.table f]
  cases is : role f with
  | other =>
    rw [(acc.other f).mp is] at was
    cases was
  | free => exact .inl rfl
  | table => exact .inr (.inl rfl)
  | page p =>
    rcases acc.only f p is with ⟨b, inside, -⟩ | old
    · simp [empty] at inside
    · rw [old] at was
      cases was
  | node =>
    refine .inr (.inr (((acc.nodes f).mp is).resolve_left fun old => ?_))
    rw [old] at was
    cases was

theorem mgr_run_no_leak_page :
    ∃ y, run (MgrCall.ledgerStep counter) ⟨threePages.vm, [], []⟩
        [.malloc 1 true false true, .free kernStart (true, true)] = some y ∧ y.mine = [] ∧
      ∀ f, 4096 * f ∈ blankPhys.freePages → 4096 * f ∈ y.vm.phys.freePages ∨
        IsTable y.vm.phys.mem (y.vm.mgr.pml4t / 4096) f := by
  obtain ⟨y, eq, back⟩ := mgr_run_no_leak threePages_opening (List.prefix_refl _)
    threePages_ready
  have rest : y.mine = [] ∧ y.taken = [] := by
    cases eq
    decide
  refine ⟨y, eq, rest.1, fun f free => ?_⟩
  rcases back rest.1 f free with free | table | taken
  · exact .inl free
  · exact .inr table
  · simp [rest.2] at taken

end Runs

end Gapxos
