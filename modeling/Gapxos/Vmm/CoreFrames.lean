import Gapxos.Vmm.Cores

/-! What the cores see of each other. At every moment, also while another core is in the
middle of a call, the pages of a block that was given out are walked to the frames they
have always had. -/
namespace Gapxos
open SearchTree Tiling Locked Runs

section Midway

variable {σ : Type} (src : NodeSource σ)

/-- What has happened since `base`, by how far a call `c` has come. -/
def Midway (base : Vm σ) (c : MgrCall) (s : Vm σ) : Pending → Prop
  | .start d => d = c ∧ s = (mgrGuard src).lock base
  | .filling flags pageCount addr i => ∃ write exec kernel r,
    c = .malloc pageCount write exec kernel ∧ flags = mallocFlags write exec kernel ∧
    allocVirt src { base.mgr with lock := true } pageCount (base.nodes, base.phys) = some r ∧
    addr = r.1 ∧ i ≤ pageCount ∧ s.mgr.pml4t = base.mgr.pml4t ∧
    s.phys = (List.range i).foldl (mapFreshPage base.mgr.pml4t addr flags) r.2.2.2
  | .mapping flags mapAddr pageCount addr i => ∃ kernel r,
    c = .map mapAddr pageCount kernel ∧ flags = mapFlags kernel ∧
    allocVirt src { base.mgr with lock := true } pageCount (base.nodes, base.phys) = some r ∧
    addr = r.1 ∧ i ≤ pageCount ∧ s.mgr.pml4t = base.mgr.pml4t ∧
    s.phys = (List.range i).foldl (fun s i =>
      setPage s base.mgr.pml4t (blockPage addr i) (blockPage mapAddr i) flags) r.2.2.2
  | .unmapping parentNull addr n i =>
    c = .free addr parentNull ∧ avlFind addr base.mgr.tree = some n ∧ n.allocated = true ∧
    i ≤ n.pageCount ∧ s.mgr = { base.mgr with tree := released n base.mgr.tree, lock := true } ∧
    s.nodes = base.nodes ∧
    s.phys = (List.range i).foldl (fun s i => freePage s base.mgr.pml4t (blockPage addr i))
      base.phys
  | .merging parentNull addr n =>
    c = .free addr parentNull ∧ avlFind addr base.mgr.tree = some n ∧ n.allocated = true ∧
    s.mgr = { base.mgr with tree := released n base.mgr.tree, lock := true } ∧
    s.nodes = base.nodes ∧ s.phys = unmapRange base.phys base.mgr.pml4t addr n.pageCount
  | .joining _ addr _ => ∃ parentNull n,
    c = .free addr parentNull ∧ avlFind addr base.mgr.tree = some n ∧ n.allocated = true ∧
    s.mgr.pml4t = base.mgr.pml4t ∧ nodePtrs s.mgr.tree ⊆ nodePtrs base.mgr.tree ∧
    Frees src base.mgr.tree (base.nodes, unmapRange base.phys base.mgr.pml4t addr n.pageCount)
      (s.nodes, s.phys)
  | .granted addr pageCount =>
    (∃ write exec kernel r, c = .malloc pageCount write exec kernel ∧
      allocVirt src { base.mgr with lock := true } pageCount (base.nodes, base.phys) = some r ∧
      addr = r.1 ∧ s.mgr.pml4t = base.mgr.pml4t ∧
      s.phys = mapFresh r.2.2.2 base.mgr.pml4t addr pageCount (mallocFlags write exec kernel)) ∨
    ∃ mapAddr kernel r, c = .map mapAddr pageCount kernel ∧
      allocVirt src { base.mgr with lock := true } pageCount (base.nodes, base.phys) = some r ∧
      addr = r.1 ∧ s.mgr.pml4t = base.mgr.pml4t ∧
      s.phys = mapRange r.2.2.2 base.mgr.pml4t addr mapAddr pageCount (mapFlags kernel)
  | .freed addr => (∃ parentNull, c = .free addr parentNull) ∧ s.mgr.pml4t = base.mgr.pml4t ∧
    (s.phys = base.phys ∨ ∃ n st, avlFind addr base.mgr.tree = some n ∧ n.allocated = true ∧
      Frees src base.mgr.tree (base.nodes, unmapRange base.phys base.mgr.pml4t addr n.pageCount)
        st ∧ Frees src base.mgr.tree st (s.nodes, s.phys))

variable {src} {base s : Vm σ} {c : MgrCall} {l : Pending} {next : Pending × Vm σ}

theorem enterStep_midway (one : enterStep src ((mgrGuard src).lock base) c = some next) :
    Midway src base c next.2 next.1 := by
  cases c with
  | malloc pageCount write exec kernel =>
    obtain ⟨r, found, rfl⟩ := Option.map_eq_some_iff.mp one
    exact ⟨write, exec, kernel, r, rfl, rfl, found, rfl, Nat.zero_le _,
      (allocVirt_lock src found).2, rfl⟩
  | map mapAddr pageCount kernel =>
    obtain ⟨r, found, rfl⟩ := Option.map_eq_some_iff.mp one
    exact ⟨kernel, r, rfl, rfl, found, rfl, Nat.zero_le _, (allocVirt_lock src found).2, rfl⟩
  | free addr parentNull =>
    simp only [enterStep] at one
    split at one
    · cases one
    split at one
    · cases one
      exact ⟨⟨_, rfl⟩, rfl, .inl rfl⟩
    rename_i n found
    split at one
    · rename_i used
      cases one
      exact ⟨rfl, found, used, Nat.zero_le _, rfl, rfl, rfl⟩
    · cases one
      exact ⟨⟨_, rfl⟩, rfl, .inl rfl⟩

theorem micro_midway (mid : Midway src base c s l) (one : l.micro src s = some next) :
    Midway src base c next.2 next.1 := by
  cases l with
  | start d =>
    obtain ⟨rfl, rfl⟩ := mid
    exact enterStep_midway one
  | filling flags pageCount addr i =>
    obtain ⟨write, exec, kernel, r, rfl, rfl, found, rfl, le, same, phys⟩ := mid
    simp only [Pending.micro] at one
    split at one
    · rename_i less
      cases one
      refine ⟨write, exec, kernel, r, rfl, rfl, found, rfl, less, same, ?_⟩
      rw [List.range_succ, List.foldl_append, ← phys, same]
      rfl
    · rename_i ended
      cases one
      obtain rfl : i = pageCount := by omega
      exact .inl ⟨write, exec, kernel, r, rfl, found, rfl, same, phys⟩
  | mapping flags mapAddr pageCount addr i =>
    obtain ⟨kernel, r, rfl, rfl, found, rfl, le, same, phys⟩ := mid
    simp only [Pending.micro] at one
    split at one
    · rename_i less
      cases one
      refine ⟨kernel, r, rfl, rfl, found, rfl, less, same, ?_⟩
      rw [List.range_succ, List.foldl_append, ← phys, same]
      rfl
    · rename_i ended
      cases one
      obtain rfl : i = pageCount := by omega
      exact .inr ⟨mapAddr, kernel, r, rfl, found, rfl, same, phys⟩
  | unmapping parentNull addr n i =>
    obtain ⟨rfl, found, used, le, mgr, nodes, phys⟩ := mid
    simp only [Pending.micro] at one
    split at one
    · rename_i less
      cases one
      refine ⟨rfl, found, used, less, mgr, nodes, ?_⟩
      rw [List.range_succ, List.foldl_append, ← phys, mgr]
      rfl
    · rename_i ended
      cases one
      obtain rfl : i = n.pageCount := by omega
      exact ⟨rfl, found, used, mgr, nodes, phys⟩
  | merging parentNull addr n =>
    obtain ⟨rfl, found, used, mgr, nodes, phys⟩ := mid
    obtain ⟨r, below, rfl⟩ := Option.map_eq_some_iff.mp one
    obtain ⟨fewer, frees⟩ := mergeBelow_frees below
    have same : nodePtrs s.mgr.tree = nodePtrs base.mgr.tree := by
      rw [mgr]
      exact nodePtrs_write _ _ _ fun _ => rfl
    rw [same] at fewer
    rw [Frees, same, nodes, phys] at frees
    exact ⟨parentNull, n, rfl, found, used, by rw [mgr], fewer, frees⟩
  | joining parentNull addr ptr =>
    obtain ⟨both, n, rfl, found, used, same, fewer, frees⟩ := mid
    obtain ⟨r, after, rfl⟩ := Option.map_eq_some_iff.mp one
    exact ⟨⟨both, rfl⟩, same, .inr ⟨n, _, found, used, frees, (mergeAfter_frees after).mono fewer⟩⟩
  | granted => cases one
  | freed => cases one

theorem enter_start {l : Pending} (enters : c.enter = some l) : l = .start c := by
  cases c with
  | malloc =>
    simp only [MgrCall.enter] at enters
    split at enters
    · cases enters
    · cases enters
      rfl
  | map =>
    simp only [MgrCall.enter] at enters
    split at enters
    · cases enters
    · cases enters
      rfl
  | free =>
    cases enters
    rfl

theorem partly_midway {l₀ : Pending} (enters : c.enter = some l₀)
    (got : Partly (mgrGuard src) l₀ ((mgrGuard src).lock base) l s) : Midway src base c s l := by
  induction got with
  | refl => exact enter_start enters ▸ ⟨rfl, rfl⟩
  | snoc _ _ one ih => exact micro_midway ih one

end Midway

/-- Only the pages of a block that is being freed, and of one that is being made, change
hands. -/
def Undisturbed {σ : Type} (base : Vm σ) (c : MgrCall) (role : Nat → Role) (s : Vm σ) : Prop :=
  s.mgr.pml4t = base.mgr.pml4t ∧ ∃ role' Q T,
    Matches (base.mgr.pml4t / 4096) role' s.phys ∧
    Evolves (base.mgr.pml4t / 4096) Q T base.phys s.phys role role' ∧
    ∀ b ∈ base.held, (∀ parentNull, c ≠ .free b.1 parentNull) → ∀ p, OnPage b p → ¬ Q p

section Undisturbed

variable {σ : Type} {src : NodeSource σ} {live : σ → Nat → Prop} {start n : Nat}
  {role₀ role : Nat → Role} {y : LedgerVm σ} {s : Vm σ} {c : MgrCall}

theorem Sound.fresh_block (fresh : FreshSource src live) (fits : start + 4096 * n ≤ 2 ^ 64)
    (narrow : n ≤ 2 ^ 36) {vm : Vm σ} (sound : Sound live start n vm)
    (small : top vm.mgr.tree ≤ 250) {pages : Nat} (some : pages ≠ 0) (room : Room pages vm.mgr.tree)
    {r : Nat × MemoryManager × σ × Phys}
    (found : allocVirt src { vm.mgr with lock := true } pages (vm.nodes, vm.phys) = .some r) :
    (start ≤ r.1 ∧ r.1 + 4096 * pages ≤ start + 4096 * n) ∧
      ∀ c ∈ vm.held, ∀ p, OnPage (r.1, pages) p → ¬ OnPage c p := by
  obtain ⟨addr, m, st, eq, after⟩ := request_step fits (fresh.creates sound.nodes) sound small
    (Nat.pos_of_ne_zero some) room
  rw [found] at eq
  cases eq
  have held : (vm.give pages (addr, { m with lock := false }, st.1, vm.phys)).held =
      (addr, pages) :: vm.held := if_neg some
  have tiled := (after vm.phys).toTiled
  refine ⟨tiled.inside (b := (addr, pages)) (by rw [held]; simp), ?_⟩
  exact (List.pairwise_cons.mp (held ▸ tiled.apart narrow)).1

theorem range_left {pages i : Nat} (le : i ≤ pages) :
    ∃ rest, List.range pages = List.range i ++ rest := by
  obtain ⟨k, rfl⟩ := Nat.exists_eq_add_of_le le
  exact ⟨_, List.range_add⟩

section Calls

variable (acc : Accounts role₀ role y) (sound : Sound live start n y.vm)
  (fresh : FreshSource src live) (narrow : n ≤ 2 ^ 36) (fits : start + 4096 * n ≤ 2 ^ 64)
  (clean : ∀ f v, start ≤ v → v < start + 4096 * n → role₀ f ≠ .page (pageOf v))
include acc sound fresh narrow fits clean

theorem alloc_begun {pageCount : Nat} {r : Nat × MemoryManager × σ × Phys}
    (some : pageCount ≠ 0) (small : top y.vm.mgr.tree ≤ 250) (room : Room pageCount y.vm.mgr.tree)
    (quiet : ∀ k st, src.createNode (y.vm.nodes, y.vm.phys) = .some (k, st) →
      Quiet (y.vm.mgr.pml4t / 4096) y.vm.phys st.2)
    (found : allocVirt src { y.vm.mgr with lock := true } pageCount (y.vm.nodes, y.vm.phys) =
      .some r) :
    ∃ role₁ T, Matches (y.vm.mgr.pml4t / 4096) role₁ r.2.2.2 ∧
      Evolves (y.vm.mgr.pml4t / 4096) (fun _ => False) T y.vm.phys r.2.2.2 role role₁ ∧
      (∀ j < pageCount, ∀ f, role₁ f ≠ .page (pageOf (blockPage r.1 j))) ∧
      (∀ j < pageCount, ∀ k < pageCount,
        pageOf (blockPage r.1 j) = pageOf (blockPage r.1 k) → j = k) ∧
      ∀ b ∈ y.vm.held, ∀ j < pageCount, ¬ OnPage b (pageOf (blockPage r.1 j)) := by
  obtain ⟨inside, new⟩ := sound.fresh_block fresh fits narrow small some room found
  have at_ : ∀ j < pageCount, blockPage r.1 j = r.1 + 4096 * j := fun j hj =>
    blockPage_eq (b := (r.1, pageCount)) inside fits hj
  have page : ∀ j < pageCount, OnPage (r.1, pageCount) (pageOf (blockPage r.1 j)) :=
    fun j hj => ⟨j, hj, by rw [at_ j hj]⟩
  obtain ⟨role₁, mat₁, first, -⟩ := acc.mat.quiet (allocVirt_quiet found quiet).2
  refine ⟨role₁, _, mat₁, first, fun j hj f owned => ?_, fun j hj k hk equal => ?_,
    fun b held j hj here => new b held _ (page j hj) here⟩
  · exact acc.unowned clean inside new (page j hj) f ((first.page f _ (by simp)).mp owned)
  · rw [at_ j hj, at_ k hk] at equal
    exact block_once (b := (r.1, pageCount)) inside narrow hj hk equal

theorem filling_undisturbed {pageCount i : Nat} {write exec kernel : Bool}
    {r : Nat × MemoryManager × σ × Phys} (some : pageCount ≠ 0)
    (clear : (MgrCall.malloc pageCount write exec kernel).Clear src y.vm)
    (backed : (MgrCall.malloc pageCount write exec kernel).Backed src y.vm)
    (found : allocVirt src { y.vm.mgr with lock := true } pageCount (y.vm.nodes, y.vm.phys) =
      .some r) (le : i ≤ pageCount) (same : s.mgr.pml4t = y.vm.mgr.pml4t)
    (phys : s.phys = (List.range i).foldl
      (mapFreshPage y.vm.mgr.pml4t r.1 (mallocFlags write exec kernel)) r.2.2.2) :
    Undisturbed y.vm (.malloc pageCount write exec kernel) role s := by
  obtain ⟨quiet, ready⟩ := backed some
  obtain ⟨role₁, T, mat₁, first, unowned, once, new⟩ := alloc_begun acc sound fresh narrow fits
    clean some clear.2.1 (clear.1 (Nat.pos_of_ne_zero some)) quiet found
  have short : ∀ j ∈ List.range i, j < pageCount := fun j hj =>
    Nat.lt_of_lt_of_le (List.mem_range.mp hj) le
  have pages : ((List.range i).map fun j => pageOf (blockPage r.1 j)).Nodup :=
    List.Nodup.map_on (fun j hj k hk => once j (short j hj) k (short k hk)) List.nodup_range
  obtain ⟨rest, split⟩ := range_left le
  obtain ⟨role₂, mat₂, second, -⟩ := mat₁.mapFresh rfl rfl pages
    (fun j hj => unowned j (short j hj)) (all_left (split ▸ ready r found))
  refine ⟨same, role₂, _, T, phys ▸ mat₂, phys ▸ (first.mono (fun _ => False.elim)
    fun _ => id).trans (second.mono (fun _ => id) fun _ => False.elim), ?_⟩
  rintro b held - p here ⟨j, hj, rfl⟩
  exact new b held j (short j hj) here

theorem mapping_undisturbed {mapAddr pageCount i : Nat} {kernel : Bool}
    {r : Nat × MemoryManager × σ × Phys} (taken : ¬ (pageCount = 0 ∨ mapAddr % 0x1000 ≠ 0))
    (clear : (MgrCall.map mapAddr pageCount kernel).Clear src y.vm)
    (backed : (MgrCall.map mapAddr pageCount kernel).Backed src y.vm)
    (found : allocVirt src { y.vm.mgr with lock := true } pageCount (y.vm.nodes, y.vm.phys) =
      some r) (le : i ≤ pageCount) (same : s.mgr.pml4t = y.vm.mgr.pml4t)
    (phys : s.phys = (List.range i).foldl (fun s i =>
      setPage s y.vm.mgr.pml4t (blockPage r.1 i) (blockPage mapAddr i) (mapFlags kernel))
      r.2.2.2) :
    Undisturbed y.vm (.map mapAddr pageCount kernel) role s := by
  obtain ⟨quiet, ready⟩ := backed taken
  obtain ⟨some, aligned⟩ := not_or.mp taken
  have room := clear.1
  rw [MgrCall.Met, MgrCall.pages, if_neg aligned] at room
  obtain ⟨role₁, T, mat₁, first, unowned, -, -⟩ := alloc_begun acc sound fresh narrow fits clean
    some clear.2.1 (room (Nat.pos_of_ne_zero some)) quiet found
  obtain ⟨rest, split⟩ := range_left le
  obtain ⟨role₂, mat₂, second, -⟩ := mat₁.mapRange rfl
    (fun j hj => unowned j (Nat.lt_of_lt_of_le (List.mem_range.mp hj) le))
    (all_left (split ▸ ready r found))
  exact ⟨same, role₂, _, T, phys ▸ mat₂, phys ▸ first.trans (second.mono (fun _ => id)
    fun _ => False.elim), fun _ _ _ _ _ => id⟩

omit fresh clean in
theorem unmapping_undisturbed {addr i : Nat} {parentNull : Bool × Bool} {k : AvlNode}
    (found : avlFind addr y.vm.mgr.tree = some k) (used : k.allocated = true)
    (le : i ≤ k.pageCount) (same : s.mgr.pml4t = y.vm.mgr.pml4t)
    (phys : s.phys = (List.range i).foldl
      (fun s i => freePage s y.vm.mgr.pml4t (blockPage addr i)) y.vm.phys) :
    Undisturbed y.vm (.free addr parentNull) role s := by
  obtain ⟨in_tree, rfl⟩ := find_some found
  have mine : (k.addr, k.pageCount) ∈ y.vm.held :=
    sound.held.mem_iff.mpr (mem_blocks.mpr ⟨k, in_tree, used, rfl, rfl⟩)
  have inside := sound.inside mine
  have short : ∀ j ∈ List.range i, j < k.pageCount := fun j hj =>
    Nat.lt_of_lt_of_le (List.mem_range.mp hj) le
  have at_ : ∀ j ∈ List.range i, blockPage k.addr j = k.addr + 4096 * j := fun j hj =>
    blockPage_eq inside fits (short j hj)
  obtain ⟨role₁, mat₁, first, -⟩ := acc.mat.unmapRange (fun j hj => by
    rw [at_ j hj]
    exact acc.upper _ mine j (short j hj))
  refine ⟨same, role₁, _, _, phys ▸ mat₁, phys ▸ first, ?_⟩
  rintro b held other p here ⟨j, hj, rfl⟩
  refine sound.apart_of_ne narrow mine held (fun equal => other parentNull ?_)
    ⟨j, short j hj, by rw [at_ j hj]⟩ here
  rw [← equal]

omit acc sound fresh narrow fits clean in
theorem Undisturbed.quiet {t : Vm σ} (und : Undisturbed y.vm c role s)
    (beside : Quiet (y.vm.mgr.pml4t / 4096) s.phys t.phys)
    (same : t.mgr.pml4t = y.vm.mgr.pml4t) : Undisturbed y.vm c role t := by
  obtain ⟨-, role₁, Q, T, mat₁, first, apart⟩ := und
  obtain ⟨role₂, mat₂, second, -⟩ := mat₁.quiet beside
  refine ⟨same, role₂, Q, fun f => T f ∨ _, mat₂, (first.mono (fun _ => id) fun _ => .inl).trans
    (second.mono (fun _ => False.elim) fun _ => .inr), apart⟩

theorem midway_undisturbed {l : Pending} (enters : c.enter ≠ none) (clear : c.Clear src y.vm)
    (backed : c.Backed src y.vm) (mid : Midway src y.vm c s l) : Undisturbed y.vm c role s := by
  have idle : s.mgr.pml4t = y.vm.mgr.pml4t → s.phys = y.vm.phys → Undisturbed y.vm c role s :=
    fun same phys => ⟨same, role, fun _ => False, fun _ => False, phys ▸ acc.mat,
      phys ▸ .refl _ _ _ _, fun _ _ _ _ _ => id⟩
  cases l with
  | start d =>
    obtain ⟨-, rfl⟩ := mid
    exact idle rfl rfl
  | filling flags pageCount addr i =>
    obtain ⟨write, exec, kernel, r, rfl, rfl, found, rfl, le, same, phys⟩ := mid
    have some : pageCount ≠ 0 := fun none => enters (if_pos none)
    exact filling_undisturbed acc sound fresh narrow fits clean some clear backed found le same phys
  | mapping flags mapAddr pageCount addr i =>
    obtain ⟨kernel, r, rfl, rfl, found, rfl, le, same, phys⟩ := mid
    have taken : ¬ (pageCount = 0 ∨ mapAddr % 0x1000 ≠ 0) := fun refused => enters (if_pos refused)
    exact mapping_undisturbed acc sound fresh narrow fits clean taken clear backed found le same
      phys
  | unmapping parentNull addr k i =>
    obtain ⟨rfl, found, used, le, mgr, -, phys⟩ := mid
    exact unmapping_undisturbed acc sound narrow fits found used le (by rw [mgr]) phys
  | merging parentNull addr k =>
    obtain ⟨rfl, found, used, mgr, -, phys⟩ := mid
    exact unmapping_undisturbed acc sound narrow fits found used (Nat.le_refl _) (by rw [mgr]) phys
  | joining parentNull addr ptr =>
    obtain ⟨both, k, rfl, found, used, same, -, frees⟩ := mid
    have whole : Undisturbed y.vm (.free addr both) role
        { y.vm with phys := unmapRange y.vm.phys y.vm.mgr.pml4t addr k.pageCount } :=
      unmapping_undisturbed acc sound narrow fits found used (Nat.le_refl _) rfl rfl
    exact whole.quiet (backed k found used _ _ frees (.inl rfl)) same
  | granted addr pageCount =>
    rcases mid with ⟨write, exec, kernel, r, rfl, found, rfl, same, phys⟩ |
      ⟨mapAddr, kernel, r, rfl, found, rfl, same, phys⟩
    · have some : pageCount ≠ 0 := fun none => enters (if_pos none)
      exact filling_undisturbed acc sound fresh narrow fits clean some clear backed found
        (Nat.le_refl _) same phys
    · have taken : ¬ (pageCount = 0 ∨ mapAddr % 0x1000 ≠ 0) :=
        fun refused => enters (if_pos refused)
      exact mapping_undisturbed acc sound fresh narrow fits clean taken clear backed found
        (Nat.le_refl _) same phys
  | freed addr =>
    obtain ⟨⟨both, rfl⟩, same, phys | ⟨k, st, found, used, first, second⟩⟩ := mid
    · exact idle same phys
    · have whole : Undisturbed y.vm (.free addr both) role
          { y.vm with phys := unmapRange y.vm.phys y.vm.mgr.pml4t addr k.pageCount } :=
        unmapping_undisturbed acc sound narrow fits found used (Nat.le_refl _) rfl rfl
      exact whole.quiet (backed k found used _ _ first second) same

end Calls

end Undisturbed

section Runs

variable {σ T : Type}

/- The blocks of malloc_pages that the calls of a log have given out, and that were not
given back. -/
def givenAfter (mine : List (Nat × Nat)) : T × MgrCall × Nat → List (Nat × Nat)
  | (_, .malloc pageCount _ _ _, addr) =>
    if pageCount = 0 then mine else (addr, pageCount) :: mine
  | (_, .map _ _ _, _) => mine
  | (_, .free addr _, _) => mine.filter (·.1 ≠ addr)

def given (log : List (T × MgrCall × Nat)) : List (Nat × Nat) := log.foldl givenAfter []

theorem given_snoc (log : List (T × MgrCall × Nat)) (e : T × MgrCall × Nat) :
    given (log ++ [e]) = givenAfter (given log) e := by
  rw [given, List.foldl_append]
  rfl

theorem givenAfter_refused {c : MgrCall} (refused : c.enter = none) (mine : List (Nat × Nat))
    (t : T) (r : Nat) : givenAfter mine (t, c, r) = mine := by
  cases c with
  | malloc pageCount write exec kernel =>
    by_cases none : pageCount = 0
    · exact if_pos none
    · rw [MgrCall.enter, if_neg none] at refused
      cases refused
  | map => rfl
  | free => cases refused

theorem givenAfter_keeps {c : MgrCall} {b : Nat × Nat} {mine : List (Nat × Nat)} (held : b ∈ mine)
    (other : ∀ parentNull, c ≠ .free b.1 parentNull) (t : T) (r : Nat) :
    b ∈ givenAfter mine (t, c, r) := by
  cases c with
  | malloc pageCount write exec kernel =>
    simp only [givenAfter]
    split
    · exact held
    · exact List.mem_cons_of_mem _ held
  | map => exact held
  | free addr parentNull =>
    refine List.mem_filter.mpr ⟨held, ?_⟩
    simp only [decide_eq_true_eq]
    rintro rfl
    exact other parentNull rfl

variable (src : NodeSource σ) (live : σ → Nat → Prop) (start n : Nat) (role₀ : Nat → Role)
  (vm : Vm σ)

def Prepared (vm : Vm σ) (c : MgrCall) : Prop := c.Clear src vm ∧ c.Backed src vm

def Booked (log : List (T × MgrCall × Nat)) (base : Vm σ) : Prop :=
  ∃ y role, run (MgrCall.ledgerStep src) ⟨vm, [], []⟩ (log.map (·.2.1)) = some y ∧ y.vm = base ∧
    y.mine = given log ∧ Sound live start n base ∧ Accounts role₀ role y

variable {src live start n role₀ vm} {base base' : Vm σ} {log : List (T × MgrCall × Nat)}
  {c : MgrCall} {r : Nat}

theorem ledgerStep_refused (refused : c.enter = none) (y : LedgerVm σ) :
    c.ledgerStep src y = some y := by
  have same : c.step src y.vm = some y.vm := by
    rw [answered_step, answered_refused refused]
    rfl
  rw [MgrCall.ledgerStep, same, Option.map_some]
  cases c with
  | malloc pageCount write exec kernel =>
    by_cases none : pageCount = 0
    · simp [MgrCall.mineAfter, MgrCall.takenBy, none]
    · rw [MgrCall.enter, if_neg none] at refused
      cases refused
  | map mapAddr pageCount kernel =>
    by_cases turned : pageCount = 0 ∨ mapAddr % 0x1000 ≠ 0
    · simp only [MgrCall.mineAfter, MgrCall.takenBy, if_pos turned, List.append_nil]
    · rw [MgrCall.enter, if_neg turned] at refused
      cases refused
  | free => cases refused

theorem mineAfter_given (done : c.answered src base = some (r, base')) (mine : List (Nat × Nat))
    (t : T) : c.mineAfter mine base' = givenAfter mine (t, c, r) := by
  cases c with
  | malloc pageCount write exec kernel =>
    obtain ⟨q, -, eq⟩ := Option.map_eq_some_iff.mp done
    cases eq
    simp only [MgrCall.mineAfter, givenAfter]
    split
    · rfl
    · rename_i some
      rw [Vm.give, if_neg some]
      rfl
  | map => rfl
  | free => rfl

theorem booked_step (opening : Opening src live start n role₀ vm)
    (log : List (T × MgrCall × Nat)) (base : Vm σ) (t : T) (c : MgrCall) (r : Nat) (base' : Vm σ)
    (booked : Booked src live start n role₀ vm log base)
    (alone : Alone (mgrGuard src) (Prepared src) base c r base') :
    Booked src live start n role₀ vm (log ++ [(t, c, r)]) base' := by
  obtain ⟨y, role, eq, rfl, mine, sound, acc⟩ := booked
  have done := alone_answered alone
  have last : ∀ z, c.ledgerStep src y = some z →
      run (MgrCall.ledgerStep src) ⟨vm, [], []⟩ ((log ++ [(t, c, r)]).map (·.2.1)) = some z := by
    intro z one
    rw [List.map_append, run_append, eq, Option.bind_some, List.map_singleton, run, one]
    rfl
  cases alone with
  | refused none =>
    refine ⟨y, role, last y (ledgerStep_refused none y), rfl, ?_, sound, acc⟩
    rw [given_snoc, givenAfter_refused none, mine]
  | whole _ _ finds _ =>
    obtain ⟨z, one, sound', role', acc'⟩ := step_accounts opening.fresh opening.pos
      opening.narrow opening.fits opening.clean ⟨sound, role, acc⟩ finds
    have after : z = ⟨base', c.mineAfter y.mine base', y.taken ++ c.takenBy src y.vm base'⟩ := by
      rw [MgrCall.ledgerStep, answered_step, done] at one
      exact (Option.some.inj one).symm
    refine ⟨z, role', last z one, by rw [after], ?_, ?_, acc'⟩
    · rw [given_snoc, after, mineAfter_given done, mine]
    · rw [after] at sound'
      exact sound'

theorem booked_nil (opening : Opening src live start n role₀ vm) :
    Booked src live start n role₀ vm ([] : List (T × MgrCall × Nat)) vm :=
  ⟨⟨vm, [], []⟩, role₀, rfl, rfl, rfl, opening.sound, opening.accounts⟩

theorem booked_ends (opening : Opening src live start n role₀ vm) {l : Pending}
    (booked : Booked src live start n role₀ vm log base)
    (served : Prepared src base c) (unlocked : base.mgr.lock = false) (enters : c.enter = some l) :
    ∃ r base', Whole (mgrGuard src) l ((mgrGuard src).lock base) r base' := by
  obtain ⟨y, role, -, rfl, -, sound, -⟩ := booked
  obtain ⟨vm', eq, -⟩ := step_sound opening.fresh opening.pos opening.fits sound served.1
  rw [answered_step] at eq
  obtain ⟨⟨r, after⟩, done, -⟩ := Option.map_eq_some_iff.mp eq
  exact ⟨r, after, (whole_iff unlocked enters).mpr done⟩

abbrev Cores (σ T : Type) := State (Vm σ) Pending MgrCall Nat T

/-- No core is in the middle of freeing the block. -/
def Unfreed (x : Cores σ T) (b : Nat × Nat) : Prop :=
  ∀ t c l parentNull, x.threads t = .inside c l → c ≠ .free b.1 parentNull

def seenFrame (x : Cores σ T) (b : Nat × Nat) (i : Nat) : Option Nat :=
  walk x.shared.phys.mem (x.shared.mgr.pml4t / 4096) (b.1 + 4096 * i)

section Moment

variable {x : Cores σ T} {y : LedgerVm σ} {role : Nat → Role} {b : Nat × Nat} {i : Nat}
  (opening : Opening src live start n role₀ vm)
  (ser : Serialized (mgrGuard src) (Prepared src) vm y.vm x) (sound : Sound live start n y.vm)
  (acc : Accounts role₀ role y)
include opening ser sound acc

theorem moment_ledger :
    x.shared.mgr.pml4t = y.vm.mgr.pml4t ∧ ∃ role',
      Matches (y.vm.mgr.pml4t / 4096) role' x.shared.phys ∧
      (∀ f, role f = .node → role' f = .node) ∧
      ∀ b ∈ y.vm.held, Unfreed x b → ∀ p, OnPage b p → ∀ f,
        (role' f = .page p ↔ role f = .page p) := by
  cases ser.now with
  | free same _ =>
    rw [same]
    exact ⟨rfl, role, acc.mat, fun _ => id, fun _ _ _ _ _ _ => .rfl⟩
  | held here _ finds enters got =>
    obtain ⟨same, role', Q, T, mat, evolves, apart⟩ := midway_undisturbed acc sound
      opening.fresh opening.narrow opening.fits opening.clean (Option.ne_none_iff_exists'.mpr
      ⟨_, enters⟩) finds.1 finds.2 (partly_midway enters got)
    refine ⟨same, role', mat, evolves.node, fun b held kept p on f => evolves.page f p ?_⟩
    exact apart b held (fun parentNull => kept _ _ _ parentNull here) p on

theorem moment_frame (mine : b ∈ y.mine) (kept : Unfreed x b) (inside : i < b.2) :
    ∃ f, role f = .page (pageOf (b.1 + 4096 * i)) ∧ seenFrame x b i = some f ∧
      4096 * f ∉ x.shared.phys.freePages ∧ 4096 * f ∉ y.taken ∧
      ¬ IsTable x.shared.phys.mem (x.shared.mgr.pml4t / 4096) f := by
  obtain ⟨same, role', mat, -, pages⟩ := moment_ledger opening ser sound acc
  obtain ⟨f, owned⟩ := acc.given b mine _ ⟨i, inside, rfl⟩
  have now : role' f = .page (pageOf (b.1 + 4096 * i)) :=
    (pages b (acc.sub b mine) kept _ ⟨i, inside, rfl⟩ f).mpr owned
  refine ⟨f, owned, ?_, ?_, fun taken => ?_, ?_⟩
  · rw [seenFrame, same]
    exact mat.walks _ _ ((mat.owner _ f).mpr now)
  · rw [mat.free f, now]
    simp
  · rw [(acc.nodes f).mpr (.inr taken)] at owned
    cases owned
  · rw [same, mat.table f, now]
    simp

end Moment

/-- Nobody frees the block, and nobody is about to. -/
structure Spared (x : Cores σ T) (b : Nat × Nat) : Prop where
  given : b ∈ given x.log
  waiting : ∀ t c l parentNull, x.threads t = .waiting c l → c ≠ .free b.1 parentNull
  inside : Unfreed x b

/-- Each core that gets the lock finds what its call needs. -/
def Attended [DecidableEq T] (src : NodeSource σ) (vm : Vm σ) (events : List (Event T MgrCall)) :
    Prop :=
  All (step (mgrGuard src)) (Admits (mgrGuard src) (Prepared src)) (State.start vm) events

/- Two cores: the first takes a page while the second waits for the lock, and then the
second asks free_pages for a block that nobody holds. -/
def firstCalls : List (Event Bool MgrCall) :=
  [.call true (.malloc 1 true false true), .call false (.free (kernStart + 0x1000) (true, true)),
    .go true, .go false, .go true, .go true, .go true, .go true]

def secondCall : List (Event Bool MgrCall) := [.go false, .go false, .go false]

theorem twoCores_finds : Attended counter threePages.vm (firstCalls ++ secondCall) := by
  have inside : ∀ {x : Cores Nat Bool} {t : Bool} {c : MgrCall} {l : Pending},
      x.threads t = .inside c l → Admits (mgrGuard counter) (Prepared counter) x (.go t) :=
    fun here d m waits => by
      rw [here] at waits
      cases waits
  refine ⟨trivial, ?_⟩
  rintro x ⟨⟩
  refine ⟨trivial, ?_⟩
  rintro x ⟨⟩
  refine ⟨?_, ?_⟩
  · rintro c l ⟨⟩ _
    exact threePages_ready.1
  rintro x ⟨⟩
  refine ⟨?_, ?_⟩
  · rintro c l ⟨⟩ ⟨⟩
  rintro x ⟨⟩
  refine ⟨inside rfl, ?_⟩
  rintro x ⟨⟩
  refine ⟨inside rfl, ?_⟩
  rintro x ⟨⟩
  refine ⟨inside rfl, ?_⟩
  rintro x ⟨⟩
  refine ⟨inside rfl, ?_⟩
  rintro x ⟨⟩
  refine ⟨?_, ?_⟩
  · rintro c l ⟨⟩ _
    refine ⟨⟨fun none => absurd none (by decide), by decide, fun n found used => ?_⟩,
      fun n found used => ?_⟩
    · cases found
      cases used
    · cases found
      cases used
  rintro x ⟨⟩
  refine ⟨inside rfl, ?_⟩
  rintro x ⟨⟩
  refine ⟨inside rfl, ?_⟩
  rintro x ⟨⟩
  trivial

section Scheduled

variable [DecidableEq T]

theorem Spared.put {x : Cores σ T} {b : Nat × Nat} {t : T} {th : Thread Pending MgrCall}
    (unt : Spared x b)
    (other : ∀ c l parentNull, th = .waiting c l ∨ th = .inside c l → c ≠ .free b.1 parentNull) :
    Spared (x.put t th) b := by
  refine ⟨unt.given, fun u c l parentNull waits => ?_, fun u c l parentNull enters => ?_⟩
  · by_cases self : u = t
    · subst self
      rw [put_self] at waits
      exact other c l parentNull (.inl waits)
    · rw [put_other self] at waits
      exact unt.waiting u c l parentNull waits
  · rcases put_inside enters with ⟨-, here⟩ | before
    · exact other c l parentNull (.inr here)
    · exact unt.inside u c l parentNull before

theorem cores_booked (opening : Opening src live start n role₀ vm)
    {events before : List (Event T MgrCall)} (part : before <+: events)
    (finds : Attended src vm events) :
    ∃ x, run (step (mgrGuard src)) (State.start vm) before = some x ∧
      ∃ base, Serialized (mgrGuard src) (Prepared src) vm base x ∧
        Booked src live start n role₀ vm x.log base :=
  run_returns (booked_step opening)
    (fun _ _ _ _ booked served unlocked enters =>
      booked_ends opening booked served unlocked enters)
    opening.sound.unlocked (booked_nil opening) part finds

/-- However the cores are scheduled, each page of a block that a core holds has a frame of its
own at every moment, also while other cores are in the middle of their calls: no two pages
share a frame, and none is free, a page table or a page of the node allocator. -/
theorem cores_isolated (opening : Opening src live start n role₀ vm)
    {events before : List (Event T MgrCall)} (part : before <+: events)
    (finds : Attended src vm events) :
    ∃ x y, run (step (mgrGuard src)) (State.start vm) before = some x ∧
      run (MgrCall.ledgerStep src) ⟨vm, [], []⟩ (x.log.map (·.2.1)) = some y ∧
      (x.shared.mgr.lock = false → x.shared = y.vm) ∧ Tiled start n y.vm ∧
      ∀ b ∈ given x.log, Unfreed x b → ∀ i < b.2, ∃ f, seenFrame x b i = some f ∧
        4096 * f ∉ x.shared.phys.freePages ∧ 4096 * f ∉ y.taken ∧
        ¬ IsTable x.shared.phys.mem (x.shared.mgr.pml4t / 4096) f ∧
        ∀ c ∈ given x.log, Unfreed x c → ∀ j < c.2, seenFrame x c j = some f → c = b ∧ j = i := by
  obtain ⟨x, back, base, ser, y, role, log, rfl, mine, sound, acc⟩ :=
    cores_booked opening part finds
  refine ⟨x, y, back, log, ser.at_rest, sound.toTiled, fun b held kept i inside => ?_⟩
  rw [← mine] at held
  obtain ⟨f, owned, there, away, other, table⟩ :=
    moment_frame opening ser sound acc held kept inside
  refine ⟨f, there, away, other, table, fun c held' kept' j inside' there' => ?_⟩
  rw [← mine] at held'
  obtain ⟨g, owned', there'', -⟩ := moment_frame opening ser sound acc held' kept' inside'
  rw [there'] at there''
  cases there''
  rw [owned] at owned'
  exact sound.page_once opening.narrow (acc.sub b held) (acc.sub c held') inside inside'
    (Role.page.inj owned').symm

theorem cores_isolated_two :
    ∃ x, run (step (mgrGuard counter)) (State.start threePages.vm)
        (firstCalls ++ [.go false]) = some x ∧ x.shared.mgr.lock = true ∧
      given x.log = [(kernStart, 1)] ∧ ∃ f, seenFrame x (kernStart, 1) 0 = some f ∧
        4096 * f ∉ x.shared.phys.freePages := by
  have part : firstCalls ++ [.go false] <+: firstCalls ++ secondCall :=
    ⟨[.go false, .go false], rfl⟩
  obtain ⟨x, y, back, -, -, -, own⟩ := cores_isolated threePages_opening part twoCores_finds
  have now : x.shared.mgr.lock = true ∧ given x.log = [(kernStart, 1)] ∧
      ∃ c l, x.threads false = .inside c l ∧ c = .free (kernStart + 0x1000) (true, true) ∧
        x.threads true = .idle := by
    cases back
    exact ⟨rfl, rfl, _, _, rfl, rfl, rfl⟩
  obtain ⟨locked, held, c, l, here, call, idle⟩ := now
  refine ⟨x, back, locked, held, ?_⟩
  have unfreed : Unfreed x (kernStart, 1) := by
    intro t d m parentNull inside equal
    cases t with
    | false =>
      rw [here] at inside
      cases inside
      rw [call] at equal
      cases equal
    | true =>
      rw [idle] at inside
      cases inside
  obtain ⟨f, there, away, -⟩ := own (kernStart, 1) (by simp [held]) unfreed 0 (by decide)
  exact ⟨f, there, away⟩

theorem step_stable (opening : Opening src live start n role₀ vm) {x z : Cores σ T}
    {e : Event T MgrCall} {b : Nat × Nat}
    (ser : Serialized (mgrGuard src) (Prepared src) vm base x)
    (booked : Booked src live start n role₀ vm x.log base) (eq : step (mgrGuard src) x e = some z)
    (unt : Spared x b) (other : ∀ t parentNull, e ≠ .call t (.free b.1 parentNull)) :
    Spared z b ∧ ∀ i < b.2, seenFrame z b i = seenFrame x b i := by
  cases e with
  | call t c =>
    cases eq
    unfold Locked.begin
    cases at_t : x.threads t with
    | idle =>
      cases enters : (mgrGuard src).enter c with
      | none =>
        refine ⟨⟨?_, unt.waiting, unt.inside⟩, fun _ _ => rfl⟩
        rw [given_snoc, givenAfter_refused enters]
        exact unt.given
      | some l =>
        refine ⟨unt.put fun d m parentNull here equal => other t parentNull ?_, fun _ _ => rfl⟩
        rcases here with here | here
        · cases here
          rw [equal]
        · cases here
    | waiting => exact ⟨unt, fun _ _ => rfl⟩
    | inside => exact ⟨unt, fun _ _ => rfl⟩
  | go t =>
    cases here : x.threads t with
    | idle =>
      rw [step_idle here] at eq
      cases eq
      exact ⟨unt, fun _ _ => rfl⟩
    | waiting c l =>
      rw [step_waiting here] at eq
      cases eq
      have same : Spared { x with shared := (mgrGuard src).lock x.shared } b :=
        ⟨unt.given, unt.waiting, unt.inside⟩
      refine ⟨same.put fun d m parentNull moved => ?_, fun _ _ => rfl⟩
      have call : d = c := by
        split at moved
        · rcases moved with moved | moved <;> cases moved
          rfl
        · rcases moved with moved | moved <;> cases moved
          rfl
      exact call ▸ unt.waiting t c l parentNull here
    | inside c l =>
      rw [step_inside here] at eq
      cases ended : (mgrGuard src).answer l with
      | none =>
        rw [work_micro ended] at eq
        obtain ⟨next, one, rfl⟩ := Option.map_eq_some_iff.mp eq
        have same : Spared { x with shared := next.2 } b :=
          ⟨unt.given, unt.waiting, unt.inside⟩
        have unt' : Spared ({ x with shared := next.2 }.put t (.inside c next.1)) b := by
          refine same.put fun d m parentNull moved => ?_
          rcases moved with moved | moved
          · cases moved
          · cases moved
            exact unt.inside t c l parentNull here
        refine ⟨unt', fun i inside => ?_⟩
        obtain ⟨y, role, -, rfl, mine, sound, acc⟩ := booked
        have held := mine ▸ unt.given
        obtain ⟨f, owned, before, -⟩ := moment_frame opening ser sound acc held
          unt.inside inside
        obtain ⟨g, owned', after, -⟩ := moment_frame opening (ser.inner here ended one) sound acc
          held unt'.inside inside
        rw [before, after, acc.mat.one owned owned']
      | some r =>
        rw [work_leave ended] at eq
        cases eq
        have same : Spared { x with
            shared := (mgrGuard src).unlock l x.shared, log := x.log ++ [(t, c, r)] } b := by
          refine ⟨?_, unt.waiting, unt.inside⟩
          rw [given_snoc]
          exact givenAfter_keeps unt.given (fun parentNull => unt.inside t c l parentNull here) t r
        exact ⟨same.put (by simp), fun _ _ => rfl⟩

/-- As long as nobody calls free_pages for a block, its pages stay where they are, whatever
the other cores do. -/
theorem cores_stable (opening : Opening src live start n role₀ vm)
    {before more : List (Event T MgrCall)} (finds : Attended src vm (before ++ more)) :
    ∃ x z, run (step (mgrGuard src)) (State.start vm) before = some x ∧
      run (step (mgrGuard src)) x more = some z ∧
      ∀ b, Spared x b → (∀ t parentNull, .call t (.free b.1 parentNull) ∉ more) →
        Spared z b ∧ ∀ i < b.2, seenFrame z b i = seenFrame x b i := by
  obtain ⟨x, back, good⟩ := cores_booked opening (List.prefix_append before more) finds
  have rest := all_right finds back
  suffices ∃ z, run (step (mgrGuard src)) x more = some z ∧ ∀ b, Spared x b →
      (∀ t parentNull, .call t (.free b.1 parentNull) ∉ more) →
        Spared z b ∧ ∀ i < b.2, seenFrame z b i = seenFrame x b i by
    obtain ⟨z, eq, stable⟩ := this
    exact ⟨x, z, back, eq, stable⟩
  clear finds back
  induction more generalizing x with
  | nil => exact ⟨x, rfl, fun b unt _ => ⟨unt, fun _ _ => rfl⟩⟩
  | cons e more ih =>
    obtain ⟨x₁, eq, good₁⟩ := step_returns (booked_step opening)
      (fun _ _ _ _ booked served unlocked enters =>
        booked_ends opening booked served unlocked enters)
      (booked_nil opening) good rest.1
    obtain ⟨z, later, stable⟩ := ih x₁ good₁ (rest.2 x₁ eq)
    refine ⟨z, by rw [run, eq, Option.bind_some, later], fun b unt away => ?_⟩
    obtain ⟨base, ser, booked⟩ := good
    obtain ⟨unt₁, first⟩ := step_stable opening ser booked eq unt
      fun t parentNull here => away t parentNull (here ▸ List.mem_cons_self)
    obtain ⟨unt₂, second⟩ := stable b unt₁
      fun t parentNull later => away t parentNull (List.mem_cons_of_mem _ later)
    exact ⟨unt₂, fun i inside => (second i inside).trans (first i inside)⟩

theorem cores_stable_two :
    ∃ x z, run (step (mgrGuard counter)) (State.start threePages.vm) firstCalls = some x ∧
      run (step (mgrGuard counter)) x secondCall = some z ∧
      seenFrame z (kernStart, 1) 0 = seenFrame x (kernStart, 1) 0 := by
  obtain ⟨x, z, back, on, stable⟩ := cores_stable threePages_opening twoCores_finds
  refine ⟨x, z, back, on, (stable (kernStart, 1) ?_ (by simp [secondCall])).2 0 (by decide)⟩
  have now : given x.log = [(kernStart, 1)] ∧ x.threads true = .idle ∧
      x.threads false = .waiting (.free (kernStart + 0x1000) (true, true))
        (.start (.free (kernStart + 0x1000) (true, true))) := by
    cases back
    exact ⟨rfl, rfl, rfl⟩
  obtain ⟨held, idle, waits⟩ := now
  refine ⟨by simp [held], fun t c l parentNull here equal => ?_, fun t c l parentNull here => ?_⟩
  · cases t with
    | false =>
      rw [waits] at here
      cases here
      cases equal
    | true =>
      rw [idle] at here
      cases here
  · cases t with
    | false =>
      rw [waits] at here
      cases here
    | true =>
      rw [idle] at here
      cases here

/-- A core that is between lock_mgr and unlock_mgr gets out by its own steps, and leaves the
lock free. -/
theorem lock_released (opening : Opening src live start n role₀ vm)
    {events before : List (Event T MgrCall)} (part : before <+: events)
    (finds : Attended src vm events) :
    ∃ x, run (step (mgrGuard src)) (State.start vm) before = some x ∧
      ∀ t c l, x.threads t = .inside c l → ∃ k z,
        run (step (mgrGuard src)) x (List.replicate k (.go t)) = some z ∧
        z.shared.mgr.lock = false ∧ z.threads t = .idle ∧ ∃ r, z.log = x.log ++ [(t, c, r)] := by
  obtain ⟨x, back, base, ser, booked⟩ := cores_booked opening part finds
  refine ⟨x, back, fun t c l here => ?_⟩
  obtain ⟨found, l₀, enters, got⟩ := ser.part here
  obtain ⟨r, s', whole⟩ := booked_ends opening booked found ser.unlocked enters
  have rest := whole.rest got
  obtain ⟨k, z, eq, shared, idle, log⟩ := rest.released x here rfl
  exact ⟨k, z, eq, shared ▸ rest.unlocked, idle, r, log⟩

theorem lock_released_two :
    ∃ x k z, run (step (mgrGuard counter)) (State.start threePages.vm) (firstCalls.take 5) =
        some x ∧ x.shared.mgr.lock = true ∧
      run (step (mgrGuard counter)) x (List.replicate k (.go true)) = some z ∧
      z.shared.mgr.lock = false := by
  have part : firstCalls.take 5 <+: firstCalls ++ secondCall :=
    (List.take_prefix 5 firstCalls).trans (List.prefix_append _ secondCall)
  obtain ⟨x, back, released⟩ := lock_released threePages_opening part twoCores_finds
  have now : x.shared.mgr.lock = true ∧ ∃ c l, x.threads true = .inside c l := by
    cases back
    exact ⟨rfl, _, _, rfl⟩
  obtain ⟨locked, c, l, here⟩ := now
  obtain ⟨k, z, eq, free, -⟩ := released true c l here
  exact ⟨x, k, z, back, locked, eq, free⟩

end Scheduled

end Runs

end Gapxos
