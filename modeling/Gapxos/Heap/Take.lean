import Gapxos.Heap.Links

/-! An allocation. A free block of the right size is found or comes with new pages; its end
is cut off for the caller, or the whole block changes lists. -/
namespace Gapxos
open Bytes Linked Extents Radix

variable {root : Nat} {h h' : Heap} {F F' : Fields} {ext ext' : Nat → Nat} {xs : List Nat}
  {live : List (Nat × Nat)} {views V W : List PageView} {v : PageView} {size base : Nat}

theorem Rep.add {y : Nat} (rep : Rep h F ext xs) (apart : Apart ext' (y :: xs))
    (word : ∀ x ∈ y :: xs, 8 ≤ ext' x) (less : ∀ x ∈ xs, ext' x ≤ ext x)
    (within : ∃ r ∈ h.held, r.1 ≤ y ∧ y + ext' y ≤ r.1 + r.2) :
    Rep h (Function.update F y (h.fields y)) ext' (y :: xs) := by
  have fresh : y ∉ xs :=
    (List.nodup_cons.mp (apart.nodup fun x inside =>
      Nat.lt_of_lt_of_le (by decide) (word x inside))).1
  refine ⟨apart, word, fun x inside => ?_, rep.ends, fun x inside k room => ?_⟩
  · rcases List.mem_cons.mp inside with rfl | inside
    · exact within
    · obtain ⟨r, held, low, high⟩ := rep.within x inside
      have := less x inside
      exact ⟨r, held, low, by omega⟩
  · rcases List.mem_cons.mp inside with rfl | inside
    · rw [Function.update_self]
    · have ne : x ≠ y := fun same => fresh (same ▸ inside)
      rw [Function.update_of_ne ne]
      exact rep.cells x inside k (room.trans (less x inside))

theorem Rep.addNew {y e : Nat} (rep : Rep h F ext xs) (word : 8 ≤ e)
    (off : ∀ x ∈ xs, x + ext x ≤ y ∨ y + e ≤ x)
    (within : ∃ r ∈ h.held, r.1 ≤ y ∧ y + e ≤ r.1 + r.2) :
    ∃ F' ext', Rep h F' ext' (y :: xs) ∧ (∀ x ∈ xs, F' x = F x ∧ ext' x = ext x) ∧ ext' y = e := by
  have out : ∀ x ∈ xs, x ≠ y := by
    intro x inside
    have := rep.word x inside
    have := off x inside
    omega
  have same : ∀ x ∈ xs, Function.update ext y e x = ext x :=
    fun x inside => Function.update_of_ne (out x inside) ..
  have own : Function.update ext y e y = e := Function.update_self ..
  refine ⟨_, Function.update ext y e, rep.add ?_ ?_ ?_ ?_, fun x inside => ⟨?_, same x inside⟩, own⟩
  · refine List.pairwise_cons.mpr ⟨fun x inside => ?_, rep.apart.rest same⟩
    rw [Off, own, same x inside]
    exact (off x inside).symm
  · intro x inside
    rcases List.mem_cons.mp inside with rfl | inside
    · rw [own]
      exact word
    · rw [same x inside]
      exact rep.word x inside
  · exact fun x inside => Nat.le_of_eq (same x inside)
  · rw [own]
    exact within
  · exact Function.update_of_ne (out x inside) ..

theorem Rep.search (rep : Rep h F ext xs) (size : Nat) {x n : Nat}
    (chain : Hung 0 0 F x 0 (views.map PageView.base) 0) (inside : x ∈ xs)
    (pages : ∀ v ∈ views, PageInv F ext v) (sub : ∀ v ∈ views, ∀ y ∈ v.starts, y ∈ xs)
    (once : ∀ v ∈ views, v.free.Nodup) (enough : views.length < n) :
    (∃ v ∈ views, ∃ b ∈ v.free, size < F b 2 ∧ h.search size x n = some (.inr b)) ∨
      ((∀ v ∈ views, ∀ b ∈ v.free, F b 2 ≤ size) ∧
        h.search size x n =
          some (.inl (cellAddr (lastCell 0 x 0 (views.map PageView.base))))) := by
  induction views generalizing x n with
  | nil =>
    obtain ⟨n, rfl⟩ := Nat.exists_eq_succ_of_ne_zero (Nat.ne_of_gt enough)
    have here : F x 0 = 0 := chain
    refine .inr ⟨by simp, ?_⟩
    simp [Heap.search, rep.load_first inside, here, lastCell, cellAddr]
  | cons v views ih =>
    obtain ⟨n, rfl⟩ := Nat.exists_eq_succ_of_ne_zero (Nat.ne_of_gt (Nat.zero_lt_of_lt enough))
    obtain ⟨here, ne, rest⟩ := chain
    have page := pages v List.mem_cons_self
    have there : ∀ y ∈ v.starts, y ∈ xs := sub v List.mem_cons_self
    have base := there v.base List.mem_cons_self
    have blocks : ∀ b ∈ v.free, b ∈ v.starts := fun b inside => by simp [PageView.starts, inside]
    have fit := rep.firstFit size page.free
      (fun b inside => ⟨there b (blocks b inside), page.header b (blocks b inside)⟩)
      (rep.length_lt (once v List.mem_cons_self) fun b inside => there b (blocks b inside))
    have step : h.search size x (n + 1) = (v.free.find? fun b => size < F b 2).elim
        (h.search size v.base n) fun block => some (.inr block) := by
      cases found : v.free.find? fun b => size < F b 2 <;>
        simp only [Heap.search, rep.load_first inside, here, Option.bind_eq_bind,
          Option.bind_some, if_neg ne, rep.load_second base (page.header _ List.mem_cons_self),
          fit, found, Option.elim_none, Option.elim_some]
    rw [step]
    cases found : v.free.find? fun b => size < F b 2 with
    | some b =>
      refine .inl ⟨v, List.mem_cons_self, b, List.mem_of_find?_eq_some found, ?_, rfl⟩
      simpa using List.find?_some found
    | none =>
      have small : ∀ b ∈ v.free, F b 2 ≤ size := by
        simpa using List.find?_eq_none.mp found
      rcases ih rest base (fun u inside => pages u (List.mem_cons_of_mem v inside))
        (fun u inside => sub u (List.mem_cons_of_mem v inside))
        (fun u inside => once u (List.mem_cons_of_mem v inside)) (by simpa using enough) with
        ⟨u, inside, fits⟩ | ⟨none, eq⟩
      · exact .inl ⟨u, List.mem_cons_of_mem v inside, fits⟩
      · refine .inr ⟨fun u inside => ?_, eq⟩
        rcases List.mem_cons.mp inside with rfl | inside
        · exact small
        · exact none u inside

/-- What malloc_pages promises: pages that nobody has. -/
structure FreshPages (h : Heap) (base bytes : Nat) : Prop where
  nonnull : base ≠ 0
  bound : base + bytes ≤ 2 ^ 64
  off : ∀ r ∈ h.held, r.1 + r.2 ≤ base ∨ base + bytes ≤ r.1

theorem Rep.newPage (rep : Rep h F ext xs) {pages e : Nat} (low : 4096 ≤ headerSize + e)
    (high : headerSize + e ≤ 4096 * pages) (fresh : FreshPages h base (4096 * pages)) :
    ∃ F' ext', Rep (h.hold base pages) F' ext' ((base + headerSize) :: base :: xs) ∧
      (∀ x ∈ xs, F' x = F x ∧ ext' x = ext x) ∧ ext' base = headerSize ∧
      ext' (base + headerSize) = e := by
  have hold : h.hold base pages = { h with held := (base, 4096 * pages) :: h.held } :=
    if_neg fresh.nonnull
  have rep₀ : Rep (h.hold base pages) F ext xs := by
    rw [hold]
    refine ⟨rep.apart, rep.word, fun x inside => ?_, fun r inside => ?_, rep.cells⟩
    · obtain ⟨r, held, place⟩ := rep.within x inside
      exact ⟨r, List.mem_cons_of_mem _ held, place⟩
    · rcases List.mem_cons.mp inside with rfl | inside
      · exact fresh.bound
      · exact rep.ends r inside
  have off : ∀ x ∈ xs, x + ext x ≤ base ∨ base + 4096 * pages ≤ x := by
    intro x inside
    obtain ⟨r, held, low, high⟩ := rep.within x inside
    rcases fresh.off r held with below | above
    · exact .inl (by omega)
    · exact .inr (by omega)
  have new : (base, 4096 * pages) ∈ (h.hold base pages).held := by
    rw [hold]
    exact List.mem_cons_self
  obtain ⟨F₁, ext₁, rep₁, same₁, base₁⟩ := rep₀.addNew (y := base) (e := headerSize) (by decide)
    (fun x inside => (off x inside).imp id fun above => by omega)
    ⟨_, new, Nat.le_refl _, by simp only; omega⟩
  obtain ⟨F₂, ext₂, rep₂, same₂, block₂⟩ := rep₁.addNew (y := base + headerSize) (e := e)
    (by unfold headerSize at low; omega)
    (fun x inside => by
      rcases List.mem_cons.mp inside with rfl | inside
      · exact .inl (by rw [base₁])
      · rw [(same₁ x inside).2]
        exact (off x inside).imp (fun below => by omega) fun above => by omega)
    ⟨_, new, Nat.le_add_right _ _, by simp only; omega⟩
  refine ⟨F₂, ext₂, rep₂, fun x inside => ?_, ?_, block₂⟩
  · obtain ⟨field, size⟩ := same₂ x (List.mem_cons_of_mem base inside)
    exact ⟨field.trans (same₁ x inside).1, size.trans (same₁ x inside).2⟩
  · rw [(same₂ base List.mem_cons_self).2, base₁]

/-- The fields after the page at `base` is linked to the cell of `c`. -/
def initFields (F : Fields) (c base : Nat) : Fields :=
  let block := base + headerSize
  store (store (store (store (store (store (store F c 0 base) block 0 0)
    block 2 (4096 - headerSize - headerSize)) block 1 base) base 0 0) base 1 block) base 2 0

theorem Rep.initPage {c : Nat} (rep : Rep h F ext ((base + headerSize) :: base :: xs))
    (inside : c ∈ xs) (header : headerSize ≤ ext base)
    (room : headerSize ≤ ext (base + headerSize)) :
    ∃ h', h.initPage c base = some (base + headerSize, h') ∧
      h.Kept ((base + headerSize) :: base :: xs) h' ∧
      Rep h' (initFields F c base) ext ((base + headerSize) :: base :: xs) := by
  have bound := rep.bound (x := base + headerSize) List.mem_cons_self
  have block : base + headerSize ∈ (base + headerSize) :: base :: xs := List.mem_cons_self
  have page : base ∈ (base + headerSize) :: base :: xs := by simp
  have small : base + headerSize < 2 ^ 64 := by
    simp only [headerSize] at room bound ⊢
    omega
  have low : base < 2 ^ 64 := by omega
  obtain ⟨h₁, eq₁, kept₁, rep₁⟩ := rep.store_first (x := c) (by simp [inside]) low
  obtain ⟨h₂, eq₂, kept₂, rep₂⟩ := rep₁.store_first block (w := 0) (by decide)
  obtain ⟨h₃, eq₃, kept₃, rep₃⟩ := rep₂.store_third block room
    (w := 4096 - headerSize - headerSize) (by decide)
  obtain ⟨h₄, eq₄, kept₄, rep₄⟩ := rep₃.store_second block room low
  obtain ⟨h₅, eq₅, kept₅, rep₅⟩ := rep₄.store_first page (w := 0) (by decide)
  obtain ⟨h₆, eq₆, kept₆, rep₆⟩ := rep₅.store_second page header small
  obtain ⟨h₇, eq₇, kept₇, rep₇⟩ := rep₆.store_third page header (w := 0) (by decide)
  refine ⟨h₇, ?_, kept₁.trans (kept₂.trans (kept₃.trans (kept₄.trans (kept₅.trans
    (kept₆.trans kept₇))))), rep₇⟩
  simp only [Heap.initPage, eq₁, eq₂, eq₃, eq₄, eq₅, eq₆, eq₇, Option.bind_eq_bind,
    Option.bind_some]

section NewPage

variable {c x : Nat}

theorem initFields_other (page : x ≠ base) (block : x ≠ base + headerSize) :
    initFields F c base x = store F c 0 base x := by
  simp only [initFields, store_other_frame page, store_other_frame block]

theorem initFields_new (F : Fields) (c base : Nat) :
    initFields F c base base 0 = 0 ∧ initFields F c base base 1 = base + headerSize ∧
    initFields F c base base 2 = 0 ∧ initFields F c base (base + headerSize) 0 = 0 ∧
    initFields F c base (base + headerSize) 1 = base ∧
    initFields F c base (base + headerSize) 2 = 4048 := by
  simp [initFields, store, headerSize]

/-- What a new page at `base` leaves as it is, and the block that comes with it. -/
structure PageAdded (views : List PageView) (F F' : Fields) (ext ext' : Nat → Nat) (base e : Nat) :
    Prop where
  blocks : ∀ v ∈ views, ∀ b ∈ v.free ++ v.allocated, F' b = F b
  same : ∀ v ∈ views, ∀ x ∈ v.starts, ext' x = ext x
  length : F' (base + headerSize) 2 = 4096 - headerSize - headerSize
  page : ext' base = headerSize
  own : ext' (base + headerSize) = e

abbrev withPage (views : List PageView) (base : Nat) : List PageView :=
  views ++ [⟨base, [base + headerSize], []⟩]

theorem withPage_starts (root : Nat) (views : List PageView) (base : Nat) :
    ((base + headerSize) :: base :: starts root views).Perm
      (starts root (withPage views base)) := by
  have flat : starts root (withPage views base) =
      starts root views ++ [base, base + headerSize] := by
    simp [starts, PageView.starts]
  have comm : ([base, base + headerSize] ++ starts root views).Perm
      (starts root views ++ [base, base + headerSize]) := List.perm_append_comm
  rw [flat]
  exact (List.Perm.swap ..).trans comm

theorem lastBase (root : Nat) (views : List PageView) :
    ∃ c, lastCell 0 root (0 : Fin 3) (views.map PageView.base) = (c, 0) ∧
      c ∈ root :: views.map PageView.base := by
  rcases lastCell_mem (0 : Fin 3) root 0 (views.map PageView.base) with eq | ⟨c, inside, eq⟩
  · exact ⟨root, eq, List.mem_cons_self⟩
  · exact ⟨c, eq, List.mem_cons_of_mem _ inside⟩

theorem initFields_inv (page : ext base = headerSize)
    (block : 4096 - headerSize ≤ ext (base + headerSize)) :
    PageInv (initFields F c base) ext ⟨base, [base + headerSize], []⟩ := by
  have new := initFields_new F c base
  refine ⟨⟨new.2.1, ?_, new.2.2.2.1⟩, new.2.2.1, ?_, ?_, ?_⟩
  · simp [headerSize]
  · simpa using new.2.2.2.2.1
  · simp only [PageView.starts, List.append_nil, List.mem_cons, List.not_mem_nil, or_false,
      forall_eq_or_imp, forall_eq]
    exact ⟨Nat.le_of_eq page.symm, Nat.le_trans (by decide) block⟩
  · simp only [List.mem_singleton, forall_eq, new.2.2.2.2.2]
    exact block

theorem HeapInv.newPage (inv : HeapInv root h F ext live views) {pages e : Nat}
    (low : 4096 ≤ headerSize + e) (high : headerSize + e ≤ 4096 * pages)
    (fresh : FreshPages h base (4096 * pages)) :
    ∃ h' F' ext', (h.hold base pages).initPage
        (cellAddr (lastCell 0 root 0 (views.map PageView.base))) base =
          some (base + headerSize, h') ∧
      HeapInv root h' F' ext' live (withPage views base) ∧
      PageAdded views F F' ext ext' base e ∧
      (h.hold base pages).Kept (starts root (withPage views base)) h' := by
  obtain ⟨F₁, ext₁, rep₁, same, page₁, block₁⟩ := inv.rep.newPage low high fresh
  have once := inv.rep.nodup
  have bases := bases_nodup once
  obtain ⟨c, cell, link⟩ := lastBase root views
  have header : headerSize ≤ ext₁ (base + headerSize) := by
    rw [block₁]
    unfold headerSize at low ⊢
    omega
  obtain ⟨h', eq, kept, rep'⟩ := rep₁.initPage (base_start link) (Nat.le_of_eq page₁.symm) header
  have other : ∀ x ∈ starts root views, initFields F₁ c base x = store F₁ c 0 base x := by
    intro x inside
    obtain ⟨block, rest⟩ := List.nodup_cons.mp rep₁.nodup
    refine initFields_other ?_ ?_
    · rintro rfl
      exact (List.nodup_cons.mp rest).1 inside
    · rintro rfl
      exact block (List.mem_cons_of_mem _ inside)
  have field : ∀ x ∈ starts root views, ∀ k ≠ 0, initFields F₁ c base x k = F x k := by
    intro x inside k ne
    rw [other x inside, store_other_index ne, (same x inside).1]
  have block : ∀ v ∈ views, ∀ b ∈ v.free ++ v.allocated, initFields F₁ c base b = F b := by
    intro v inside b there
    have old : b ∈ starts root views := mem_starts inside (List.mem_cons_of_mem v.base there)
    rw [other b old, store_other_frame (block_ne_base once inside there link), (same b old).1]
  have new := initFields_new F₁ c base
  have perm := withPage_starts root views base
  have added : PageAdded views F (initFields F₁ c base) ext ext₁ base e :=
    ⟨block, fun v inside x there => (same x (mem_starts inside there)).2, new.2.2.2.2.2, page₁,
      block₁⟩
  -- the chain ends in the cell that now leads to the new page; all older pages keep their fields
  refine ⟨h', initFields F₁ c base, ext₁, by rw [cell]; exact eq,
    ⟨rep'.perm perm, ?_, fun v inside => ?_, fun v inside => ?_, fun l inside => ?_, inv.once⟩,
    added, kept.mono fun x inside => perm.mem_iff.mp inside⟩
  · rw [List.map_append]
    refine hung_append.mpr ⟨?_, fresh.nonnull, new.1⟩
    have before : Hung 0 0 F₁ root 0 (views.map PageView.base) 0 := by
      refine (hung_congr ?_ fun x inside => ?_).mpr inv.chain
      · rw [(same root List.mem_cons_self).1]
      · rw [(same x (base_start (List.mem_cons_of_mem _ inside))).1]
    have last := hung_last (u := base) before (List.nodup_cons.mp bases).2
      (.inl (List.nodup_cons.mp bases).1)
    rw [cell] at last
    refine (hung_congr ?_ fun x inside => ?_).mpr last
    · rw [other root List.mem_cons_self]
    · rw [other x (base_start (List.mem_cons_of_mem _ inside))]
  · rcases List.mem_append.mp inside with old | last
    · have sub : ∀ x ∈ v.starts, x ∈ starts root views := fun x there => mem_starts old there
      exact (inv.pages v old).congr (field v.base (sub _ List.mem_cons_self)) (block v old)
        fun x there => (same x (sub x there)).2
    · obtain rfl := List.mem_singleton.mp last
      exact initFields_inv page₁ (by rw [block₁]; omega)
  · rw [kept.held, Heap.hold, if_neg fresh.nonnull]
    rcases List.mem_append.mp inside with old | last
    · exact (inv.homes v old).congr (fun r range => List.mem_cons_of_mem _ range)
        fun x there => (same x (mem_starts old there)).2
    · obtain rfl := List.mem_singleton.mp last
      refine ⟨4096 * pages, List.mem_cons_self, ?_⟩
      simp only [PageView.starts, List.append_nil, List.mem_cons, List.not_mem_nil, or_false,
        forall_eq_or_imp, forall_eq, page₁, block₁]
      omega
  · obtain ⟨v, there, live⟩ := inv.placed l inside
    refine ⟨v, List.mem_append_left _ there, live.congr fun b allocated => ⟨?_, ?_⟩⟩
    · rw [block v there b (List.mem_append_right _ allocated)]
    · exact (same b (mem_starts there (by simp [PageView.starts, allocated]))).2

end NewPage

/-- No free block of the heap is larger than `size`. -/
def NoFit (F : Fields) (views : List PageView) (size : Nat) : Prop :=
  ∀ v ∈ views, ∀ b ∈ v.free, F b 2 ≤ size

theorem pagesFor_pos (size : Nat) : 0 < pagesFor size :=
  Nat.lt_of_lt_of_le (by decide) (Nat.le_max_left minAllocPages _)

theorem HeapInv.search (inv : HeapInv root h F ext live views) (size : Nat) :
    (∃ v ∈ views, ∃ b ∈ v.free, size < F b 2 ∧ h.search size root walkBound = some (.inr b)) ∨
      NoFit F views size ∧ h.search size root walkBound =
        some (.inl (cellAddr (lastCell 0 root 0 (views.map PageView.base)))) := by
  have once := inv.rep.nodup
  have views_lt : views.length < walkBound := by
    have lt := inv.rep.length_lt (List.nodup_cons.mp (bases_nodup once)).2 fun x inside => by
      obtain ⟨v, there, rfl⟩ := List.mem_map.mp inside
      exact mem_starts there List.mem_cons_self
    simpa using lt
  have free_nodup : ∀ v ∈ views, v.free.Nodup := fun v inside =>
    (List.nodup_append.mp (List.nodup_cons.mp (view_nodup once inside)).2).1
  exact inv.rep.search size inv.chain List.mem_cons_self inv.pages
    (fun v inside y there => mem_starts inside there) free_nodup views_lt

/-- How find_free leaves the heap, and the block it returns: nothing has changed, or there is a
new page whose block owns `e` bytes. -/
inductive FreeFound (root : Nat) (h : Heap) (F : Fields) (ext : Nat → Nat) (views : List PageView)
    (size base e : Nat) : Heap → Fields → (Nat → Nat) → List PageView → Nat → Prop
  | listed {b : Nat} (large : size < F b 2) :
      FreeFound root h F ext views size base e h F ext views b
  | added {h₁ : Heap} {F₁ : Fields} {ext₁ : Nat → Nat} (small : NoFit F views size)
      (page : PageAdded views F F₁ ext ext₁ base e)
      (kept : (h.hold base (pagesFor size)).Kept (starts root (withPage views base)) h₁) :
      FreeFound root h F ext views size base e h₁ F₁ ext₁ (withPage views base) (base + headerSize)

theorem findFree_found (inv : HeapInv root h F ext live views) {e : Nat}
    (fresh : NoFit F views size → FreshPages h base (4096 * pagesFor size))
    (low : 4096 ≤ headerSize + e) (high : headerSize + e ≤ 4096 * pagesFor size) :
    ∃ h₁ F₁ ext₁ views₁ v b, FreeFound root h F ext views size base e h₁ F₁ ext₁ views₁ b ∧
      HeapInv root h₁ F₁ ext₁ live views₁ ∧ v ∈ views₁ ∧ b ∈ v.free ∧
      findFree root size base h = some (b, h₁) := by
  rcases inv.search size with ⟨v, inside, b, free, large, eq⟩ | ⟨small, eq⟩
  · refine ⟨h, F, ext, views, v, b, .listed large, inv, inside, free, ?_⟩
    simp only [findFree, eq, Option.bind_eq_bind, Option.bind_some]
  · obtain ⟨h', F', ext', init, inv', added, kept⟩ := inv.newPage low high (fresh small)
    refine ⟨h', F', ext', _, _, _, .added small added kept, inv',
      List.mem_append_right _ (List.mem_singleton_self _), List.mem_singleton_self _, ?_⟩
    simp only [findFree, eq, Option.bind_eq_bind, Option.bind_some, init]

section Whole

variable {A B : List Nat} {b : Nat}

/-- The block as the last one of the allocated list. -/
def PageView.taken (v : PageView) (A B : List Nat) (b : Nat) : PageView :=
  { v with free := A ++ B, allocated := v.allocated ++ [b] }

theorem taken_perm (split : v.free = A ++ b :: B) : v.starts.Perm (v.taken A B b).starts := by
  simp only [PageView.starts, PageView.taken, split]
  refine .cons _ ?_
  have right : A ++ B ++ (v.allocated ++ [b]) = A ++ (B ++ v.allocated) ++ [b] := by simp
  rw [right, List.append_assoc, List.cons_append]
  exact List.perm_middle.trans (List.perm_append_singleton ..).symm

theorem takeWhole_step (inv : HeapInv root h F ext live (V ++ v :: W))
    (split : v.free = A ++ b :: B) (fits : headerSize + size ≤ ext b) :
    ∃ h' F', h.takeWhole b v.base = some (b + headerSize, h') ∧
      HeapInv root h' F' ext ((b + headerSize, size) :: live) (V ++ v.taken A B b :: W) ∧
      Relinked v F F' ∧ h.Kept (starts root (V ++ v :: W)) h' := by
  have here : v ∈ V ++ v :: W := by simp
  have once := view_nodup inv.rep.nodup here
  have page := inv.pages v here
  have sub : ∀ x ∈ v.starts, x ∈ starts root (V ++ v :: W) := fun x inside => mem_starts here inside
  obtain ⟨_, _, apart⟩ := List.nodup_append.mp (List.nodup_cons.mp once).2
  have free : b ∈ v.free := by simp [split]
  have block : b ∈ v.free ++ v.allocated := List.mem_append_left _ free
  have there : b ∈ starts root (V ++ v :: W) := sub b (List.mem_cons_of_mem _ block)
  have hung := page.free
  rw [split] at hung
  have part : (A ++ b :: B).Sublist (v.free ++ v.allocated) := split ▸ List.sublist_append_left ..
  obtain ⟨h₁, walk₁, load₁, eq₁, kept₁, rep₁, free₁⟩ := unlink_block once inv.rep sub page.header
    (k := 1) (by decide) hung part
  obtain ⟨h₂, eq₂, kept₂, rep₂⟩ := rep₁.store_first there (w := 0) (by decide)
  have fresh : b ∉ v.allocated := fun inside => apart b free b inside rfl
  have link₁ : IsLink v (lastLink v.base 1 A) := isLink_last (by decide) fun a inside =>
    part.subset (List.mem_append_left _ inside)
  have unlinked : ∀ F₀ : Fields, ∀ u, Hung 0 0 (store (setLink F₀ (lastLink v.base 1 A) u) b 0 0)
      v.base 2 v.allocated 0 ↔ Hung 0 0 F₀ v.base 2 v.allocated 0 := by
    intro F₀ u
    refine (hung_frame (fun hit => absurd hit.2 (by decide)) ?_).trans ?_
    · exact fun y inside hit => fresh (hit.1 ▸ inside)
    · refine hung_other (by decide) (by decide) (by decide) fun a inside there => ?_
      exact apart a (split ▸ List.mem_append_left _ inside) a there rfl
  obtain ⟨h₃, walk₃, eq₃, kept₃, rep₃, alloc₃⟩ := push_allocated once rep₂ sub page.header
    ((unlinked F (F b 0)).mpr page.allocated) there (seg_ne page.free b free) (store_same ..) fresh
  have self : IsLink v (b, 0) := .inr ⟨block, rfl⟩
  have link₃ : IsLink v (lastLink v.base 2 v.allocated) :=
    isLink_last (by decide) fun a inside => List.mem_append_right _ inside
  have free₃ : Hung 0 0 (setLink (store (setLink F (lastLink v.base 1 A) (F b 0)) b 0 0)
      (lastLink v.base 2 v.allocated) b) v.base 1 (A ++ B) 0 := by
    have without : b ∉ A ++ B := by
      have nodup := part.nodup (List.nodup_cons.mp once).2
      exact (List.nodup_cons.mp (List.nodup_middle.mp nodup)).1
    refine (hung_other (by decide) (by decide) (by decide) fun a inside there => ?_).mpr
      ((hung_frame (fun hit => absurd hit.2 (by decide)) fun a inside hit => ?_).mpr free₁)
    · refine apart a ?_ a inside rfl
      rw [split]
      simp only [List.mem_append, List.mem_cons] at there ⊢
      tauto
    · exact without (hit.1 ▸ inside)
  have kept := kept₁.trans (kept₂.trans kept₃)
  have rel := ((link₁.relinked once F (F b 0)).trans (self.relinked once _ 0)).trans
    (link₃.relinked once _ b)
  refine ⟨h₃, _, ?_, inv.relink kept.held rep₃ rel rfl (taken_perm split) free₃ alloc₃
    (fun x inside => page.room x ?_) (fun l inside => ?_) ?_, rel, kept⟩
  · have walk₁' : h.cellOf b (v.base + 8) walkBound = some (cellAddr (lastLink v.base 1 A)) := walk₁
    simp only [Heap.takeWhole, walk₁', load₁, eq₁, eq₂, walk₃, eq₃, Option.bind_eq_bind,
      Option.bind_some]
  · rw [split]
    simp only [PageView.taken, List.mem_append, List.mem_cons] at inside ⊢
    tauto
  · rcases List.mem_cons.mp inside with rfl | inside
    · exact .inl ⟨b, by simp [PageView.taken], rfl, page.room b free, fits⟩
    · refine (inv.placed_cases inside).imp ?_ id
      rintro ⟨x, there, place⟩
      exact ⟨x, by simp [PageView.taken, there], place⟩
  · rw [List.map_cons, List.nodup_cons]
    exact ⟨inv.free_not_live here free, inv.once⟩

end Whole

section Cut

variable {b y rest : Nat}

theorem Rep.splitOff (rep : Rep h F ext xs) (inside : b ∈ xs) (place : y = b + headerSize + rest)
    (enough : headerSize + rest + headerSize + size ≤ ext b) :
    ∃ F' ext', Rep h F' ext' (y :: xs) ∧ y ∉ xs ∧ (∀ x ∈ xs, F' x = F x) ∧
      (∀ x ∈ xs, x ≠ b → ext' x = ext x) ∧ ext' b = headerSize + rest ∧
      ext' y = headerSize + size := by
  have perm := List.perm_cons_erase inside
  have apart := rep.apart.perm perm
  have header : headerSize = 24 := rfl
  have out : y ∉ xs := by
    intro there
    have word := rep.word y there
    rcases rep.apart.off inside there (by omega) with below | above <;> omega
  have other : ∀ x ∈ xs, x ≠ y := fun x there same => out (same ▸ there)
  obtain ⟨ext', def'⟩ : ∃ ext', ext' = Function.update
    (Function.update ext b (headerSize + rest)) y (headerSize + size) := ⟨_, rfl⟩
  have own : ext' y = headerSize + size := by rw [def', Function.update_self]
  have left : ext' b = headerSize + rest := by
    rw [def', Function.update_of_ne (other b inside), Function.update_self]
  have same : ∀ x ∈ xs, x ≠ b → ext' x = ext x := by
    intro x there ne
    rw [def', Function.update_of_ne (other x there), Function.update_of_ne ne]
  have erased : ∀ x ∈ xs.erase b, ext' x = ext x := fun x there => by
    obtain ⟨ne, there⟩ := (rep.nodup.mem_erase_iff).mp there
    exact same x there ne
  have less : ∀ x ∈ xs, 8 ≤ ext' x ∧ ext' x ≤ ext x := by
    intro x there
    by_cases eq : x = b
    · rw [eq, left]
      omega
    · rw [same x there eq]
      exact ⟨rep.word x there, Nat.le_refl _⟩
  refine ⟨_, ext', rep.add ?_ ?_ (fun x there => (less x there).2) ?_, out, fun x there => ?_, same,
    left, own⟩
  · exact (apart.split erased (by omega) (by omega)).perm (.cons y perm.symm)
  · intro x there
    rcases List.mem_cons.mp there with rfl | there
    · omega
    · exact (less x there).1
  · obtain ⟨r, held, low, high⟩ := rep.within b inside
    exact ⟨r, held, by omega, by omega⟩
  · exact Function.update_of_ne (other x there) ..

def cutFields (F : Fields) (y pghdr size : Nat) : Fields :=
  store (store (store F y 0 0) y 1 pghdr) y 2 size

theorem cutFields_other {x : Nat} (F : Fields) (pghdr : Nat) (ne : x ≠ y) :
    cutFields F y pghdr size x = F x := by
  simp only [cutFields, store_other_frame ne]

theorem link_cut (once : v.starts.Nodup) (rep : Rep h F ext (y :: xs))
    (sub : ∀ x ∈ v.starts, x ∈ xs) (out : y ∉ xs) (header : ∀ x ∈ v.starts, headerSize ≤ ext x)
    (nonnull : y ≠ 0) (own : headerSize + size ≤ ext y)
    (hung : Hung 0 0 F v.base 2 v.allocated 0) :
    ∃ h', (do
        let h ← h.store y 0
        let h ← h.store (y + 8) v.base
        let h ← h.store (y + 16) size
        let tail ← h.cellOf 0 (v.base + 16) walkBound
        let h ← h.store tail y
        some (y + headerSize, h)) = some (y + headerSize, h') ∧ h.Kept (y :: xs) h' ∧
      Rep h' (setLink (cutFields F y v.base size) (lastLink v.base 2 v.allocated) y) ext (y :: xs) ∧
      Hung 0 0 (setLink (cutFields F y v.base size) (lastLink v.base 2 v.allocated) y) v.base 2
        (v.allocated ++ [y]) 0 := by
  have here : y ∈ y :: xs := List.mem_cons_self
  have sub' : ∀ x ∈ v.starts, x ∈ y :: xs := fun x inside => List.mem_cons_of_mem _ (sub x inside)
  have ne : ∀ x ∈ v.starts, x ≠ y := fun x inside same => out (same ▸ sub x inside)
  have bound := rep.bound here
  have base := rep.bound (sub' v.base List.mem_cons_self)
  have room := header v.base List.mem_cons_self
  have eight : headerSize = 24 := rfl
  obtain ⟨h₁, eq₁, kept₁, rep₁⟩ := rep.store_first here (w := 0) (by decide)
  obtain ⟨h₂, eq₂, kept₂, rep₂⟩ := rep₁.store_second here (by omega) (w := v.base) (by omega)
  obtain ⟨h₃, eq₃, kept₃, rep₃⟩ := rep₂.store_third here (by omega) (w := size) (by omega)
  have hung₃ : Hung 0 0 (cutFields F y v.base size) v.base 2 v.allocated 0 := by
    refine (hung_congr ?_ fun x inside => ?_).mpr hung
    · rw [cutFields_other F v.base (ne v.base List.mem_cons_self)]
    · rw [cutFields_other F v.base (ne x (by simp [PageView.starts, inside]))]
  obtain ⟨h₄, walk₄, eq₄, kept₄, rep₄, alloc₄⟩ :=
    push_allocated once rep₃ sub' header hung₃ here nonnull
    (by simp [store]) fun inside => ne y (by simp [PageView.starts, inside]) rfl
  refine ⟨h₄, ?_, kept₁.trans (kept₂.trans (kept₃.trans kept₄)), rep₄, alloc₄⟩
  simp only [eq₁, eq₂, eq₃, walk₄, eq₄, Option.bind_eq_bind, Option.bind_some]

/-- What the cut does to a page: `b` keeps `rest` bytes and `y` has the others. -/
structure CutOff (v : PageView) (F F' : Fields) (ext ext' : Nat → Nat) (b y rest size : Nat) :
    Prop where
  kept : ∀ x ∈ v.free ++ v.allocated, ∀ k ≠ 0, ¬ (x = b ∧ k = 2) → F' x k = F x k
  length : F' b 2 = rest
  owner : F' y 1 = v.base
  asked : F' y 2 = size
  same : ∀ x ∈ v.starts, x ≠ b → ext' x = ext x
  left : ext' b = headerSize + rest
  own : ext' y = headerSize + size

section CutOff

variable {F' : Fields} {ext' : Nat → Nat}

theorem cut_header (header : ∀ x ∈ v.starts, headerSize ≤ ext x)
    (same : ∀ x ∈ v.starts, x ≠ b → ext' x = ext x) (left : ext' b = headerSize + rest) :
    ∀ x ∈ v.starts, headerSize ≤ ext' x := by
  intro x inside
  by_cases hit : x = b
  · rw [hit, left]
    omega
  · rw [same x inside hit]
    exact header x inside

variable (cut : CutOff v F F' ext ext' b y rest size)
include cut

theorem CutOff.homed {held : List (Nat × Nat)} (home : Homed held ext v) (block : b ∈ v.starts)
    (place : y = b + headerSize + rest)
    (enough : headerSize + rest + headerSize + size ≤ ext b) :
    Homed held ext' { v with allocated := v.allocated ++ [y] } := by
  obtain ⟨bytes, range, within⟩ := home
  have old := within b block
  have left := cut.left
  have own := cut.own
  refine ⟨bytes, range, fun x inside => ?_⟩
  rw [show PageView.starts { v with allocated := v.allocated ++ [y] } = v.starts ++ [y] by
    simp [PageView.starts], List.mem_append, List.mem_singleton] at inside
  show v.base ≤ x ∧ x + ext' x ≤ v.base + bytes
  rcases inside with inside | rfl
  · by_cases hit : x = b
    · rw [hit]
      omega
    · rw [cut.same x inside hit]
      exact within x inside
  · omega

theorem CutOff.page (page : PageInv F ext v) (free : Hung 0 0 F' v.base 1 v.free 0)
    (allocated : Hung 0 0 F' v.base 2 (v.allocated ++ [y]) 0) :
    PageInv F' ext' { v with allocated := v.allocated ++ [y] } := by
  refine ⟨free, allocated, fun x inside => ?_, fun x inside => ?_, fun x inside => ?_⟩
  · simp only [← List.append_assoc, List.mem_append (t := [y]), List.mem_singleton] at inside
    rcases inside with inside | rfl
    · rw [cut.kept x inside 1 (by decide) fun hit => absurd hit.2 (by decide)]
      exact page.owner x inside
    · exact cut.owner
  · simp only [PageView.starts, ← List.append_assoc, ← List.cons_append,
      List.mem_append (t := [y]), List.mem_singleton] at inside
    rcases inside with inside | rfl
    · exact cut_header page.header cut.same cut.left x inside
    · rw [cut.own]
      omega
  · have inside' := List.mem_append_left v.allocated inside
    by_cases hit : x = b
    · rw [hit, cut.length, cut.left]
    · rw [cut.kept x inside' 2 (by decide) fun both => hit both.1,
        cut.same x (List.mem_cons_of_mem _ inside') hit]
      exact page.room x inside

theorem CutOff.liveIn {l : Nat × Nat} (other : b ∉ v.allocated) (live : LiveIn F ext v l) :
    LiveIn F' ext' { v with allocated := v.allocated ++ [y] } l := by
  obtain ⟨x, there, ptr, fits, long⟩ := live
  have inside := List.mem_append_right v.free there
  have ne : x ≠ b := fun same => other (same ▸ there)
  have same := cut.same x (List.mem_cons_of_mem _ inside) ne
  refine ⟨x, List.mem_append_left _ there, ptr, ?_, ?_⟩
  · rw [cut.kept x inside 2 (by decide) fun hit => ne hit.1, same]
    exact fits
  · rw [same]
    exact long

theorem CutOff.exact (exact : Exact F ext v) (block : b ∈ v.free ++ v.allocated)
    (other : b ≠ v.base) (place : y = b + headerSize + rest)
    (enough : rest + headerSize + size = F b 2) :
    Exact F' ext' { v with allocated := v.allocated ++ [y] } := by
  have whole := exact.own b block
  have left := cut.left
  have own := cut.own
  have members : ∀ x, x ∈ v.free ++ (v.allocated ++ [y]) ↔ x ∈ v.free ++ v.allocated ∨ x = y := by
    intro x
    simp [or_assoc]
  refine ⟨?_, fun x inside => ?_, fun a => ?_⟩
  · rw [cut.same v.base List.mem_cons_self other.symm]
    exact exact.page
  · rcases (members x).mp inside with old | rfl
    · by_cases hit : x = b
      · rw [hit, left, cut.length]
      · rw [cut.same x (List.mem_cons_of_mem _ old) hit,
          cut.kept x old 2 (by decide) fun both => hit both.1]
        exact exact.own x old
    · rw [own, cut.asked]
  · rw [← exact.covers a]
    constructor
    · rintro ⟨x, inside, low, high⟩
      rcases (members x).mp inside with old | rfl
      · by_cases hit : x = b
        · subst hit
          exact ⟨x, old, low, by omega⟩
        · rw [cut.same x (List.mem_cons_of_mem _ old) hit] at high
          exact ⟨x, old, low, high⟩
      · exact ⟨b, block, by omega, by omega⟩
    · rintro ⟨x, old, low, high⟩
      by_cases hit : x = b
      · subst hit
        by_cases before : a < y
        · exact ⟨x, (members x).mpr (.inl old), low, by omega⟩
        · exact ⟨y, (members y).mpr (.inr rfl), by omega, by omega⟩
      · rw [← cut.same x (List.mem_cons_of_mem _ old) hit] at high
        exact ⟨x, (members x).mpr (.inl old), low, high⟩

end CutOff

theorem HeapInv.once_cons (inv : HeapInv root h F ext live views) (out : y ∉ starts root views)
    (size : Nat) : (((y + headerSize, size) :: live).map Prod.fst).Nodup := by
  rw [List.map_cons, List.nodup_cons]
  refine ⟨fun used => ?_, inv.once⟩
  obtain ⟨l, live, ptr⟩ := List.mem_map.mp used
  obtain ⟨u, inside, x, there, eq, _⟩ := inv.placed l live
  obtain rfl : x = y := Nat.add_right_cancel (eq.symm.trans ptr)
  exact out (mem_starts inside (by simp [PageView.starts, there]))

abbrev PageView.pushed (v : PageView) (y : Nat) : PageView :=
  { v with allocated := v.allocated ++ [y] }

theorem pushed_starts (root : Nat) (V W : List PageView) (v : PageView) (y : Nat) :
    (y :: starts root (V ++ v :: W)).Perm ((v.pushed y).starts ++ starts root (V ++ W)) := by
  have ends : (v.pushed y).starts = v.starts ++ [y] := by simp [PageView.starts]
  rw [ends, List.append_assoc]
  exact ((starts_perm root V W v).cons y).trans List.perm_middle.symm

theorem cut_step (inv : HeapInv root h F ext live (V ++ v :: W)) (free : b ∈ v.free)
    (enough : rest + headerSize + size = F b 2) (place : y = b + headerSize + rest) :
    ∃ h' F' ext', h.cut b v.base size rest = some (y + headerSize, h') ∧
      HeapInv root h' F' ext' ((y + headerSize, size) :: live) (V ++ v.pushed y :: W) ∧
      CutOff v F F' ext ext' b y rest size ∧
      (∀ x ∈ starts root (V ++ W), F' x = F x ∧ ext' x = ext x) ∧
      h.Kept (starts root (V ++ v.pushed y :: W)) h' := by
  have here : v ∈ V ++ v :: W := by simp
  have once := view_nodup inv.rep.nodup here
  have page := inv.pages v here
  have sub : ∀ x ∈ v.starts, x ∈ starts root (V ++ v :: W) := fun x inside => mem_starts here inside
  have block : b ∈ v.free ++ v.allocated := List.mem_append_left _ free
  have there := sub b (List.mem_cons_of_mem _ block)
  have lists := (List.nodup_append.mp (List.nodup_cons.mp once).2).2.2
  have room := page.room b free
  have eight : headerSize = 24 := rfl
  obtain ⟨h₁, eq₁, kept₁, rep₁⟩ := inv.rep.store_third there (by omega) (w := rest)
    (by have := inv.rep.bound there; omega)
  have whole : headerSize + rest + headerSize + size ≤ ext b := by omega
  -- the length of `b` is lowered first, so that the new header lies in nobody's piece
  obtain ⟨F₂, ext₂, rep₂, out, same, kept, left, own⟩ := rep₁.splitOff there place whole
  have base : v.base ≠ b := (base_ne_block once block).symm
  have field : ∀ x ∈ starts root (V ++ v :: W), ∀ k, ¬ (x = b ∧ k = 2) → F₂ x k = F x k :=
    fun x inside k ne => by rw [same x inside, store_other ne]
  have header := cut_header page.header (fun x inside => kept x (sub x inside)) left
  have heads := sub v.base List.mem_cons_self
  have blocks : ∀ x ∈ v.free ++ v.allocated, x ∈ starts root (V ++ v :: W) := fun x inside =>
    sub x (List.mem_cons_of_mem _ inside)
  have hung₂ : Hung 0 0 F₂ v.base 2 v.allocated 0 := by
    refine (hung_congr (field _ heads 2 fun hit => base hit.1) fun x inside => ?_).mpr
      page.allocated
    exact field x (blocks x (List.mem_append_right _ inside)) 0 fun hit => absurd hit.2 (by decide)
  obtain ⟨h', eq, kept', rep', alloc'⟩ := link_cut once rep₂ sub out header (by omega)
    (Nat.le_of_eq own.symm) hung₂
  have rel := (isLink_last (k := 2) (by decide) fun a inside =>
    List.mem_append_right v.free inside).relinked once (cutFields F₂ y v.base size) y
  have old : ∀ x ∈ starts root (V ++ v :: W), cutFields F₂ y v.base size x = F₂ x :=
    fun x inside => cutFields_other F₂ v.base fun same => out (same ▸ inside)
  have new := rel.out y fun inside => out (sub y inside)
  have cut : CutOff v F (setLink (cutFields F₂ y v.base size) (lastLink v.base 2 v.allocated) y)
      ext ext₂ b y rest size := by
    refine ⟨fun x inside k ne hit => ?_, ?_, ?_, ?_, fun x inside => kept x (sub x inside), left,
      own⟩
    · rw [rel.kept x inside k ne, old x (blocks x inside), field x (blocks x inside) k hit]
    · rw [rel.kept b block 2 (by decide), old b there, same b there, store_same]
    · rw [new]
      simp [cutFields, store]
    · rw [new]
      simp [cutFields]
  have free' : Hung 0 0 (setLink (cutFields F₂ y v.base size) (lastLink v.base 2 v.allocated) y)
      v.base 1 v.free 0 := by
    refine (hung_other (by decide) (by decide) (by decide) fun a inside there => ?_).mpr
      ((hung_congr ?_ fun x inside => ?_).mpr page.free)
    · exact lists a there a inside rfl
    · rw [old _ heads, field _ heads 1 fun hit => base hit.1]
    · have inside' := blocks x (List.mem_append_left _ inside)
      rw [old x inside', field x inside' 0 fun hit => absurd hit.2 (by decide)]
  have away : ∀ x ∈ starts root (V ++ W), x ∈ starts root (V ++ v :: W) ∧ x ≠ b := fun x inside =>
    ⟨(starts_perm root V W v).mem_iff.mpr (List.mem_append_right _ inside), fun same =>
      rest_out inv.rep.nodup inside (same ▸ List.mem_cons_of_mem _ block)⟩
  have perm := pushed_starts root V W v y
  have others : ∀ x ∈ starts root (V ++ W),
      setLink (cutFields F₂ y v.base size) (lastLink v.base 2 v.allocated) y x = F x ∧
        ext₂ x = ext x := by
    intro x inside
    obtain ⟨inside', ne⟩ := away x inside
    refine ⟨?_, kept x inside' ne⟩
    rw [rel.out x (rest_out inv.rep.nodup inside), old x inside', same x inside',
      store_other_frame ne]
  have bytes : h.Kept (starts root (V ++ v.pushed y :: W)) h' := by
    refine ((kept₁.mono fun x inside => List.mem_cons_of_mem y inside).trans kept').mono ?_
    exact fun x inside => (starts_perm root V W _).mem_iff.mpr (perm.mem_iff.mp inside)
  refine ⟨h', _, ext₂, ?_, inv.replace rfl bytes.held
    (cut.homed (inv.homes v here) (List.mem_cons_of_mem _ block) place whole)
    (rep'.perm perm) others ?_ (cut.page page free' alloc')
    (fun l inside => ?_) (inv.once_cons out size), cut, others, bytes⟩
  · simp only [Heap.cut, eq₁, ← place, Option.bind_eq_bind, Option.bind_some]
    exact eq
  · rw [rel.next, old _ heads, field _ heads 0 fun hit => base hit.1]
  · rcases List.mem_cons.mp inside with rfl | inside
    · exact .inl ⟨y, by simp, rfl, by rw [cut.asked, own], Nat.le_of_eq own.symm⟩
    · exact (inv.placed_cases inside).imp (cut.liveIn fun used => lists b free b used rfl) id

end Cut

/-- What an allocation from `v` does: `x` is the new block of the allocated list. -/
structure Served (root : Nat) (V W : List PageView) (v v' : PageView) (F F' : Fields)
    (ext ext' : Nat → Nat) (b x size : Nat) : Prop where
  base : v'.base = v.base
  allocated : v'.allocated = v.allocated ++ [x]
  length : F' x 2 = if size + headerSize < F b 2 then size else F b 2
  old : ∀ a ∈ v.allocated, F' a 2 = F a 2
  rest : ∀ a ∈ starts root (V ++ W), F' a = F a ∧ ext' a = ext a
  exact : Exact F ext v → Exact F' ext' v'

section Serve

variable {b asked : Nat}

theorem HeapInv.lower {p : Nat} (inv : HeapInv root h F ext ((p, size) :: live) views)
    (le : asked ≤ size) : HeapInv root h F ext ((p, asked) :: live) views := by
  refine ⟨inv.rep, inv.chain, inv.pages, inv.homes, fun l inside => ?_, inv.once⟩
  rcases List.mem_cons.mp inside with rfl | inside
  · obtain ⟨v, there, b, block, ptr, own, room⟩ := inv.placed (p, size) List.mem_cons_self
    exact ⟨v, there, b, block, ptr, own, Nat.le_trans (Nat.add_le_add_left le _) room⟩
  · exact inv.placed l (List.mem_cons_of_mem _ inside)

theorem serve_step (inv : HeapInv root h F ext live (V ++ v :: W)) (free : b ∈ v.free)
    (le : asked ≤ size) (fits : headerSize + asked ≤ ext b) :
    ∃ x h' F' ext' v', (if size + headerSize < F b 2 then
        h.cut b v.base size (F b 2 - (size + headerSize)) else h.takeWhole b v.base) =
          some (x + headerSize, h') ∧
      HeapInv root h' F' ext' ((x + headerSize, asked) :: live) (V ++ v' :: W) ∧
      Served root V W v v' F F' ext ext' b x size ∧ h.Kept (starts root (V ++ v' :: W)) h' := by
  have here : v ∈ V ++ v :: W := by simp
  have once := view_nodup inv.rep.nodup here
  have lists := (List.nodup_append.mp (List.nodup_cons.mp once).2).2.2
  have block : b ∈ v.free ++ v.allocated := List.mem_append_left _ free
  have other := base_ne_block once block
  have blocks : ∀ a ∈ v.allocated, a ∈ v.free ++ v.allocated := fun a inside =>
    List.mem_append_right _ inside
  split
  · rename_i less
    have enough : F b 2 - (size + headerSize) + headerSize + size = F b 2 := by omega
    obtain ⟨h', F', ext', eq, inv', cut, rest, kept⟩ := cut_step inv free enough rfl
    refine ⟨_, h', F', ext', _, eq, inv'.lower le, ⟨rfl, rfl, ?_, fun a inside => ?_, rest,
      fun exact => cut.exact exact block other rfl enough⟩, kept⟩
    · rw [if_pos less, cut.asked]
    · exact cut.kept a (blocks a inside) 2 (by decide) fun hit => lists b free a inside hit.1.symm
  · rename_i whole
    obtain ⟨A, B, split⟩ := List.append_of_mem free
    obtain ⟨h', F', eq, inv', rel, kept⟩ := takeWhole_step inv split fits
    have perm := taken_perm split
    have lengths : ∀ a ∈ v.free ++ v.allocated, F' a 2 = F a 2 := fun a inside =>
      rel.length (base_ne_block once inside)
    have members : ∀ x, x ∈ (v.taken A B b).free ++ (v.taken A B b).allocated ↔
        x ∈ v.free ++ v.allocated := by
      intro x
      exact (perm.cons_inv).mem_iff.symm
    refine ⟨b, h', F', ext, _, eq, inv', ⟨rfl, rfl, ?_, fun a inside => lengths a (blocks a inside),
      fun a inside => ⟨rel.out a (rest_out inv.rep.nodup inside), rfl⟩,
      fun exact => exact.congr rfl members lengths fun _ _ => rfl⟩, kept.mono fun x inside => ?_⟩
    · rw [if_neg whole, lengths b block]
    · have side := (starts_perm root V W v).trans (perm.append_right _)
      exact (starts_perm root V W _).mem_iff.mpr (side.mem_iff.mp inside)

end Serve

theorem malloc_eq {b : Nat} {h₁ : Heap} (inv : HeapInv root h₁ F ext live views)
    (inside : v ∈ views) (free : b ∈ v.free) (found : findFree root size base h = some (b, h₁))
    (need : size + headerSize < 2 ^ 64) : malloc root size base h =
      if size + headerSize < F b 2 then h₁.cut b v.base size (F b 2 - (size + headerSize))
      else h₁.takeWhole b v.base := by
  have page := inv.pages v inside
  have block : b ∈ v.free ++ v.allocated := List.mem_append_left _ free
  have there : b ∈ starts root views := mem_starts inside (List.mem_cons_of_mem _ block)
  have header := page.header b (List.mem_cons_of_mem _ block)
  simp only [malloc, found, inv.rep.load_third there header, inv.rep.load_second there header,
    page.owner b block, Nat.mod_eq_of_lt need, Option.bind_eq_bind, Option.bind_some]

theorem HeapInv.need_lt {b : Nat} (inv : HeapInv root h F ext live views) (inside : v ∈ views)
    (free : b ∈ v.free) (room : headerSize + size ≤ ext b) : size + headerSize < 2 ^ 64 := by
  have there : b ∈ starts root views :=
    mem_starts inside (List.mem_cons_of_mem _ (List.mem_append_left _ free))
  have bound := inv.rep.bound there
  have ne := seg_ne (inv.pages v inside).free b free
  omega

theorem malloc_step (inv : HeapInv root h F ext live views)
    (fresh : NoFit F views size → FreshPages h base (4096 * pagesFor size))
    (fits : NoFit F views size → size + 2 * headerSize ≤ 4096 * pagesFor size) :
    ∃ p h' F' ext' views', malloc root size base h = some (p, h') ∧
      HeapInv root h' F' ext' ((p, size) :: live) views' := by
  have pages : minAllocPages ≤ pagesFor size := Nat.le_max_left ..
  simp only [minAllocPages] at pages
  have eight : headerSize = 24 := rfl
  obtain ⟨h₁, F₁, ext₁, views₁, v, b, found, inv₁, inside, free, eq₁⟩ := findFree_found inv fresh
    (e := 4096 * pagesFor size - headerSize) (by omega) (by omega)
  have room : headerSize + size ≤ ext₁ b := by
    cases found with
    | listed large =>
      have own := (inv.pages v inside).room b free
      omega
    | added small page kept =>
      have := fits small
      rw [page.own]
      omega
  rw [malloc_eq inv₁ inside free eq₁ (inv₁.need_lt inside free room)]
  obtain ⟨V, W, rfl⟩ := List.append_of_mem inside
  obtain ⟨x, h', F', ext', v', eq, inv', _⟩ := serve_step inv₁ free (Nat.le_refl size) room
  exact ⟨_, h', F', ext', _, eq, inv'⟩

end Gapxos
