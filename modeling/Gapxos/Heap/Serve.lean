import Gapxos.Heap.Formed

/-! What a caller of malloc gets: a block that counts the bytes asked for, unless they are more
than fit on a page, and a heap of which no byte is lost in any case. -/
namespace Gapxos
open Bytes Linked Extents Radix Runs

variable {root : Nat} {h h' : Heap} {F F' : Fields} {ext ext' : Nat → Nat}
  {live : List (Nat × Nat)} {views : List PageView} {v : PageView} {xs : List Nat} {size base : Nat}

theorem FreshPages.need_lt (fresh : FreshPages h base (4096 * pagesFor size)) :
    size + headerSize < 2 ^ 64 := by
  have nonnull := fresh.nonnull
  have bound := fresh.bound
  have most : size / 4096 + (if size % 4096 = 0 then 0 else 1) ≤ pagesFor size :=
    Nat.le_max_right ..
  simp only [headerSize]
  split at most <;> omega

theorem malloc_found (inv : HeapInv root h F ext live views)
    (fresh : NoFit F views size → FreshPages h base (4096 * pagesFor size)) :
    ∃ h₁ F₁ ext₁ V v W b x h' F' ext' v',
      FreeFound root h F ext views size base (4096 - headerSize) h₁ F₁ ext₁ (V ++ v :: W) b ∧
      HeapInv root h₁ F₁ ext₁ live (V ++ v :: W) ∧ b ∈ v.free ∧
      malloc root size base h = some (x + headerSize, h') ∧
      HeapInv root h' F' ext' ((x + headerSize, 0) :: live) (V ++ v' :: W) ∧
      Served root V W v v' F₁ F' ext₁ ext' b x size ∧ h₁.Kept (starts root (V ++ v' :: W)) h' := by
  have pages : minAllocPages ≤ pagesFor size := Nat.le_max_left ..
  simp only [minAllocPages] at pages
  have eight : headerSize = 24 := rfl
  obtain ⟨h₁, F₁, ext₁, views₁, v, b, found, inv₁, inside, free, eq₁⟩ := findFree_found inv fresh
    (e := 4096 - headerSize) (by omega) (by omega)
  -- the sum that malloc compares with does not wrap
  have need : size + headerSize < 2 ^ 64 := by
    cases found with
    | listed large =>
      have own := (inv.pages v inside).room b free
      exact inv.need_lt inside free (by omega)
    | added small page kept => exact (fresh small).need_lt
  rw [malloc_eq inv₁ inside free eq₁ need]
  have header := (inv₁.pages v inside).header b (List.mem_cons_of_mem _
    (List.mem_append_left _ free))
  obtain ⟨V, W, rfl⟩ := List.append_of_mem inside
  obtain ⟨x, h', F', ext', v', eq, inv', served, kept⟩ := serve_step inv₁ free (Nat.zero_le size)
    header
  exact ⟨h₁, F₁, ext₁, V, v, W, b, x, h', F', ext', v', found, inv₁, free, eq, inv', served, kept⟩

theorem malloc_ne_zero {p : Nat} (eq : malloc root size base h = some (p, h')) : p ≠ 0 := by
  simp only [malloc, Option.bind_eq_bind, Option.bind_eq_some_iff] at eq
  obtain ⟨⟨free, h₁⟩, _, length, _, pghdr, _, eq⟩ := eq
  dsimp only at eq
  split at eq
  · simp only [Heap.cut, Option.bind_eq_bind, Option.bind_eq_some_iff] at eq
    obtain ⟨h₁, _, h₂, _, h₃, _, h₄, _, tail, _, h₅, _, eq⟩ := eq
    cases eq
    simp [headerSize]
  · simp only [Heap.takeWhole, Option.bind_eq_bind, Option.bind_eq_some_iff] at eq
    obtain ⟨parent, _, next, _, h₁, _, h₂, _, tail, _, h₃, _, eq⟩ := eq
    cases eq
    simp [headerSize]

/-- The header before the pointer counts the bytes asked for, and they lie in the pages that
malloc_pages returned for the page header it names. -/
def Honoured (h : Heap) (p size : Nat) : Prop :=
  size ≤ h.fields (p - headerSize) 2 ∧ ∃ bytes, (h.fields (p - headerSize) 1, bytes) ∈ h.held ∧
    h.fields (p - headerSize) 1 ≤ p ∧ p + size ≤ h.fields (p - headerSize) 1 + bytes

theorem HeapInv.honoured_iff {l : Nat × Nat} (inv : HeapInv root h F ext live views)
    (inside : l ∈ live) : Honoured h l.1 size ↔ size ≤ F (l.1 - headerSize) 2 := by
  obtain ⟨v, there, b, block, ptr, own, _⟩ := inv.placed l inside
  have block' : b ∈ v.free ++ v.allocated := List.mem_append_right _ block
  have start : b ∈ v.starts := List.mem_cons_of_mem _ block'
  have first : l.1 - headerSize = b := by omega
  rw [Honoured, first, inv.fields_eq there start]
  refine ⟨And.left, fun enough => ⟨enough, ?_⟩⟩
  rw [(inv.pages v there).owner b block']
  obtain ⟨bytes, held, place⟩ := inv.homes v there
  have within := place b start
  exact ⟨bytes, held, by omega, by omega⟩

theorem malloc_counts (inv : HeapInv root h F ext live views)
    (fresh : NoFit F views size → FreshPages h base (4096 * pagesFor size)) :
    ∃ p h', malloc root size base h = some (p, h') ∧
      (Honoured h' p size ↔ (NoFit F views size → size + 2 * headerSize ≤ 4096)) := by
  obtain ⟨h₁, F₁, ext₁, V, v, W, b, x, h', F', ext', v', found, inv₁, free, eq, inv', served, _⟩ :=
    malloc_found inv fresh
  refine ⟨_, h', eq, ?_⟩
  rw [inv'.honoured_iff (l := (x + headerSize, 0)) List.mem_cons_self]
  simp only [Nat.add_sub_cancel, served.length]
  generalize listed : V ++ v :: W = views₁ at found
  cases found with
  | listed large =>
    have fits : ¬ NoFit F views size := by
      intro small
      have less := small v (by simp [← listed]) b free
      omega
    simp only [fits, false_implies, iff_true]
    split <;> omega
  | added small page kept =>
    have length := page.length
    simp only [headerSize] at length ⊢
    simp only [small, true_implies, length]
    split <;> omega

/-- malloc keeps its promise if and only if a block is large enough, or new pages are there
and the size fits on the first of them behind the headers. -/
theorem malloc_honoured_iff (inv : HeapInv root h F ext live views)
    (pages : NoFit F views size → base = 0 ∨ FreshPages h base (4096 * pagesFor size)) :
    (((∀ p h', malloc root size base h = some (p, h') → p ≠ 0 → Honoured h' p size) ∧
        (NoFit F views size → base = 0 →
          ∃ h', malloc root size base h = some (0, h') ∧ Listed h'.fields root views)) ↔
      (NoFit F views size → base ≠ 0 ∧ size + 2 * headerSize ≤ 4096)) ∧
    ((NoFit F views size → base ≠ 0) → ∃ p h', malloc root size base h = some (p, h') ∧ p ≠ 0) := by
  have counts : (NoFit F views size → base ≠ 0) → _ := fun some =>
    malloc_counts inv fun small => (pages small).resolve_left (some small)
  refine ⟨⟨fun right small => ?_, fun ok => ⟨fun p h' eq _ => ?_, fun small null => ?_⟩⟩,
    fun some => ?_⟩
  · have nonnull : base ≠ 0 := by
      intro null
      -- the promise for NULL cannot be kept
      obtain ⟨h', eq, _⟩ := right.2 small null
      exact malloc_ne_zero eq rfl
    obtain ⟨p, h', eq, honoured⟩ := counts fun _ => nonnull
    exact ⟨nonnull, honoured.mp (right.1 p h' eq (malloc_ne_zero eq)) small⟩
  · obtain ⟨q, h₁, eq', honoured⟩ := counts fun small => (ok small).1
    rw [eq, Option.some.injEq, Prod.mk.injEq] at eq'
    obtain ⟨rfl, rfl⟩ := eq'
    exact honoured.mpr fun small => (ok small).2
  · exact absurd null (ok small).1
  · obtain ⟨p, h', eq, _⟩ := counts some
    exact ⟨p, h', eq, malloc_ne_zero eq⟩

/-- heap_root is NULL, and nothing else is mapped. -/
def rootOnly : Heap := (emptyHeap rootAt fun _ => 0).heap

theorem rootOnly_inv : HeapInv rootAt rootOnly rootOnly.fields (fun _ => 8) [] [] :=
  emptyHeap_inv (by decide) (by decide)

theorem malloc_honoured_iff_small : ∃ p h', malloc rootAt 10 pagesAt rootOnly = some (p, h') ∧
    Honoured h' p 10 := by
  have pages : NoFit rootOnly.fields [] 10 →
      pagesAt = 0 ∨ FreshPages rootOnly pagesAt (4096 * pagesFor 10) := fun _ =>
    .inr (freshPages_of rfl (by decide))
  obtain ⟨iff, returns⟩ := malloc_honoured_iff rootOnly_inv pages
  obtain ⟨p, h', eq, some⟩ := returns fun _ => by decide
  exact ⟨p, h', eq, (iff.mpr fun _ => by decide).1 p h' eq some⟩

/-- Of 5000 bytes the block has 4048, and when malloc_pages returns NULL the header of a block
is written to address 24. -/
theorem malloc_short :
    (malloc rootAt 5000 pagesAt rootOnly).map (fun r => (r.1, r.2.fields (r.1 - headerSize) 2)) =
      some (pagesAt + 48, 4048) ∧
    (malloc rootAt 10 0 rootOnly).isNone = true := by
  decide

/-- The same block as before: where it belongs, its length and its bytes. -/
structure Untouched (h h' : Heap) (b : Nat) : Prop where
  owner : h'.fields b 1 = h.fields b 1
  length : h'.fields b 2 = h.fields b 2
  bytes : ∀ a, b + headerSize ≤ a → a < b + h.blockSize b → h'.mem a = h.mem a

theorem Untouched.trans {h₁ h₂ : Heap} {b : Nat} (first : Untouched h h₁ b)
    (second : Untouched h₁ h₂ b) : Untouched h h₂ b := by
  refine ⟨second.owner.trans first.owner, second.length.trans first.length, fun a low high => ?_⟩
  rw [second.bytes a low (by rw [Heap.blockSize, first.length]; exact high),
    first.bytes a low high]

theorem HeapInv.untouched {b : Nat} (inv : HeapInv root h' F' ext' live views) (inside : v ∈ views)
    (block : b ∈ v.free ++ v.allocated) (owner : F' b 1 = h.fields b 1)
    (length : F' b 2 = h.fields b 2) (own : headerSize + F' b 2 ≤ ext' b)
    (bytes : ∀ a, (∀ x ∈ starts root views, a < x ∨ x + headerSize ≤ a) → h'.mem a = h.mem a) :
    Untouched h h' b := by
  have start : b ∈ v.starts := List.mem_cons_of_mem _ block
  have same := inv.fields_eq inside start
  refine ⟨by rw [same, owner], by rw [same, length], fun a low high => bytes a fun x there => ?_⟩
  rw [Heap.blockSize, ← length] at high
  have eight : headerSize = 24 := rfl
  by_cases hit : x = b
  · rw [hit]
    exact .inr low
  · have word := inv.rep.word x there
    rcases inv.rep.apart.off there (mem_starts inside start) hit with below | above
    · exact .inr (by omega)
    · exact .inl (by omega)

def inUse (views : List PageView) : List Nat := views.flatMap PageView.allocated

section Formed

variable {h₁ : Heap} {F₁ : Fields} {ext₁ : Nat → Nat} {V W views₁ : List PageView} {v' : PageView}
  {b x : Nat}

theorem PageAdded.exact (added : PageAdded views F F₁ ext ext₁ base (4096 - headerSize)) :
    Exact F₁ ext₁ ⟨base, [base + headerSize], []⟩ := by
  have own := added.own
  have length := added.length
  have eight : headerSize = 24 := rfl
  refine ⟨added.page, ?_, fun a => ?_⟩
  · simp only [List.append_nil, List.mem_singleton, forall_eq]
    omega
  · simp only [List.append_nil, List.mem_singleton, exists_eq_left]
    omega

section Found

variable (found : FreeFound root h F ext views size base (4096 - headerSize) h₁ F₁ ext₁ views₁ b)
include found

theorem FreeFound.inUse_eq : inUse views₁ = inUse views := by
  cases found with
  | listed large => rfl
  | added small page kept => simp [inUse]

theorem FreeFound.exact (exact : ∀ v ∈ views, Exact F ext v) : ∀ v ∈ views₁, Exact F₁ ext₁ v := by
  cases found with
  | listed large => exact exact
  | added small page kept =>
    intro v inside
    rcases List.mem_append.mp inside with old | new
    · exact (exact v old).congr rfl (fun _ => Iff.rfl)
        (fun b block => by rw [page.blocks v old b block]) (page.same v old)
    · rw [List.mem_singleton.mp new]
      exact page.exact

end Found

theorem FreeFound.untouched
    (found : FreeFound root h h.fields ext views size base (4096 - headerSize) h₁ F₁ ext₁ views₁ b)
    (inv₁ : HeapInv root h₁ F₁ ext₁ live views₁) (exact : ∀ v ∈ views, Exact h.fields ext v)
    {c : Nat} (used : c ∈ inUse views) : Untouched h h₁ c := by
  obtain ⟨v, inside, block⟩ := List.mem_flatMap.mp used
  have whole := found.exact exact
  cases found with
  | listed large => exact ⟨rfl, rfl, fun _ _ _ => rfl⟩
  | added small page kept =>
    have block' := List.mem_append_right v.free block
    have same := page.blocks v inside c block'
    have mem : (h.hold base (pagesFor size)).mem = h.mem := by
      unfold Heap.hold
      split <;> rfl
    have inside' := List.mem_append_left [⟨base, [base + headerSize], []⟩] inside
    refine inv₁.untouched inside' block' (by rw [same]) (by rw [same])
      (Nat.le_of_eq ((whole v inside').own c block').symm) fun a out => ?_
    rw [kept.bytes a out, mem]

section Served

variable (served : Served root V W v v' F F' ext ext' b x size)
include served

theorem Served.exact_all (exact : ∀ u ∈ V ++ v :: W, Exact F ext u) :
    ∀ u ∈ V ++ v' :: W, Exact F' ext' u := by
  have same : ∀ c ∈ starts root (V ++ W), F' c 2 = F c 2 ∧ ext' c = ext c := by
    intro c there
    obtain ⟨field, size⟩ := served.rest c there
    exact ⟨by rw [field], size⟩
  exact exact_replace exact same (served.exact (exact v (by simp)))

theorem Served.inUse_perm : (inUse (V ++ v' :: W)).Perm (x :: inUse (V ++ v :: W)) := by
  simp only [inUse, List.flatMap_append, List.flatMap_cons, served.allocated, List.append_assoc,
    List.singleton_append]
  rw [← List.append_assoc, ← List.append_assoc]
  exact List.perm_middle

theorem Served.untouched (inv : HeapInv root h F ext live (V ++ v :: W))
    (inv' : HeapInv root h' F' ext' ((x + headerSize, 0) :: live) (V ++ v' :: W))
    (exact' : ∀ u ∈ V ++ v' :: W, Exact F' ext' u) (kept : h.Kept (starts root (V ++ v' :: W)) h')
    {c : Nat} (used : c ∈ inUse (V ++ v :: W)) : Untouched h h' c := by
  obtain ⟨u, inside, block⟩ := List.mem_flatMap.mp used
  have block₀ := List.mem_append_right u.free block
  have start : c ∈ u.starts := List.mem_cons_of_mem _ block₀
  have fields := inv.fields_eq inside start
  by_cases here : u ∈ V ++ W
  · have there : u ∈ V ++ v' :: W := by
      simp only [List.mem_append, List.mem_cons] at here ⊢
      tauto
    have same := (served.rest c (mem_starts here start)).1
    exact inv'.untouched there block₀ (by rw [fields, same]) (by rw [fields, same])
      (Nat.le_of_eq ((exact' u there).own c block₀).symm) kept.bytes
  · obtain rfl : u = v := by
      simp only [List.mem_append, List.mem_cons] at here inside
      tauto
    have there : v' ∈ V ++ v' :: W := by simp
    have block' : c ∈ v'.free ++ v'.allocated := by simp [served.allocated, block]
    have owner' := (inv'.pages v' there).owner c block'
    have owner := (inv.pages u inside).owner c block₀
    exact inv'.untouched there block' (by rw [fields, owner', owner, served.base])
      (by rw [fields, served.old c block])
      (Nat.le_of_eq ((exact' v' there).own c block').symm) kept.bytes

end Served

/-- malloc leaves a heap of which no byte is lost, with all the blocks in use that there were
and the one it returns. -/
theorem malloc_wellFormed (formed : WellFormed root h views)
    (fresh : NoFit h.fields views size → FreshPages h base (4096 * pagesFor size)) :
    ∃ b h' views', malloc root size base h = some (b + headerSize, h') ∧
      WellFormed root h' views' ∧ (inUse views').Perm (b :: inUse views) ∧
      ∀ c ∈ inUse views, Untouched h h' c := by
  have exact := fun v (inside : v ∈ views) => formed.exact inside
  obtain ⟨h₁, F₁, ext₁, V, v, W, b, x, h', F', ext', v', found, inv₁, _, eq, inv', served, kept⟩ :=
    malloc_found formed.inv fresh
  have exact' := served.exact_all (found.exact exact)
  refine ⟨x, h', V ++ v' :: W, eq, inv'.wellFormed exact', ?_, fun c used => ?_⟩
  · rw [← found.inUse_eq]
    exact served.inUse_perm
  · have first := found.untouched inv₁ exact used
    rw [← found.inUse_eq] at used
    exact first.trans (served.untouched inv₁ inv' exact' kept used)

theorem malloc_wellFormed_third : ∃ vm b h' views',
    run (HeapCall.step rootAt) (emptyHeap rootAt fun _ => 0) twoBlocks = some vm ∧
      malloc rootAt 500 morePagesAt vm.heap = some (b + headerSize, h') ∧
      WellFormed rootAt h' views' ∧
      (inUse views').Perm [b, pagesAt + 4062, pagesAt + 1038] ∧
      Untouched vm.heap h' (pagesAt + 4062) ∧ Untouched vm.heap h' (pagesAt + 1038) := by
  obtain ⟨vm, eq, _, held, formed⟩ := twoBlocks_words
  have fresh : NoFit vm.heap.fields [twoView pagesAt] 500 →
      FreshPages vm.heap morePagesAt (4096 * pagesFor 500) :=
    fun _ => freshPages_of held (by decide)
  obtain ⟨b, h', views', done, formed', perm, kept⟩ := malloc_wellFormed formed fresh
  exact ⟨vm, b, h', views', eq, done, formed', perm, kept _ (by decide), kept _ (by decide)⟩

end Formed

end Gapxos
