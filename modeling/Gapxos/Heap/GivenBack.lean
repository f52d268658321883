import Gapxos.Heap.Formed

/-! When free gives a block back and loses nothing. It does so in two cases, and in all others
the lists of the page no longer have each block once. -/
namespace Gapxos
open Bytes Linked Extents Radix Runs

variable {root : Nat} {h h₁ h₂ h' : Heap} {F F₂ F' : Fields} {ext ext' : Nat → Nat}
  {live : List (Nat × Nat)} {V W : List PageView} {v v' : PageView} {xs A B L : List Nat}
  {b p : Nat}

/-- The heap without the allocation at `b`: the other blocks are as they were, but for a free
block that has the bytes of `b` and those of free neighbours. -/
structure FreeRight (root : Nat) (V W : List PageView) (v v' : PageView) (h h' : Heap) (b : Nat) :
    Prop where
  formed : WellFormed root h' (V ++ v' :: W)
  base : v'.base = v.base
  allocated : v'.allocated = v.allocated.erase b
  lengths : ∀ x ∈ v.allocated.erase b, h'.fields x 2 = h.fields x 2
  others : ∀ u ∈ V ++ W, ∀ x ∈ u.free ++ u.allocated, h'.fields x 2 = h.fields x 2
  joined : ∀ x ∈ v'.free, x ∈ v.free ∧ h'.fields x 2 = h.fields x 2 ∨
    x ≤ b ∧ b + h.blockSize b ≤ x + h'.blockSize x
  free : ∀ x ∈ v.free, x ∈ v'.free ∧ h'.fields x 2 = h.fields x 2 ∨ Meets h.fields b x

/-- The neighbour that is found first lies before the block, or there is none and the block is
the last of its list. -/
def GiveBackClear (F : Fields) (v : PageView) (b : Nat) : Prop :=
  (∃ x, v.free.find? (fun x => Meets F b x) = some x ∧ x + headerSize + F x 2 = b) ∨
    v.free.find? (fun x => Meets F b x) = none ∧ v.allocated.getLast? = some b

theorem free_returns (run : freeBlock (b + headerSize) h =
      (h₁.giveBack b p (v.base + 8) walkBound).bind fun h =>
        (h.load (v.base + 16)).bind fun a => some (v.base, a, h))
    (give : h₁.giveBack b p (v.base + 8) walkBound = some h₂) (rep : Rep h₂ F₂ ext xs)
    (page : v.base ∈ xs) (header : headerSize ≤ ext v.base) (hung : Hung 0 0 F₂ v.base 2 L 0)
    (more : L ≠ []) : free (b + headerSize) h = some h₂ := by
  cases L with
  | nil => exact absurd rfl more
  | cons x L =>
    -- the page keeps an allocated block, so free_pages is not called
    have nonnull : F₂ v.base 2 ≠ 0 := hung.1 ▸ hung.2.1
    rw [free_eq, run, give, Option.bind_some, rep.load_third page header]
    simp [nonnull]

theorem Rep.hung (rep : Rep h F ext xs) {x : Nat} {k : Fin 3} (first : h.fields x k = F x k)
    (sub : ∀ y ∈ L, y ∈ xs) (list : Hung 0 0 F x k L 0) : Hung 0 0 h.fields x k L 0 := by
  refine (hung_congr first fun y inside => ?_).mpr list
  exact rep.cells y (sub y inside) 0 (rep.word y (sub y inside))

section Right

variable (formed : WellFormed root h (V ++ v :: W)) (split : v.allocated = A ++ b :: B)
include formed split

theorem erase_block : v.allocated.erase b = A ++ B := by
  have once := (formed.pages v (by simp)).once
  have out : b ∉ A := by
    have allocs := (List.nodup_append.mp once).2.1
    rw [split] at allocs
    exact fun inside => (List.nodup_append.mp allocs).2.2 b inside b List.mem_cons_self rfl
  rw [split, List.erase_append_right _ out, List.erase_cons_head]

theorem own_block : headerSize + h.fields b 2 ≤ extents root h (V ++ v :: W) b := by
  have block : b ∈ v.free ++ v.allocated := by simp [split]
  exact Nat.le_of_eq (formed.extents_block (by simp) block).symm

theorem right_of (inv' : HeapInv root h' F' ext' live (V ++ v' :: W))
    (exact' : ∀ u ∈ V ++ v' :: W, Exact F' ext' u) (base : v'.base = v.base)
    (allocated : v'.allocated = A ++ B)
    (rest : ∀ x ∈ starts root (V ++ W), F' x 2 = h.fields x 2)
    (lengths : ∀ x ∈ A ++ B, F' x 2 = h.fields x 2)
    (joined : ∀ x ∈ v'.free, x ∈ v.free ∧ F' x 2 = h.fields x 2 ∨
      x ≤ b ∧ b + h.blockSize b ≤ x + headerSize + F' x 2)
    (old : ∀ x ∈ v.free, x ∈ v'.free ∧ F' x 2 = h.fields x 2 ∨ Meets h.fields b x) :
    FreeRight root V W v v' h h' b := by
  have there : v' ∈ V ++ v' :: W := by simp
  have erased := erase_block formed split
  have now : ∀ x ∈ v'.free ++ v'.allocated, h'.fields x 2 = F' x 2 := fun x block => by
    rw [inv'.fields_eq there (List.mem_cons_of_mem _ block)]
  refine ⟨inv'.wellFormed exact', base, allocated.trans erased.symm, fun x inside => ?_,
    fun u other x block => ?_, fun x inside => ?_, fun x inside => ?_⟩
  · rw [erased] at inside
    rw [now x (by rw [allocated]; exact List.mem_append_right _ inside), lengths x inside]
  · have start := List.mem_cons_of_mem u.base block
    rw [inv'.fields_eq (mem_around other) start, rest x (mem_starts other start)]
  · have length := now x (List.mem_append_left _ inside)
    have size : x + h'.blockSize x = x + headerSize + F' x 2 := by
      rw [Heap.blockSize, length, Nat.add_assoc]
    rw [size, length]
    exact joined x inside
  · rcases old x inside with kept | meets
    · rw [now x (List.mem_append_left _ kept.1)]
      exact .inl kept
    · exact .inr meets

theorem right_append (last : B = []) (more : A ≠ []) (off : ∀ y ∈ v.free, ¬ Meets h.fields b y) :
    ∃ h' v', free (b + headerSize) h = some h' ∧ FreeRight root V W v v' h h' b := by
  subst last
  have here : v ∈ V ++ v :: W := by simp
  have inv := formed.inv
  have once := view_nodup inv.rep.nodup here
  obtain ⟨h₁, held, rep, allocated, free, run⟩ := free_unlink inv split
  obtain ⟨h', F', give, inv', rel⟩ := giveBack_append_step inv split (own_block formed split) held
    rep allocated free (p := cellAddr (lastLink v.base 2 A)) rfl off
  obtain ⟨v', shape⟩ : ∃ u : PageView, u = { v with free := v.free ++ [b], allocated := A } :=
    ⟨_, rfl⟩
  rw [← shape] at inv'
  have there : v' ∈ V ++ v' :: W := by simp
  have page' := inv'.pages v' there
  -- the blocks are the same, one of them on the other list
  have members : ∀ x, x ∈ v'.free ++ v'.allocated ↔ x ∈ v.free ++ v.allocated := by
    intro x
    rw [shape, split]
    simp only [List.mem_append, List.mem_singleton, or_assoc]
    exact or_congr_right or_comm
  have base : v'.base = v.base := by rw [shape]
  have lengths : ∀ x ∈ v.free ++ v.allocated, F' x 2 = h.fields x 2 := fun x block =>
    rel.length (base_ne_block once block)
  have rest : ∀ x ∈ starts root (V ++ W), F' x 2 = h.fields x 2 := fun x inside => by
    rw [rel.out x (rest_out inv.rep.nodup inside)]
  have exact' := exact_replace (fun u => formed.exact) (fun x inside => ⟨rest x inside, rfl⟩)
    ((formed.exact here).congr base members lengths fun _ _ => rfl)
  refine ⟨h', v', free_returns run give inv'.rep (base ▸ mem_starts there List.mem_cons_self)
    (base ▸ page'.header _ List.mem_cons_self) (L := A) ?_ more,
    right_of formed split inv' exact' base (by rw [shape, List.append_nil]) rest
      (fun x inside => ?_) (fun x inside => ?_) fun x inside => .inl ⟨?_, ?_⟩⟩
  · have list := page'.allocated
    rw [base, shape] at list
    exact list
  · rw [List.append_nil] at inside
    exact lengths x (by simp [split, inside])
  · rw [shape] at inside
    rcases List.mem_append.mp inside with old | new
    · exact .inl ⟨old, lengths x (List.mem_append_left _ old)⟩
    · obtain rfl := List.mem_singleton.mp new
      refine .inr ⟨Nat.le_refl _, ?_⟩
      rw [Heap.blockSize, lengths x (by simp [split]), Nat.add_assoc]
  · rw [shape]
    exact List.mem_append_left _ inside
  · exact lengths x (List.mem_append_left _ inside)

theorem TakenOver.exact {w : Nat} (taken : TakenOver v h.fields F'
      (extents root h (V ++ v :: W)) ext' w b) (free : w ∈ v.free)
    (meet : w + headerSize + h.fields w 2 = b) :
    Exact F' ext' { v with allocated := A ++ B } := by
  have here : v ∈ V ++ v :: W := by simp
  have exact := formed.exact here
  have once := view_nodup formed.inv.rep.nodup here
  have block_w : w ∈ v.free ++ v.allocated := List.mem_append_left _ free
  have block_b : b ∈ v.free ++ v.allocated := by simp [split]
  have own_w := exact.own w block_w
  have own_b := exact.own b block_b
  have both := taken.own
  have length := taken.length
  have old : ∀ x ∈ v.free ++ (A ++ B), x ∈ v.free ++ v.allocated := by
    intro x inside
    rw [split]
    exact List.mem_append.mpr ((List.mem_append.mp inside).imp id mem_around)
  refine ⟨?_, fun x inside => ?_, fun a => ?_⟩
  · rw [taken.same v.base (base_ne_block once block_w).symm]
    exact exact.page
  · by_cases hit : x = w
    · rw [hit]
      omega
    · rw [taken.same x hit, taken.lengths x (base_ne_block once (old x inside)) hit]
      exact exact.own x (old x inside)
  · -- what `w` covers now, `w` and `b` covered before
    rw [← exact.covers a]
    constructor
    · rintro ⟨x, inside, low, high⟩
      by_cases hit : x = w
      · subst hit
        by_cases before : a < b
        · exact ⟨x, block_w, low, by omega⟩
        · exact ⟨b, block_b, by omega, by omega⟩
      · rw [taken.same x hit] at high
        exact ⟨x, old x inside, low, high⟩
    · rintro ⟨x, inside, low, high⟩
      have left : w ∈ v.free ++ (A ++ B) := List.mem_append_left _ free
      by_cases hit : x = w
      · exact ⟨w, left, hit ▸ low, by rw [both]; rw [hit] at high; omega⟩
      · by_cases gone : x = b
        · subst gone
          exact ⟨w, left, by omega, by omega⟩
        · refine ⟨x, ?_, low, by rw [taken.same x hit]; exact high⟩
          rw [split] at inside
          simpa [gone] using inside

theorem right_below {Q R : List Nat} {w : Nat} (list : v.free = Q ++ w :: R) (more : A ++ B ≠ [])
    (off : ∀ y ∈ Q, ¬ Meets h.fields b y) (meet : w + headerSize + h.fields w 2 = b) :
    ∃ h' v', free (b + headerSize) h = some h' ∧ FreeRight root V W v v' h h' b := by
  have here : v ∈ V ++ v :: W := by simp
  have inv := formed.inv
  have once := view_nodup inv.rep.nodup here
  have member : w ∈ v.free := by simp [list]
  obtain ⟨h₁, held, rep, allocated, free, run⟩ := free_unlink inv split
  obtain ⟨h', F', ext', give, inv', taken⟩ := giveBack_below_step inv split (own_block formed split)
    held rep allocated free (p := cellAddr (lastLink v.base 2 A)) list off meet
  have page := taken.exact formed split member meet
  obtain ⟨v', shape⟩ : ∃ u : PageView, u = { v with allocated := A ++ B } := ⟨_, rfl⟩
  rw [← shape] at inv' page
  have there : v' ∈ V ++ v' :: W := by simp
  have page' := inv'.pages v' there
  have base : v'.base = v.base := by rw [shape]
  have lengths : ∀ x ∈ v.free ++ v.allocated, x ≠ w → F' x 2 = h.fields x 2 := fun x block =>
    taken.lengths x (base_ne_block once block)
  have away : ∀ x ∈ starts root (V ++ W), x ≠ v.base ∧ x ≠ w := by
    intro x inside
    have out := rest_out inv.rep.nodup inside
    refine ⟨fun same => out (same ▸ List.mem_cons_self), fun same => out ?_⟩
    rw [same]
    exact List.mem_cons_of_mem _ (List.mem_append_left _ member)
  have rest : ∀ x ∈ starts root (V ++ W), F' x 2 = h.fields x 2 := fun x inside =>
    taken.lengths x (away x inside).1 (away x inside).2
  have exact' := exact_replace (fun u => formed.exact) (fun x inside =>
    ⟨rest x inside, taken.same x (away x inside).2⟩) page
  refine ⟨h', v', free_returns run give inv'.rep (base ▸ mem_starts there List.mem_cons_self)
    (base ▸ page'.header _ List.mem_cons_self) (L := A ++ B) ?_ more,
    right_of formed split inv' exact' base (by rw [shape]) rest
      (fun x inside => ?_) (fun x inside => ?_) fun x inside => ?_⟩
  · have list := page'.allocated
    rw [base, shape] at list
    exact list
  · have block : x ∈ v.allocated := split ▸ mem_around inside
    have lists := (List.nodup_append.mp (List.nodup_cons.mp once).2).2.2
    exact lengths x (List.mem_append_right _ block) fun same => lists w member x block same.symm
  · rw [shape] at inside
    by_cases hit : x = w
    · refine .inr ?_
      have length := taken.length
      rw [hit, Heap.blockSize]
      omega
    · exact .inl ⟨inside, lengths x (List.mem_append_left _ inside) hit⟩
  · by_cases hit : x = w
    · exact .inr (hit ▸ .inl meet)
    · exact .inl ⟨by rw [shape]; exact inside, lengths x (List.mem_append_left _ inside) hit⟩

end Right

section Wrong

theorem right_lists {K : List Nat} (right : FreeRight root V W v v' h h' b)
    (eq : free (b + headerSize) h = some h')
    (run : freeBlock (b + headerSize) h = (h₁.giveBack b p (v.base + 8) walkBound).bind fun h =>
      (h.load (v.base + 16)).bind fun a => some (v.base, a, h))
    (give : h₁.giveBack b p (v.base + 8) walkBound = some h₂)
    (rep : Rep h₂ F₂ ext (starts root (V ++ v :: W))) (header : ∀ x ∈ v.starts, headerSize ≤ ext x)
    (frees : Hung 0 0 F₂ v.base 1 K 0) (allocs : Hung 0 0 F₂ v.base 2 L 0)
    (sub : ∀ x ∈ K ++ L, x ∈ v.starts) (more : L ≠ []) :
    v'.free = K ∧ v.allocated.erase b = L := by
  have here : v ∈ V ++ v :: W := by simp
  have base : v.base ∈ starts root (V ++ v :: W) := mem_starts here List.mem_cons_self
  have room := header v.base List.mem_cons_self
  rw [free_returns run give rep base room allocs more, Option.some.injEq] at eq
  subst eq
  have page := right.formed.pages v' (by simp)
  have stands := page.free
  have stands' := page.allocated
  rw [right.base] at stands stands'
  rw [right.allocated] at stands'
  constructor
  · refine seg_unique stands (rep.hung (rep.cells v.base base 1 ?_) (fun x inside => ?_) frees)
    · exact Nat.le_trans (by decide) room
    · exact mem_starts here (sub x (List.mem_append_left _ inside))
  · refine seg_unique stands' (rep.hung (rep.cells v.base base 2 room) (fun x inside => ?_) allocs)
    exact mem_starts here (sub x (List.mem_append_right _ inside))

variable (formed : WellFormed root h (V ++ v :: W)) (split : v.allocated = A ++ b :: B)
include formed split

omit formed in
theorem onto_starts {K : List Nat} (sub : ∀ q ∈ K, q ∈ v.free) :
    ∀ x ∈ (K ++ b :: B) ++ (A ++ B), x ∈ v.starts := by
  intro x inside
  rw [PageView.starts, split]
  rcases List.mem_append.mp inside with first | second
  · rcases List.mem_append.mp first with old | new
    · exact List.mem_cons_of_mem _ (List.mem_append_left _ (sub x old))
    · exact List.mem_cons_of_mem _ (List.mem_append_right _ (List.mem_append_right _ new))
  · exact List.mem_cons_of_mem _ (List.mem_append_right _ (mem_around second))

theorem wrong_append (behind : B ≠ []) (off : ∀ y ∈ v.free, ¬ Meets h.fields b y) :
    ¬ ∃ h' v', free (b + headerSize) h = some h' ∧ FreeRight root V W v v' h h' b := by
  rintro ⟨h', v', eq, right⟩
  have here : v ∈ V ++ v :: W := by simp
  have inv := formed.inv
  obtain ⟨h₁, held, rep, allocated, free, run⟩ := free_unlink inv split
  obtain ⟨h₂, give, _, rep₂⟩ := giveBack_append_run inv split (own_block formed split) rep free
    (p := cellAddr (lastLink v.base 2 A)) off
  obtain ⟨frees, allocs⟩ := right_lists right eq run give rep₂ (inv.pages v here).header
    (free_onto inv split free (List.append_nil _).symm)
    (allocated_onto inv split allocated (fun q inside => inside) b)
    (onto_starts split fun q inside => inside) (by simp [behind])
  -- the blocks behind it are on both lists
  have once := (right.formed.pages v' (by simp)).once
  rw [frees, right.allocated, allocs] at once
  obtain ⟨c, inside⟩ := List.exists_mem_of_ne_nil B behind
  exact (List.nodup_append.mp once).2.2 c (by simp [inside]) c (by simp [inside]) rfl

theorem wrong_above {R : List Nat} {w : Nat} (list : v.free = w :: R)
    (apart : w + headerSize + h.fields w 2 ≠ b) (meet : b + headerSize + h.fields b 2 = w) :
    ¬ ∃ h' v', free (b + headerSize) h = some h' ∧ FreeRight root V W v v' h h' b := by
  rintro ⟨h', v', eq, right⟩
  have here : v ∈ V ++ v :: W := by simp
  have inv := formed.inv
  have page := inv.pages v here
  have block : b ∈ v.allocated := by simp [split]
  have ne : v.base ≠ b :=
    (base_ne_block (view_nodup inv.rep.nodup here) (List.mem_append_right _ block)).symm
  obtain ⟨h₁, held, rep, allocated, free, run⟩ := free_unlink inv split
  obtain ⟨h₂, give, _, rep₂⟩ := giveBack_above_run inv split (own_block formed split) rep free list
    apart meet
  have same := (right_lists right eq run give rep₂ page.header (hung_length ne page.free)
    (hung_length ne page.allocated) (fun x inside => List.mem_cons_of_mem _ inside)
    (List.ne_nil_of_mem block)).2
  have shorter := List.length_erase_of_mem block
  have some := List.length_pos_of_mem block
  rw [same] at shorter
  omega

theorem wrong_later {Q R : List Nat} {r w : Nat} (list : v.free = (Q ++ [r]) ++ w :: R)
    (more : A ++ B ≠ []) (off : ∀ y ∈ Q ++ [r], ¬ Meets h.fields b y)
    (apart : w + headerSize + h.fields w 2 ≠ b) (meet : b + headerSize + h.fields b 2 = w) :
    ¬ ∃ h' v', free (b + headerSize) h = some h' ∧ FreeRight root V W v v' h h' b := by
  rintro ⟨h', v', eq, right⟩
  have here : v ∈ V ++ v :: W := by simp
  have inv := formed.inv
  have once := view_nodup inv.rep.nodup here
  have header := (inv.pages v here).header
  have left : ∀ q ∈ Q, q ∈ v.free := fun q inside => by simp [list, inside]
  have old : r ∈ v.free := by simp [list]
  have start : b ∈ v.starts := by simp [PageView.starts, split]
  have ne : v.base ≠ b := (base_ne_block once (by simp [split])).symm
  obtain ⟨h₁, held, rep, allocated, free, run⟩ := free_unlink inv split
  obtain ⟨h₂, rep₂, _, give⟩ := giveBack_later_run inv split (own_block formed split) rep free
    (p := cellAddr (lastLink v.base 2 A)) list off apart meet
  obtain ⟨h₃, joined, _, rep₃⟩ := rep₂.store_third (mem_starts here start) (header b start)
    (Nat.mod_lt _ (Nat.two_pow_pos 64))
  rw [joined] at give
  -- the length of the block is written last, and no list goes through it
  have onto := free_onto inv split free (Q := Q) (R := r :: w :: R) (by simp [list])
  have frees := (right_lists right eq run give rep₃ header (hung_length ne onto)
    (hung_length ne (allocated_onto inv split allocated left b)) (onto_starts split left) more).1
  have kept := (right.free r old).resolve_right (off r (by simp))
  have nodup := (List.nodup_cons.mp once).2
  rw [list, split] at nodup
  rw [frees] at kept
  simp only [List.nodup_append, List.mem_append, List.mem_cons] at nodup kept
  grind

end Wrong

/-- free of one of several allocated blocks of a page gives it back and leaves everything else
as it was if and only if the neighbour it finds lies before the block, or it finds none and the
block is the last of its list. -/
theorem free_wellFormed_iff (formed : WellFormed root h (V ++ v :: W)) (block : b ∈ v.allocated)
    (other : ∃ c ∈ v.allocated, c ≠ b) :
    (∃ h' v', free (b + headerSize) h = some h' ∧ FreeRight root V W v v' h h' b) ↔
      GiveBackClear h.fields v b := by
  obtain ⟨A, B, split⟩ := List.append_of_mem block
  have once := (List.nodup_append.mp (formed.pages v (by simp)).once).2.1
  have more : A ++ B ≠ [] := by
    obtain ⟨c, inside, ne⟩ := other
    rw [split] at inside
    have left : c ∈ A ++ B := by simpa [ne] using inside
    exact List.ne_nil_of_mem left
  unfold GiveBackClear
  cases found : v.free.find? fun x => Meets h.fields b x with
  | none =>
    have off : ∀ y ∈ v.free, ¬ Meets h.fields b y := by simpa using List.find?_eq_none.mp found
    have last : v.allocated.getLast? = some b ↔ B = [] := by
      rw [split] at once ⊢
      rcases List.eq_nil_or_concat' B with rfl | ⟨C, y, rfl⟩
      · simp
      · have ne : y ≠ b := by
          rintro rfl
          simp [List.nodup_append] at once
        simp [List.getLast?_append, List.getLast?_cons, ne]
    simp only [last, reduceCtorEq, false_and, exists_false, false_or, true_and]
    constructor
    · intro right
      by_contra behind
      exact wrong_append formed split behind off right
    · intro last
      subst last
      exact right_append formed split rfl (by simpa using more) off
  | some w =>
    obtain ⟨meets, Q, R, list, passed⟩ := List.find?_eq_some_iff_append.mp found
    have off : ∀ y ∈ Q, ¬ Meets h.fields b y := by simpa using passed
    have meets : Meets h.fields b w := by simpa using meets
    simp only [Option.some.injEq, exists_eq_left', reduceCtorEq, false_and, or_false]
    constructor
    · intro right
      by_contra apart
      have above := meets.resolve_left apart
      rcases List.eq_nil_or_concat' Q with rfl | ⟨Q, r, rfl⟩
      · exact wrong_above formed split list apart above right
      · exact wrong_later formed split list more off apart above right
    · exact right_below formed split list more off

theorem twoView_clear {F : Fields} {base : Nat} (words : recordWords F base = twoWords base) :
    GiveBackClear F (twoView base) (base + 1038) := by
  simp only [recordWords, twoWords, List.map_cons, List.map_nil, List.cons.injEq, and_true] at words
  have meets : base + 24 + headerSize + F (base + 24) 2 = base + 1038 := by
    rw [words.2.1.2.2, headerSize]
  have found : (twoView base).free.find? (fun x => Meets F (base + 1038) x) = some (base + 24) :=
    List.find?_cons_of_pos (decide_eq_true (.inl meets))
  exact .inl ⟨base + 24, found, meets⟩

theorem free_wellFormed_iff_below : ∃ vm h' v',
    run (HeapCall.step rootAt) (emptyHeap rootAt fun _ => 0) twoBlocks = some vm ∧
      free (pagesAt + 1038 + headerSize) vm.heap = some h' ∧
      FreeRight rootAt [] [] (twoView pagesAt) v' vm.heap h' (pagesAt + 1038) := by
  obtain ⟨vm, eq, words, _, formed⟩ := twoBlocks_words
  obtain ⟨h', v', done⟩ := (free_wellFormed_iff (V := []) (W := []) formed (by decide)
    ⟨pagesAt + 4062, by decide, by decide⟩).mpr (twoView_clear words)
  exact ⟨vm, h', v', eq, done⟩

theorem not_wellFormed_shared {base : Nat} (nonnull : base ≠ 0) (first : h.fields root 0 = base)
    (words : recordWords h.fields base = [[0, base + 24, base + 1038], [base + 4062, base, 990],
      [base + 1038, base, 10], [0, base, 3000]]) {views : List PageView} :
    ¬ WellFormed root h views := by
  intro formed
  simp only [recordWords, List.map_cons, List.map_nil, List.cons.injEq, and_true] at words
  obtain ⟨⟨next, free, allocated⟩, ⟨on, _⟩, ⟨onto, _⟩, ends, _⟩ := words
  have bases : views.map PageView.base = [base] :=
    seg_unique formed.chain ⟨first, nonnull, next⟩
  obtain ⟨v, rfl, here⟩ := List.map_eq_singleton_iff.mp bases
  have page := formed.pages v List.mem_cons_self
  have stands := page.free
  have stands' := page.allocated
  rw [here] at stands stands'
  have frees : v.free = [base + 24, base + 4062, base + 1038] :=
    seg_unique stands ⟨free, by omega, on, by omega, onto, by omega, ends⟩
  have allocs : v.allocated = [base + 1038] := seg_unique stands' ⟨allocated, by omega, ends⟩
  have once := page.once
  rw [frees, allocs] at once
  simp at once

/-- The first block is given back while the second one is behind it on the list. -/
theorem free_shared : ∃ vm h',
    run (HeapCall.step rootAt) (emptyHeap rootAt fun _ => 0) twoBlocks = some vm ∧
      WellFormed rootAt vm.heap [twoView pagesAt] ∧ free (pagesAt + 4086) vm.heap = some h' ∧
      ∀ views, ¬ WellFormed rootAt h' views := by
  obtain ⟨vm, eq, _, _, formed⟩ := twoBlocks_words
  have after : ((run (HeapCall.step rootAt) (emptyHeap rootAt fun _ => 0) twoBlocks).bind fun vm =>
      free (pagesAt + 4086) vm.heap).map
        (fun h => (h.fields rootAt 0, recordWords h.fields pagesAt)) =
      some (pagesAt, [[0, pagesAt + 24, pagesAt + 1038], [pagesAt + 4062, pagesAt, 990],
        [pagesAt + 1038, pagesAt, 10], [0, pagesAt, 3000]]) := by decide
  rw [eq, Option.bind_some] at after
  obtain ⟨h', done, words⟩ := Option.map_eq_some_iff.mp after
  rw [Prod.mk.injEq] at words
  exact ⟨vm, h', eq, formed, done, fun _ => not_wellFormed_shared (by decide) words.1 words.2⟩

end Gapxos
