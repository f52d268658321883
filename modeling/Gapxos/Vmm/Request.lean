import Gapxos.Vmm.Balanced
import Gapxos.Vmm.Joins

/-! The two searches of the manager. avl_min_size runs through the blocks from the top and
alloc_virt splits the block it finds; avl_below looks for a block by its end, with the
difference of two addresses cut to an int. -/
namespace Gapxos
open SearchTree Tiling

theorem Balanced.size {t : AvlTree} (balanced : Balanced t) :
    2 ^ (depth t / 2) ≤ t.toList.length + 1 := by
  induction t with
  | nil => decide
  | node v h l r left right =>
    obtain ⟨_, hl, hr, bl, br⟩ := balanced
    rw [depth, KeyTree.toList_node, List.length_append, List.length_cons]
    cases both : max (depth l) (depth r) with
    | zero => simp
    | succ d =>
      have lower : 2 ^ (d / 2) ≤ l.toList.length + 1 :=
        (Nat.pow_le_pow_right (by decide) (Nat.div_le_div_right (by omega))).trans (left bl)
      have upper : 2 ^ (d / 2) ≤ r.toList.length + 1 :=
        (Nat.pow_le_pow_right (by decide) (Nat.div_le_div_right (by omega))).trans (right br)
      rw [show (d + 1 + 1) / 2 = d / 2 + 1 by omega, Nat.pow_succ]
      omega

section Request

variable {lo hi : Nat}

theorem avlMinSize_last {pageCount : Nat} {t : AvlTree} {n : AvlNode}
    (found : avlMinSize pageCount t = some n) :
    ∃ A B, t.toList = A ++ n :: B ∧ ∀ v ∈ B, v.allocated = false → v.pageCount < pageCount := by
  induction t with
  | nil => cases found
  | node w h l r left right =>
    rw [avlMinSize] at found
    cases above : avlMinSize pageCount r with
    | some k =>
      rw [above] at found
      cases found
      obtain ⟨A, B, split, last⟩ := right above
      exact ⟨l.toList ++ w :: A, B, by simp [split], last⟩
    | none =>
      have none := avlMinSize_none above
      simp only [above] at found
      split at found
      · cases found
        exact ⟨l.toList, r.toList, rfl, none⟩
      · rename_i used
        obtain ⟨A, B, split, last⟩ := left found
        refine ⟨A, B ++ w :: r.toList, by simp [split], ?_⟩
        intro v inside free
        rw [List.mem_append, List.mem_cons] at inside
        rcases inside with inside | rfl | inside
        · exact last v inside free
        · exact Nat.lt_of_not_le fun le => used ⟨le, free⟩
        · exact none v inside free

/-- What becomes of the block that is taken: its first pages, and the others behind them. -/
def taken (ptr pageCount : Nat) (n : AvlNode) : List AvlNode :=
  { n with pageCount, allocated := true } ::
    if pageCount < n.pageCount then
      [⟨ptr, n.addr + 4096 * pageCount, n.pageCount - pageCount, false⟩] else []

theorem taken_tiles {A B : List AvlNode} {n : AvlNode} {pageCount : Nat} (ptr : Nat)
    (tiles : Tiles AvlNode.addr AvlNode.len lo hi (A ++ n :: B)) (pos : 0 < pageCount)
    (large : pageCount ≤ n.pageCount) :
    Tiles AvlNode.addr AvlNode.len lo hi (A ++ (taken ptr pageCount n ++ B)) := by
  obtain ⟨before, _, after⟩ := tiles_middle.mp tiles
  have len : n.len = 4096 * n.pageCount := rfl
  rw [taken, List.cons_append, tiles_middle]
  refine ⟨before, Nat.mul_pos (by decide) pos, ?_⟩
  show Tiles AvlNode.addr AvlNode.len (n.addr + 4096 * pageCount) hi _
  split
  · refine ⟨rfl, Nat.mul_pos (by decide) (by show 0 < n.pageCount - pageCount; omega), ?_⟩
    show Tiles _ _ (n.addr + 4096 * pageCount + 4096 * (n.pageCount - pageCount)) hi B
    rwa [show n.addr + 4096 * pageCount + 4096 * (n.pageCount - pageCount) = n.addr + n.len by
      omega]
  · rwa [show 4096 * pageCount = n.len by omega]

theorem tiles_depth {t : AvlTree} (balanced : Balanced t)
    (tiles : Tiles AvlNode.addr AvlNode.len lo hi t.toList) (fits : hi ≤ 2 ^ 64) :
    depth t ≤ 105 := by
  have count := tiles_length (k := 4096) tiles fun v inside => by
    have pos := (tiles_mem tiles inside).2.1
    unfold AvlNode.len at pos ⊢
    omega
  have size := balanced.size
  by_contra high
  have large : 2 ^ 53 ≤ 2 ^ (depth t / 2) := Nat.pow_le_pow_right (by decide) (by omega)
  omega

theorem depth_write (ptr : Nat) (f : AvlNode → AvlNode) (t : AvlTree) :
    depth (writeNode ptr f t) = depth t := by
  induction t with
  | nil => rfl
  | node v h l r left right =>
    show max (depth (writeNode ptr f l)) (depth (writeNode ptr f r)) + 1 = _
    rw [left, right, depth]

theorem balanced_write (ptr : Nat) (f : AvlNode → AvlNode) {t : AvlTree} (balanced : Balanced t) :
    Balanced (writeNode ptr f t) := by
  induction t with
  | nil => trivial
  | node v h l r left right =>
    obtain ⟨height, hl, hr, bl, br⟩ := balanced
    have step : writeNode ptr f (.node v h l r) =
      .node (if v.ptr = ptr then f v else v) h (writeNode ptr f l) (writeNode ptr f r) := rfl
    rw [step, Balanced, depth_write, depth_write]
    exact ⟨height, hl, hr, left bl, right br⟩

variable {σ : Type} {src : NodeSource σ}

theorem insertRest_avl {st st' : σ × Phys} {ptr pageCount : Nat}
    (made : src.createNode st = some (ptr, st')) {t : AvlTree} {A B : List AvlNode} {n : AvlNode}
    (avl : IsAvl t) (split : t.toList = A ++ n :: B)
    (tiles : Tiles AvlNode.addr AvlNode.len lo hi t.toList) (fits : hi ≤ 2 ^ 64)
    (pos : 0 < pageCount) (large : pageCount ≤ n.pageCount) :
    ∃ t' st'', insertRest src n pageCount t st = some (t', st'') ∧ IsAvl t' ∧
      t'.toList = A ++ n :: ((taken ptr pageCount n).tail ++ B) := by
  by_cases rest : pageCount < n.pageCount
  · have depth := tiles_depth avl.balanced tiles fits
    rw [split] at tiles
    obtain ⟨addr, below, above⟩ := rest_place tiles fits pos rest
    have entered : Entered src st (n.addr + 4096 * pageCount) (n.pageCount - pageCount) []
      ⟨ptr, n.addr + 4096 * pageCount, n.pageCount - pageCount, false⟩ st' := .new ptr st' made
    obtain ⟨t', eq, avl', list⟩ := avl.insert entered (by omega) (A := A ++ [n]) (B := B)
      (by simp [split]) below above
    refine ⟨t', st', ?_, avl', by simpa [taken, rest] using list⟩
    simp only [insertRest, addr, if_pos (show n.pageCount - pageCount ≠ 0 by omega)]
    exact eq
  · refine ⟨t, st, ?_, avl, by simpa [taken, rest] using split⟩
    simp only [insertRest, if_neg (show ¬ (n.pageCount - pageCount ≠ 0) by omega)]

/- The answer to a request that can be met: the list of blocks changes at one place. -/
structure BlockTaken (m : MemoryManager) (lo hi ptr pageCount : Nat) (A : List AvlNode)
    (n : AvlNode)
    (B : List AvlNode) (t : AvlTree) : Prop where
  split : m.tree.toList = A ++ n :: B
  free : n.allocated = false
  large : pageCount ≤ n.pageCount
  highest : ∀ v ∈ B, v.allocated = false → v.pageCount < pageCount
  list : t.toList = A ++ (taken ptr pageCount n ++ B)
  avl : IsAvl t
  tiles : Tiles AvlNode.addr AvlNode.len lo hi t.toList

theorem allocVirt_found {st st' : σ × Phys} {m : MemoryManager} {ptr pageCount : Nat}
    (made : src.createNode st = some (ptr, st')) (fresh : ptr ∉ nodePtrs m.tree)
    (pos : 0 < pageCount) (ne : m.tree ≠ .nil) (avl : IsAvl m.tree)
    (nodes : (nodePtrs m.tree).Nodup)
    (tiles : Tiles AvlNode.addr AvlNode.len lo hi m.tree.toList) (fits : hi ≤ 2 ^ 64)
    {n : AvlNode} (found : avlMinSize pageCount m.tree = some n) :
    ∃ A B t st'', allocVirt src m pageCount st = some (n.addr, { m with tree := t }, st'') ∧
      BlockTaken m lo hi ptr pageCount A n B t := by
  obtain ⟨_, large, free⟩ := avlMinSize_some found
  obtain ⟨A, B, split, highest⟩ := avlMinSize_last found
  obtain ⟨t, st'', eq, avl', list⟩ := insertRest_avl made avl split tiles fits pos large
  -- the pointer taken before the insertion is that of the same node after it
  have distinct : (nodePtrs t).Nodup := by
    rw [nodePtrs, split] at nodes fresh
    rw [nodePtrs, list, taken, List.tail_cons]
    split
    · rw [show A ++ n :: ([⟨ptr, n.addr + 4096 * pageCount, n.pageCount - pageCount, false⟩] ++ B) =
        (A ++ [n]) ++ ⟨ptr, n.addr + 4096 * pageCount, n.pageCount - pageCount, false⟩ :: B by simp,
        List.map_append, List.map_cons, List.nodup_middle, List.nodup_cons, ← List.map_append,
        List.append_assoc, List.singleton_append]
      exact ⟨fresh, nodes⟩
    · simpa using nodes
  have written := write_list list distinct fun v => { v with pageCount, allocated := true }
  have final : (writeNode n.ptr (fun v => { v with pageCount, allocated := true }) t).toList =
      A ++ (taken ptr pageCount n ++ B) := by
    rw [written, taken, List.tail_cons, List.cons_append]
  have tiled : Tiles AvlNode.addr AvlNode.len lo hi (A ++ (taken ptr pageCount n ++ B)) :=
    taken_tiles ptr (split ▸ tiles) pos large
  refine ⟨A, B, _, st'', by simp [allocVirt, ne, found, eq], split, free, large, highest,
    final, ⟨?_, balanced_write _ _ avl'.balanced⟩, ?_⟩
  · rw [final]
    exact tiles_sorted tiled
  · rw [final]
    exact tiled

end Request

/-- alloc_virt takes the highest free block that is large enough, from its beginning. -/
theorem allocVirt_takes_highest {σ : Type} (src : NodeSource σ) (m : MemoryManager) (st : σ × Phys)
    (lo hi pageCount : Nat) (pos : 0 < pageCount) (ne : m.tree ≠ .nil) (avl : IsAvl m.tree)
    (nodes : (nodePtrs m.tree).Nodup)
    (tiles : Tiles AvlNode.addr AvlNode.len lo hi m.tree.toList) (fits : hi ≤ 2 ^ 64)
    (ptr : Nat) (st' : σ × Phys) (made : src.createNode st = some (ptr, st'))
    (fresh : ptr ∉ nodePtrs m.tree) :
    (allocVirt src m pageCount st = some (0, m, st) ↔ ¬ Room pageCount m.tree) ∧
    (Room pageCount m.tree → ∃ A n B t st'',
      allocVirt src m pageCount st = some (n.addr, { m with tree := t }, st'') ∧
        BlockTaken m lo hi ptr pageCount A n B t) := by
  have met : Room pageCount m.tree → ∃ A n B t st'',
      allocVirt src m pageCount st = some (n.addr, { m with tree := t }, st'') ∧
        BlockTaken m lo hi ptr pageCount A n B t := by
    intro room
    obtain ⟨n, found⟩ := avlMinSize_room room
    obtain ⟨A, B, t, st'', eq, final⟩ :=
      allocVirt_found made fresh pos ne avl nodes tiles fits found
    exact ⟨A, n, B, t, st'', eq, final⟩
  refine ⟨⟨fun null room => ?_, fun full => ?_⟩, met⟩
  · -- the block that is taken was free before
    obtain ⟨A, n, B, t, st'', eq, final⟩ := met room
    rw [eq] at null
    simp only [Option.some.injEq, Prod.mk.injEq] at null
    have same : t.toList = m.tree.toList := congrArg (fun m => m.tree.toList) null.2.1
    rw [final.list, final.split, taken, List.cons_append] at same
    have head := (List.cons.inj (List.append_cancel_left same)).1
    have used := congrArg AvlNode.allocated head
    rw [final.free] at used
    cases used
  · have none : avlMinSize pageCount m.tree = none := by
      cases found : avlMinSize pageCount m.tree with
      | none => rfl
      | some n =>
        obtain ⟨inside, large, free⟩ := avlMinSize_some found
        exact absurd ⟨n, inside, free, large⟩ full
    simp [allocVirt, ne, none]

theorem allocVirt_takes_first_page : ∃ A n B t st'',
    allocVirt ⟨fun st => some (1, st), fun _ st => some st⟩
      ⟨.node ⟨0, 0x1000, 3, false⟩ 0 .nil .nil, 0, true⟩ 1 ((), ⟨fun _ _ => 0, [], 0⟩) =
        some (n.addr, ⟨t, 0, true⟩, st'') ∧
      BlockTaken ⟨.node ⟨0, 0x1000, 3, false⟩ 0 .nil .nil, 0, true⟩ 0x1000 0x4000 1 1 A n B t :=
  (allocVirt_takes_highest ⟨fun st => some (1, st), fun _ st => some st⟩
    ⟨.node ⟨0, 0x1000, 3, false⟩ 0 .nil .nil, 0, true⟩ ((), ⟨fun _ _ => 0, [], 0⟩) 0x1000 0x4000 1
    (by decide) (by decide) ⟨by decide, by decide⟩ (by decide) (by decide) (by decide) 1 _ rfl
    (by decide)).2 ⟨⟨0, 0x1000, 3, false⟩, by decide, rfl, by decide⟩

section Below

variable {addr : Nat} {t : AvlTree}

def AvlNode.EndsAt (addr : Nat) (v : AvlNode) : Prop := v.addr + v.len = addr

/-- The block that ends at `addr` is returned if there is one, and nothing otherwise. -/
def BelowFound (addr : Nat) (t : AvlTree) : Prop :=
  match avlBelow addr t with
  | some n => n ∈ t.toList ∧ n.EndsAt addr
  | none => ∀ v ∈ t.toList, ¬ v.EndsAt addr

/-- How far the block ends past `addr`, around a circle of 2^32. -/
def AvlNode.past (addr : Nat) (v : AvlNode) : Int :=
  (((v.addr + v.len : Nat) : Int) - addr) % 2 ^ 32

/- Each block above `w` has it on its left and ends at most 2^31 past `addr` on that circle, or on
its right and ends more than 2^31 past it. -/
def BelowLed (addr : Nat) (w : AvlNode) : AvlTree → Prop
  | .nil => False
  | .node v _ l r => w = v ∨ (0 < v.past addr ∧ v.past addr ≤ 2 ^ 31 ∧ BelowLed addr w l) ∨
      (2 ^ 31 < v.past addr ∧ BelowLed addr w r)

theorem belowDiff_past (v : AvlNode) (addr : Nat) :
    (belowDiff v addr = 0 ↔ v.past addr = 0) ∧
    (belowDiff v addr < 0 ↔ 0 < v.past addr ∧ v.past addr ≤ 2 ^ 31) := by
  have wrapped := stop_eq v
  unfold belowDiff AvlNode.past int32
  rw [Int.bmod_def, wrapped]
  omega

theorem AvlNode.EndsAt.past {v : AvlNode} (ends : v.EndsAt addr) : v.past addr = 0 := by
  rw [AvlNode.past, ends, Int.sub_self]
  rfl

theorem avlBelow_led {n : AvlNode} (found : avlBelow addr t = some n) :
    BelowLed addr n t ∧ n.past addr = 0 := by
  induction t with
  | nil => cases found
  | node v h l r left right =>
    obtain ⟨zero, less⟩ := belowDiff_past v addr
    rw [avlBelow] at found
    split at found
    · rename_i here
      cases found
      exact ⟨.inl rfl, zero.mp here⟩
    · split at found
      · rename_i below
        obtain ⟨led, same⟩ := left found
        obtain ⟨low, high⟩ := less.mp below
        exact ⟨.inr (.inl ⟨low, high, led⟩), same⟩
      · rename_i other above
        obtain ⟨led, same⟩ := right found
        rw [zero] at other
        rw [less] at above
        have least : 0 ≤ v.past addr := Int.emod_nonneg _ (by decide)
        exact ⟨.inr (.inr ⟨by omega, led⟩), same⟩

theorem BelowLed.found {w : AvlNode} (led : BelowLed addr w t) (same : w.past addr = 0) :
    avlBelow addr t = some w := by
  induction t with
  | nil => cases led
  | node v h l r left right =>
    obtain ⟨zero, less⟩ := belowDiff_past v addr
    rw [avlBelow]
    rcases led with rfl | ⟨low, high, led⟩ | ⟨above, led⟩
    · rw [if_pos (zero.mpr same)]
    · rw [if_neg (by rw [zero]; omega), if_pos (less.mpr ⟨low, high⟩)]
      exact left led
    · rw [if_neg (by rw [zero]; omega), if_neg (by rw [less]; omega)]
      exact right led

/-- avl_below answers rightly exactly if it is led to the block that ends at `addr`, when there is
one, and to no block whose end is a multiple of 2^32 away. -/
theorem avlBelow_found_iff (addr : Nat) (t : AvlTree) : BelowFound addr t ↔
    ((∃ w ∈ t.toList, w.EndsAt addr) → ∃ w, BelowLed addr w t ∧ w.EndsAt addr) ∧
    ∀ w, BelowLed addr w t → w.past addr = 0 → w.EndsAt addr := by
  unfold BelowFound
  cases found : avlBelow addr t with
  | some n =>
    obtain ⟨led, same⟩ := avlBelow_led found
    have inside := (avlBelow_some found).1
    constructor
    · rintro ⟨-, ends⟩
      refine ⟨fun _ => ⟨n, led, ends⟩, fun w led' same' => ?_⟩
      have again := led'.found same'
      rw [found] at again
      exact Option.some.inj again ▸ ends
    · rintro ⟨-, right⟩
      exact ⟨inside, right n led same⟩
  | none =>
    constructor
    · intro absent
      constructor
      · rintro ⟨w, inside, ends⟩
        exact absurd ends (absent w inside)
      · intro w led same
        rw [led.found same] at found
        cases found
    · rintro ⟨led, -⟩ v inside ends
      obtain ⟨w, led, ends⟩ := led ⟨v, inside, ends⟩
      rw [led.found ends.past] at found
      cases found

/-- A block of more than two gigabytes at the root: the search for the block below it goes to
the wrong side. -/
theorem avlBelow_misses_neighbour :
    let t : AvlTree := .node ⟨2, 0x2000, 0x80001, true⟩ 1 (.node ⟨1, 0x1000, 1, false⟩ 0 .nil .nil)
      .nil
    Tiles AvlNode.addr AvlNode.len 0x1000 0x80003000 t.toList ∧ IsAvl t ∧
      avlBelow 0x2000 t = none ∧ ¬ BelowFound 0x2000 t := by
  intro t
  have tiles : Tiles AvlNode.addr AvlNode.len 0x1000 0x80003000 t.toList := by decide
  have missed : avlBelow 0x2000 t = none := by decide
  refine ⟨tiles, ⟨tiles_sorted tiles, by decide⟩, missed, fun found => ?_⟩
  rw [BelowFound, missed] at found
  exact found ⟨1, 0x1000, 1, false⟩ (by decide) rfl

end Below

end Gapxos
