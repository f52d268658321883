import Gapxos.Vmm.Balanced

/-! avl_remove. A node with two children takes over the block of its successor, which is cut
out further down. If the successor is the right child itself, the code looks at a pointer it
never set; if it lies deeper, the heights on the way to it are not computed again. -/
namespace Gapxos
open SearchTree

section Walk

variable {σ : Type} {src : NodeSource σ} {addr : Nat}

theorem deleteNode_wild (st : σ × Phys) {t : AvlTree} (stuck : removable addr t = false) :
    deleteNode src false addr t st = none := by
  induction t with
  | nil => cases stuck
  | node v h l r left right =>
    unfold removable at stuck
    split at stuck
    · rename_i less
      simp [deleteNode, less, left stuck]
    · rename_i less
      split at stuck
      · rename_i more
        simp [deleteNode, less, more, right stuck]
      · rename_i more
        split at stuck
        · simp [deleteNode, less, more, removeInner]
        · cases stuck

end Walk

/- A source that keeps the nodes passed to free_node. -/
def recorder : NodeSource (List Nat) := ⟨fun _ => none, fun p st => some (st.1 ++ [p], st.2)⟩

/-- Exactly the block at `addr` leaves the list, with one node, which the tree has no more. -/
def RemovesOnly (addr : Nat) (t : AvlTree) : Prop :=
  ∀ parentNull phys, ∃ t' freed,
    deleteNode recorder parentNull addr t ([], phys) = some (t', freed, phys) ∧
    t'.toList.map AvlNode.payload = (t.toList.map AvlNode.payload).filter (·.1 ≠ addr) ∧
    freed.length = (if addr ∈ t.toList.map AvlNode.addr then 1 else 0) ∧
    ∀ p ∈ freed, p ∉ nodePtrs t'

/-- The nodes that a rotation turns are there. If the balance is -2 in eight bits, there is a
left side, and if that leans to the right, it has a right side; 2 is the mirror image. -/
def Turns (l r : AvlTree) : Prop :=
  (int8 (top r - top l) = -2 →
    ∃ w i a b, l = .node w i a b ∧ (int8 (top b - top a) = 1 → b ≠ .nil)) ∧
  (int8 (top r - top l) = 2 →
    ∃ w i a b, r = .node w i a b ∧ (int8 (top b - top a) = -1 → a ≠ .nil))

/-- The place of `addr` is left, and every node on the way up, with the sides that are there by
then, finds the nodes it turns. -/
def Climbs (addr : Nat) : AvlTree → Prop
  | .nil => True
  | .node v _ l r =>
    if addr < v.addr then Climbs addr l ∧ ∀ l', climb addr l = some l' → Turns l' r
    else if v.addr < addr then Climbs addr r ∧ ∀ r', climb addr r = some r' → Turns l r'
    else match l, r with
      | .nil, .nil => True
      | .node _ _ a b, .nil => Turns a b
      | .nil, .node _ _ a b => Turns a b
      | .node .., .node .. => ∀ m rest, r.takeMin = some (m, rest) → Turns l rest

theorem turnRight_isSome (v : AvlNode) (h : Nat) (l r : AvlTree) :
    (turnRight v h l r).isSome = true ↔
      ∃ w i a b, l = .node w i a b ∧ (int8 (top b - top a) = 1 → b ≠ .nil) := by
  cases l with
  | nil => simp [turnRight, balance, rotateRight]
  | node w i a b =>
    by_cases inner : int8 (top b - top a) = 1
    · cases b <;> simp_all [turnRight, balance, rotateLeft, setHeight, rotateRight]
    · simp [turnRight, balance, inner, rotateRight]

theorem turnLeft_isSome (v : AvlNode) (h : Nat) (l r : AvlTree) :
    (turnLeft v h l r).isSome = true ↔
      ∃ w i a b, r = .node w i a b ∧ (int8 (top b - top a) = -1 → a ≠ .nil) := by
  cases r with
  | nil => simp [turnLeft, balance, rotateLeft]
  | node w i a b =>
    by_cases inner : int8 (top b - top a) = -1
    · cases a <;> simp_all [turnLeft, balance, rotateRight, setHeight, rotateLeft]
    · simp [turnLeft, balance, inner, rotateLeft]

theorem rebalance_isSome (v : AvlNode) (h : Nat) (l r : AvlTree) :
    (rebalance v h l r).isSome = true ↔ Turns l r := by
  simp only [rebalance, balance, Option.isSome_map, Turns]
  by_cases left : int8 (top r - top l) = -2
  · simp [left, turnRight_isSome]
  · by_cases right : int8 (top r - top l) = 2
    · simp [right, turnLeft_isSome]
    · simp [left, right]

theorem climb_isSome (addr : Nat) (t : AvlTree) : (climb addr t).isSome = true ↔ Climbs addr t := by
  induction t with
  | nil => simp [climb, Climbs]
  | node v h l r left right =>
    by_cases less : addr < v.addr
    · simp only [climb, Climbs, if_pos less, ← left]
      cases climb addr l <;> simp [rebalance_isSome]
    · by_cases more : v.addr < addr
      · simp only [climb, Climbs, if_neg less, if_pos more, ← right]
        cases climb addr r <;> simp [rebalance_isSome]
      · cases l with
        | nil => cases r <;> simp [climb, Climbs, less, more, rebalanceRoot, rebalance_isSome]
        | node x j c d =>
          cases r with
          | nil => simp [climb, Climbs, less, more, rebalanceRoot, rebalance_isSome]
          | node w i a b =>
            obtain ⟨m, rest, least⟩ := takeMin_isSome (t := KeyTree.node w i a b) (by simp)
            simp [climb, Climbs, less, more, least, rebalance_isSome]

theorem removesOnly_iff (t : AvlTree) (addr : Nat)
    (sorted : t.toList.Pairwise fun v w => v.addr < w.addr) (nodes : (nodePtrs t).Nodup) :
    RemovesOnly addr t ↔ removable addr t = true ∧ Climbs addr t := by
  rw [← climb_isSome]
  constructor
  · intro removes
    obtain ⟨t', freed, done, _⟩ := removes false ⟨fun _ _ => 0, [], 0⟩
    have ok : removable addr t = true := by
      by_contra stuck
      rw [deleteNode_wild _ (by simpa using stuck)] at done
      cases done
    exact ⟨ok, Option.isSome_of_eq_some (deleteNode_climb ok done)⟩
  · rintro ⟨ok, up⟩ parentNull phys
    obtain ⟨t', way⟩ := Option.isSome_iff_exists.mp up
    obtain ⟨A, M, B, split, below, above, place⟩ := place_exists sorted addr
    have outside : ∀ C : List AvlNode, (∀ x ∈ C, x.addr ≠ addr) →
        (C.map AvlNode.payload).filter (·.1 ≠ addr) = C.map AvlNode.payload := by
      intro C other
      refine List.filter_eq_self.mpr fun p inside => ?_
      obtain ⟨v, within, rfl⟩ := List.mem_map.mp inside
      exact decide_eq_true (other v within)
    have before := outside A fun x inside => Nat.ne_of_lt (below x inside)
    have after := outside B fun x inside => Nat.ne_of_gt (above x inside)
    rcases place with rfl | ⟨b, rfl, rfl⟩
    · have absent : ∀ v ∈ t.toList, v.addr ≠ addr := by
        intro v inside
        rw [split, List.append_nil] at inside
        rcases List.mem_append.mp inside with inside | inside
        · exact Nat.ne_of_lt (below v inside)
        · exact Nat.ne_of_gt (above v inside)
      obtain ⟨done, list⟩ := deleteNode_absent recorder parentNull ([], phys) way absent
      refine ⟨t', [], done, by rw [list, outside _ absent], ?_, by simp⟩
      rw [if_neg, List.length_nil]
      intro inside
      obtain ⟨v, within, same⟩ := List.mem_map.mp inside
      exact absent v within same
    · rw [List.append_assoc, List.singleton_append] at split
      obtain ⟨freed, B', removed, list, step⟩ :=
        deleteNode_list recorder parentNull way split below above ok
      refine ⟨t', [freed], step _ _ rfl, ?_, ?_, ?_⟩
      · rw [list, split, List.map_append, List.map_append, List.map_cons, List.filter_append,
          before, List.filter_cons_of_neg (by simp [AvlNode.payload]), after, removed.payload]
      · rw [if_pos (by simp [split]), List.length_singleton]
      · intro p inside
        rw [List.mem_singleton.mp inside]
        exact (List.nodup_cons.mp ((removed.tree split list).nodup_iff.mpr nodes)).1

/- Three blocks, the middle one at the root. -/
def threeBlocks : AvlTree := .node ⟨2, 0x2000, 1, true⟩ 1
  (.node ⟨1, 0x1000, 1, true⟩ 0 .nil .nil) (.node ⟨3, 0x3000, 1, true⟩ 0 .nil .nil)

/- Two blocks whose nodes both have the height of a leaf. -/
def lowBlocks : AvlTree :=
  .node ⟨1, 0x1000, 1, true⟩ 0 .nil (.node ⟨2, 0x2000, 1, true⟩ 0 .nil .nil)

theorem removesOnly_leaf : RemovesOnly 0x3000 threeBlocks ∧ RemovesOnly 0x1000 lowBlocks :=
  ⟨(removesOnly_iff threeBlocks 0x3000 (by decide) (by decide)).mpr
      ⟨rfl, (climb_isSome _ _).mp rfl⟩,
    (removesOnly_iff lowBlocks 0x1000 (by decide) (by decide)).mpr
      ⟨rfl, (climb_isSome _ _).mp rfl⟩⟩

/-- The root goes: its successor stays in the tree twice, the second time in a freed node,
or the code writes through the pointer it never set. -/
theorem removal_keeps_freed_node : IsAvl threeBlocks ∧ (nodePtrs threeBlocks).Nodup ∧
    (∀ phys, deleteNode recorder false 0x2000 threeBlocks ([], phys) = none) ∧
    (∀ phys, ∃ t', deleteNode recorder true 0x2000 threeBlocks ([], phys) = some (t', [3], phys) ∧
      t'.toList.map AvlNode.payload =
        [(0x1000, 1, true), (0x3000, 1, true), (0x3000, 1, true)] ∧ 3 ∈ nodePtrs t') ∧
    ¬ RemovesOnly 0x2000 threeBlocks := by
  refine ⟨⟨by decide, by decide⟩, by decide, fun _ => rfl, fun _ => ⟨_, rfl, rfl, by decide⟩, ?_⟩
  intro removes
  obtain ⟨t', freed, done, _⟩ := removes false ⟨fun _ _ => 0, [], 0⟩
  cases done

/-- The least node has a parent, whose two sides are equally high. -/
def evenMin : AvlTree → Bool
  | .nil => false
  | .node _ _ .nil _ => false
  | .node _ _ (.node _ i .nil _) r => i + 1 == top r
  | .node _ _ (.node w i (.node x j c d) b) _ => evenMin (.node w i (.node x j c d) b)

/-- The removal shortens no path but the one it repairs on its way back: the node has at most
one child, or the place its successor is cut out of does not get lower by it. -/
def heightsStay (addr : Nat) : AvlTree → Bool
  | .nil => true
  | .node v _ l r =>
    if addr < v.addr then heightsStay addr l
    else if v.addr < addr then heightsStay addr r
    else match l, r with
      | .node .., .node .. => evenMin r
      | _, _ => true

theorem takeMin_balanced {v w m : AvlNode} {h i : Nat} {a b r rest : AvlTree}
    (balanced : Balanced (.node v h (.node w i a b) r))
    (least : KeyTree.takeMin (.node v h (.node w i a b) r) = some (m, rest)) :
    top rest = h + 1 ∧ (Balanced rest ↔ evenMin (.node v h (.node w i a b) r) = true) := by
  induction a generalizing v h w i b r rest with
  | nil =>
    cases least
    obtain ⟨height, hl, hr, bl, br⟩ := balanced_node.mp balanced
    obtain ⟨height', low, high, _, bb⟩ := balanced_node.mp bl
    rw [top_node] at height hl hr
    rw [top_nil] at height' low high
    refine ⟨rfl, ?_⟩
    show Balanced (.node v h b r) ↔ _
    rw [balanced_node, evenMin, beq_iff_eq]
    constructor
    · rintro ⟨height'', _, _, _, _⟩
      omega
    · intro even
      exact ⟨by omega, by omega, by omega, bb, br⟩
  | node x j c d deeper _ =>
    rw [KeyTree.takeMin, Option.map_eq_some_iff] at least
    obtain ⟨⟨m', rest'⟩, inner, eq⟩ := least
    cases eq
    obtain ⟨height, hl, hr, bl, br⟩ := balanced_node.mp balanced
    obtain ⟨same, kept⟩ := deeper bl inner
    refine ⟨rfl, ?_⟩
    rw [balanced_node, same, evenMin, ← kept]
    constructor
    · exact fun whole => whole.2.2.2.1
    · exact fun lower => ⟨height, hl, hr, lower, br⟩

theorem rebalance_plain (v : AvlNode) {h : Nat} {l r : AvlTree} (small : h < 2 ^ 16)
    (height : h = max (top l) (top r)) (left : top l ≤ top r + 1) (right : top r ≤ top l + 1) :
    rebalance v h l r = some (.node v h l r) := by
  have plain : ∀ c : Int, c = 2 ∨ c = -2 → balance (.node v h l r) ≠ c := by
    intro c two
    rw [ne_eq, balance_near (by omega) (by omega)]
    omega
  simp [rebalance, plain 2 (.inl rfl), plain (-2) (.inr rfl),
    setHeight_node (show top l < 2 ^ 16 by omega) (show top r < 2 ^ 16 by omega), ← height]

theorem rebalanceRoot_balanced {t : AvlTree} (ne : t ≠ .nil) (balanced : Balanced t)
    (wide : top t ≤ 2 ^ 16) : rebalanceRoot t = some t := by
  cases t with
  | nil => exact absurd rfl ne
  | node v h l r =>
    obtain ⟨height, hl, hr, _⟩ := balanced_node.mp balanced
    rw [top_node] at wide
    rw [rebalanceRoot, rebalance_plain v (by omega) height hl hr]

theorem removeInner_balanced (parentNull : Bool) {v w : AvlNode} {i : Nat} {a b : AvlTree}
    (deep : a ≠ .nil) (balanced : Balanced (.node w i a b)) :
    ∃ (m : AvlNode) (rest : AvlTree), removeInner parentNull v (.node w i a b) =
        some ({ m with ptr := v.ptr }, m.ptr, rest) ∧ top rest = i + 1 ∧
      (Balanced rest ↔ evenMin (.node w i a b) = true) := by
  obtain ⟨m, rest, least, inner⟩ := removeInner_deep parentNull (v := v) (w := w) (i := i)
    (b := b) deep
  cases a with
  | nil => exact absurd rfl deep
  | node x j c d => exact ⟨m, rest, inner, takeMin_balanced balanced least⟩

section Heights

variable {σ : Type} {src : NodeSource σ} {addr : Nat} {st : σ × Phys}

theorem deleteNode_stays (frees : ∀ p, ∃ st', src.freeNode p st = some st') (parentNull : Bool)
    {t : AvlTree} (balanced : Balanced t) (wide : top t ≤ 2 ^ 16)
    (stays : heightsStay addr t = true) :
    ∃ t' st', deleteNode src parentNull addr t st = some (t', st') ∧ Balanced t' ∧
      top t' ≤ top t ∧ top t ≤ top t' + 1 := by
  induction t with
  | nil => exact ⟨.nil, st, rfl, trivial, Nat.le_refl _, Nat.le_succ _⟩
  | node v h l r left right =>
    obtain ⟨height, hl, hr, bl, br⟩ := balanced_node.mp balanced
    rw [top_node] at wide ⊢
    unfold heightsStay at stays
    split at stays
    · rename_i less
      obtain ⟨l', st', step, bl', low, high⟩ := left bl (by omega) stays
      obtain ⟨t', eq, rebuilt⟩ := rebalance_rebuilt (v := v) (h := h) bl' br (by omega) (by omega)
        (by omega) (by omega)
      have low' := rebuilt.low
      have high' := rebuilt.high
      have plain := rebuilt.plain
      exact ⟨t', st', by simp [deleteNode, less, step, eq], rebuilt.balanced, by omega, by omega⟩
    · rename_i less
      split at stays
      · rename_i more
        obtain ⟨r', st', step, br', low, high⟩ := right br (by omega) stays
        obtain ⟨t', eq, rebuilt⟩ := rebalance_rebuilt (v := v) (h := h) bl br' (by omega)
          (by omega) (by omega) (by omega)
        have low' := rebuilt.low
        have high' := rebuilt.high
        have plain := rebuilt.plain
        exact ⟨t', st', by simp [deleteNode, less, more, step, eq], rebuilt.balanced, by omega,
          by omega⟩
      · rename_i more
        cases l with
        | nil =>
          obtain ⟨st', free⟩ := frees v.ptr
          cases r with
          | nil => exact ⟨.nil, st', by simp [deleteNode, less, more, free], trivial, by simp [top],
              by simp [height, top]⟩
          | node w i a b =>
            have root := rebalanceRoot_balanced (by simp) br (by omega)
            rw [top_nil] at height
            refine ⟨_, st', by simp [deleteNode, less, more, free, root], br, ?_, ?_⟩ <;> omega
        | node x j c d =>
          cases r with
          | nil =>
            obtain ⟨st', free⟩ := frees v.ptr
            have root := rebalanceRoot_balanced (by simp) bl (by omega)
            rw [top_nil] at height
            refine ⟨_, st', by simp [deleteNode, less, more, free, root], bl, ?_, ?_⟩ <;> omega
          | node w i a b =>
            have deep : a ≠ .nil := by
              rintro rfl
              cases stays
            obtain ⟨m, rest, inner, same, kept⟩ := removeInner_balanced parentNull (v := v) deep br
            obtain ⟨st', free⟩ := frees m.ptr
            have sides : top rest = top (.node w i a b) := same
            rw [← sides] at height hl hr
            have eq := rebalance_plain { m with ptr := v.ptr } (by omega) height hl hr
            exact ⟨.node { m with ptr := v.ptr } h (.node x j c d) rest, st',
              by simp [deleteNode, less, more, inner, free, eq],
              balanced_node.mpr ⟨height, hl, hr, bl, kept.mpr stays⟩, Nat.le_refl _, Nat.le_succ _⟩

theorem deleteNode_sinks (frees : ∀ p, ∃ st', src.freeNode p st = some st') {t : AvlTree}
    (balanced : Balanced t) (wide : top t ≤ 2 ^ 16) (sinks : heightsStay addr t = false) :
    deleteNode src false addr t st = none ∨ ∃ t' st',
      deleteNode src false addr t st = some (t', st') ∧ top t' = top t ∧ ¬ Balanced t' := by
  induction t with
  | nil => cases sinks
  | node v h l r left right =>
    obtain ⟨height, hl, hr, bl, br⟩ := balanced_node.mp balanced
    rw [top_node] at wide ⊢
    unfold heightsStay at sinks
    split at sinks
    · rename_i less
      rcases left bl (by omega) sinks with none | ⟨l', st', step, same, broken⟩
      · exact .inl (by simp [deleteNode, less, none])
      · rw [← same] at height hl hr
        have eq := rebalance_plain v (by omega) height hl hr
        refine .inr ⟨.node v h l' r, st', by simp [deleteNode, less, step, eq], rfl, ?_⟩
        exact fun whole => broken (balanced_node.mp whole).2.2.2.1
    · rename_i less
      split at sinks
      · rename_i more
        rcases right br (by omega) sinks with none | ⟨r', st', step, same, broken⟩
        · exact .inl (by simp [deleteNode, less, more, none])
        · rw [← same] at height hl hr
          have eq := rebalance_plain v (by omega) height hl hr
          refine .inr ⟨.node v h l r', st', by simp [deleteNode, less, more, step, eq], rfl, ?_⟩
          exact fun whole => broken (balanced_node.mp whole).2.2.2.2
      · rename_i more
        split at sinks
        · rename_i x j c d w i a b
          by_cases deep : a = .nil
          · exact .inl (by simp [deleteNode, less, more, deep, removeInner])
          · obtain ⟨m, rest, inner, same, kept⟩ := removeInner_balanced false (v := v) deep br
            obtain ⟨st', free⟩ := frees m.ptr
            have sides : top rest = top (.node w i a b) := same
            rw [← sides] at height hl hr
            have eq := rebalance_plain { m with ptr := v.ptr } (by omega) height hl hr
            refine .inr ⟨.node { m with ptr := v.ptr } h (.node x j c d) rest, st',
              by simp [deleteNode, less, more, inner, free, eq], rfl, fun whole => ?_⟩
            rw [kept.mp (balanced_node.mp whole).2.2.2.2] at sinks
            cases sinks
        · cases sinks

end Heights

/-- avl_remove gives an AVL tree back exactly if no height below the removed node changes. -/
theorem removal_balanced_iff {σ : Type} (src : NodeSource σ)
    (frees : ∀ p st, ∃ st', src.freeNode p st = some st') (t : AvlTree) (addr : Nat)
    (avl : IsAvl t) (wide : top t ≤ 2 ^ 16) (st : σ × Phys) :
    (∀ parentNull, ∃ t' st', deleteNode src parentNull addr t st = some (t', st') ∧ Balanced t') ↔
      heightsStay addr t = true := by
  constructor
  · intro always
    by_contra sinks
    obtain ⟨t', st', done, balanced⟩ := always false
    rcases deleteNode_sinks (fun p => frees p st) avl.balanced wide (by simpa using sinks) with
      none | ⟨t'', st'', done', _, broken⟩
    · rw [none] at done
      cases done
    · rw [done'] at done
      cases done
      exact broken balanced
  · intro stays parentNull
    obtain ⟨t', st', done, balanced, _⟩ :=
      deleteNode_stays (fun p => frees p st) parentNull avl.balanced wide stays
    exact ⟨t', st', done, balanced⟩

/- A root whose successor is the only child of its parent, and the same with a block beside it. -/
def fiveBlocks (beside : AvlTree) : AvlTree := .node ⟨4, 0x4000, 1, true⟩ 2
  (.node ⟨2, 0x2000, 1, true⟩ 1 (.node ⟨1, 0x1000, 1, true⟩ 0 .nil .nil) .nil)
  (.node ⟨6, 0x6000, 1, true⟩ 1 (.node ⟨5, 0x5000, 1, true⟩ 0 .nil .nil) beside)

def besideSuccessor : AvlTree := .node ⟨7, 0x7000, 1, true⟩ 0 .nil .nil

theorem removal_balanced_even : heightsStay 0x4000 (fiveBlocks besideSuccessor) = true ∧
    ∀ parentNull, ∃ t' st', deleteNode recorder parentNull 0x4000 (fiveBlocks besideSuccessor)
      ([], ⟨fun _ _ => 0, [], 0⟩) = some (t', st') ∧ Balanced t' :=
  ⟨rfl, (removal_balanced_iff recorder (fun _ _ => ⟨_, rfl⟩) (fiveBlocks besideSuccessor) 0x4000
    ⟨by decide, by decide⟩ (by decide) _).mpr rfl⟩

/-- The parent of the successor keeps the height it had with it. -/
theorem removal_leaves_stale_height : IsAvl (fiveBlocks .nil) ∧
    ∀ parentNull phys, ∃ t', deleteNode recorder parentNull 0x4000 (fiveBlocks .nil) ([], phys) =
      some (t', [5], phys) ∧ ¬ Balanced t' :=
  ⟨⟨by decide, by decide⟩, fun _ _ => ⟨_, rfl, by decide⟩⟩

end Gapxos
