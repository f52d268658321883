import Gapxos.Vmm.Blocks

/-! The tree as an AVL tree. An insertion keeps the stored heights true and the sides of
every node within one of each other; the differences stay within two on the way, so that
they fit into eight bits however high the tree is. -/
namespace Gapxos
open SearchTree

/-- The true height, one more than the one that is stored. -/
def depth : AvlTree → Nat
  | .nil => 0
  | .node _ _ l r => max (depth l) (depth r) + 1

/- Stored heights are true, and every balance is -1, 0 or 1. -/
def Balanced : AvlTree → Prop
  | .nil => True
  | .node _ h l r => h = max (depth l) (depth r) ∧ depth l ≤ depth r + 1 ∧ depth r ≤ depth l + 1 ∧
      Balanced l ∧ Balanced r

instance decidableBalanced : ∀ t, Decidable (Balanced t)
  | .nil => inferInstanceAs (Decidable True)
  | .node _ h l r =>
    have := decidableBalanced l
    have := decidableBalanced r
    inferInstanceAs (Decidable (h = max (depth l) (depth r) ∧ depth l ≤ depth r + 1 ∧
      depth r ≤ depth l + 1 ∧ Balanced l ∧ Balanced r))

theorem Balanced.top_eq {t : AvlTree} (h : Balanced t) : top t = depth t := by
  cases t with
  | nil => rfl
  | node v i l r => rw [top_node, h.1, depth]

theorem balanced_node {v : AvlNode} {h : Nat} {l r : AvlTree} : Balanced (.node v h l r) ↔
    h = max (top l) (top r) ∧ top l ≤ top r + 1 ∧ top r ≤ top l + 1 ∧ Balanced l ∧ Balanced r := by
  constructor
  · rintro ⟨height, left, right, bl, br⟩
    rw [bl.top_eq, br.top_eq]
    exact ⟨height, left, right, bl, br⟩
  · rintro ⟨height, left, right, bl, br⟩
    rw [bl.top_eq, br.top_eq] at *
    exact ⟨height, left, right, bl, br⟩

theorem balanced_mirror {t : AvlTree} : Balanced t.mirror ↔ Balanced t := by
  induction t with
  | nil => exact Iff.rfl
  | node v h l r left right =>
    rw [KeyTree.mirror, balanced_node, balanced_node, top_mirror, top_mirror, left, right,
      Nat.max_comm]
    tauto

theorem balance_near {v : AvlNode} {h : Nat} {l r : AvlTree} (hl : top l ≤ top r + 2)
    (hr : top r ≤ top l + 2) {c : Int} :
    balance (.node v h l r) = c ↔ (top r : Int) - top l = c := by
  rw [balance, int8, Int.bmod_def]
  omega

structure Rebuilt (l r t : AvlTree) : Prop where
  balanced : Balanced t
  low : max (top l) (top r) ≤ top t
  high : top t ≤ max (top l) (top r) + 1
  plain : top l ≤ top r + 1 → top r ≤ top l + 1 → top t = max (top l) (top r) + 1

theorem rebuilt_plain {v : AvlNode} {h : Nat} {l r : AvlTree} (bl : Balanced l) (br : Balanced r)
    (hl : top l < 2 ^ 16) (hr : top r < 2 ^ 16) (left : top l ≤ top r + 1)
    (right : top r ≤ top l + 1) : Rebuilt l r (setHeight (.node v h l r)) := by
  rw [setHeight_node hl hr]
  have root : top (.node v (max (top l) (top r)) l r) = max (top l) (top r) + 1 := rfl
  constructor
  · exact balanced_node.mpr ⟨rfl, left, right, bl, br⟩
  · omega
  · omega
  · exact fun _ _ => root

theorem rotateRight_rebuilt {v w : AvlNode} {h i : Nat} {a b r : AvlTree} (ba : Balanced a)
    (bb : Balanced b) (br : Balanced r) (small : top a < 2 ^ 16 - 1) (ha : top a = top r + 1)
    (low : top r ≤ top b + 1) (high : top b ≤ top a) :
    ∃ t, rotateRight (.node v h (.node w i a b) r) = some t ∧ setHeight t = t ∧ Balanced t ∧
      top t = max (top b) (top r) + 2 := by
  refine ⟨_, rfl, setHeight_idem _, ?_⟩
  have inner : top (.node v (max (top b) (top r)) b r) = max (top b) (top r) + 1 := rfl
  rw [setHeight_node (v := v) (by omega) (by omega), setHeight_node (by omega)
    (by rw [inner]; omega), balanced_node, balanced_node, inner]
  refine ⟨⟨rfl, by omega, by omega, ba, rfl, by omega, by omega, bb, br⟩, ?_⟩
  show max (top a) (max (top b) (top r) + 1) + 1 = max (top b) (top r) + 2
  omega

theorem rebalance_left {v : AvlNode} {h : Nat} {l r : AvlTree} (bl : Balanced l) (br : Balanced r)
    (hl : top l < 2 ^ 16) (heavy : top l = top r + 2) :
    ∃ t, rebalance v h l r = some t ∧ Balanced t ∧ top l ≤ top t ∧ top t ≤ top l + 1 := by
  have outer : balance (.node v h l r) = -2 := (balance_near (by omega) (by omega)).mpr (by omega)
  cases l with
  | nil => simp [top] at heavy
  | node w i a b =>
    obtain ⟨height, left, right, ba, bb⟩ := balanced_node.mp bl
    rw [top_node] at hl heavy ⊢
    have inner : balance (.node w i a b) = 1 ↔ top b = top a + 1 := by
      rw [balance_near (by omega) (by omega)]
      omega
    by_cases double : balance (.node w i a b) = 1
    · have hb := inner.mp double
      cases b with
      | nil => simp [top] at hb
      | node z j c d =>
        obtain ⟨height', left', right', bc, bd⟩ := balanced_node.mp bb
        rw [top_node] at hb height right
        have turned : rotateLeft (.node w i a (.node z j c d)) = some (.node z
            (max (max (top a) (top c) + 1) (top d)) (.node w (max (top a) (top c)) a c) d) := by
          rw [rotateLeft, setHeight_node (v := w) (by omega) (by omega),
            setHeight_node (by rw [top_node]; omega) (by omega)]
          rfl
        have lower : Balanced (.node w (max (top a) (top c)) a c) :=
          balanced_node.mpr ⟨rfl, by omega, by omega, ba, bc⟩
        obtain ⟨t, eq, kept, balanced, high⟩ := rotateRight_rebuilt (v := v) (w := z) (h := h)
          (i := max (max (top a) (top c) + 1) (top d)) lower bd br (by rw [top_node]; omega)
          (by rw [top_node]; omega) (by omega) (by rw [top_node]; omega)
        refine ⟨t, by simp [rebalance, outer, turnRight, double, turned, eq, kept], balanced, ?_⟩
        omega
    · have single : top b ≠ top a + 1 := mt inner.mpr double
      obtain ⟨t, eq, kept, balanced, high⟩ := rotateRight_rebuilt (v := v) (w := w) (h := h)
        (i := i) ba bb br (by omega) (by omega) (by omega) (by omega)
      refine ⟨t, by simp [rebalance, outer, turnRight, double, eq, kept], balanced, ?_⟩
      omega

theorem rebalance_rebuilt {v : AvlNode} {h : Nat} {l r : AvlTree} (bl : Balanced l)
    (br : Balanced r) (hl : top l < 2 ^ 16) (hr : top r < 2 ^ 16) (left : top l ≤ top r + 2)
    (right : top r ≤ top l + 2) : ∃ t, rebalance v h l r = some t ∧ Rebuilt l r t := by
  by_cases heavy : top l = top r + 2
  · obtain ⟨t, eq, balanced, low, high⟩ := rebalance_left (v := v) (h := h) bl br hl heavy
    exact ⟨t, eq, balanced, by omega, by omega, by omega⟩
  · by_cases heavy' : top r = top l + 2
    · obtain ⟨t, eq, balanced, low, high⟩ := rebalance_left (v := v) (h := h)
        (balanced_mirror.mpr br) (balanced_mirror.mpr bl) (by rw [top_mirror]; exact hr)
        (by rw [top_mirror, top_mirror]; exact heavy')
      have turned := rebalance_mirror v h r.mirror l.mirror
      rw [KeyTree.mirror_mirror, KeyTree.mirror_mirror, eq] at turned
      rw [top_mirror] at low high
      refine ⟨t.mirror, turned, balanced_mirror.mpr balanced, ?_, ?_, by omega⟩
      · rw [top_mirror]
        omega
      · rw [top_mirror]
        omega
    · have plain : ∀ c : Int, c = 2 ∨ c = -2 → balance (.node v h l r) ≠ c := by
        intro c two
        rw [ne_eq, balance_near left right]
        omega
      exact ⟨_, by simp [rebalance, plain 2 (.inl rfl), plain (-2) (.inr rfl)],
        rebuilt_plain (v := v) (h := h) bl br hl hr (by omega) (by omega)⟩

section Insert

variable {σ : Type} (src : NodeSource σ) (st : σ × Phys) (addr pageCount : Nat)

/- What stands at the place of a key before and after an insertion: nothing and the node that
create_node returns, or the node of that key before and after it is overwritten. -/
inductive Entered : List AvlNode → AvlNode → σ × Phys → Prop
  | new (ptr : Nat) (st' : σ × Phys) (made : src.createNode st = some (ptr, st')) :
      Entered [] ⟨ptr, addr, pageCount, false⟩ st'
  | old (b : AvlNode) (here : b.addr = addr) :
      Entered [b] { b with pageCount, allocated := false } st

variable {src st addr pageCount} {M : List AvlNode} {e : AvlNode} {st' : σ × Phys}

theorem insertNode_balanced (entered : Entered src st addr pageCount M e st') {t : AvlTree}
    {A B : List AvlNode} (balanced : Balanced t) (small : top t ≤ 65535)
    (split : t.toList = A ++ M ++ B) (below : ∀ x ∈ A, x.addr < addr)
    (above : ∀ x ∈ B, addr < x.addr) :
    ∃ t', insertNode src addr pageCount t st = some (t', st') ∧ t'.toList = A ++ e :: B ∧
      Balanced t' ∧ top t ≤ top t' ∧ top t' ≤ top t + 1 := by
  have here : ∀ x ∈ M, x.addr = addr := by
    cases entered with
    | new => simp
    | old b here => simp [here]
  induction t generalizing A B with
  | nil =>
    obtain ⟨left, rfl⟩ := List.append_eq_nil_iff.mp split.symm
    obtain ⟨rfl, rfl⟩ := List.append_eq_nil_iff.mp left
    cases entered with
    | new ptr st' made =>
      exact ⟨.node ⟨ptr, addr, pageCount, false⟩ 0 .nil .nil, by simp [insertNode, made]; rfl, rfl,
        ⟨rfl, by decide, by decide, trivial, trivial⟩, Nat.zero_le _, Nat.le_refl _⟩
  | node v h l r left right =>
    obtain ⟨height, hl, hr, bl, br⟩ := balanced_node.mp balanced
    rw [top_node] at small ⊢
    rw [KeyTree.toList_node] at split
    by_cases less : addr < v.addr
    · obtain ⟨C, rfl, eq⟩ := place_left split below here less
      obtain ⟨l', step, list, bl', low, high⟩ := left bl (by omega) eq below
        fun x inside => above x (List.mem_append_left _ inside)
      obtain ⟨t', eq', rebuilt⟩ := rebalance_rebuilt (v := v) (h := h) bl' br (by omega) (by omega)
        (by omega) (by omega)
      have low' := rebuilt.low
      have high' := rebuilt.high
      have plain := rebuilt.plain
      refine ⟨t', by simp [insertNode, less, step, eq'], ?_, rebuilt.balanced, by omega, by omega⟩
      rw [rebalance_toList eq', list]
      simp
    · by_cases more : v.addr < addr
      · obtain ⟨C, rfl, eq⟩ := place_right split here above more
        obtain ⟨r', step, list, br', low, high⟩ := right br (by omega) eq
          (fun x inside => below x (by simp [inside])) above
        obtain ⟨t', eq', rebuilt⟩ := rebalance_rebuilt (v := v) (h := h) bl br' (by omega)
          (by omega) (by omega) (by omega)
        have low' := rebuilt.low
        have high' := rebuilt.high
        have plain := rebuilt.plain
        refine ⟨t', by simp [insertNode, less, more, step, eq'], ?_, rebuilt.balanced, by omega,
          by omega⟩
        rw [rebalance_toList eq', list]
        simp
      · -- the key is that of this node
        cases entered with
        | new =>
          have inside : v ∈ A ++ B := by rw [← List.append_nil A, ← split]; simp
          rcases List.mem_append.mp inside with inside | inside
          · have := below v inside
            omega
          · have := above v inside
            omega
        | old b same =>
          rw [List.append_assoc, List.singleton_append] at split
          obtain ⟨rfl, rfl, rfl⟩ := place_here split below above (by omega)
          refine ⟨.node { v with addr, pageCount, allocated := false } h l r,
            by simp [insertNode, less, more], ?_, ⟨balanced.1, balanced.2⟩, by rw [top_node],
            by rw [top_node]; omega⟩
          rw [KeyTree.toList_node, same]

theorem entered_sorted (entered : Entered src st addr pageCount M e st') {A B : List AvlNode}
    (sorted : (A ++ M ++ B).Pairwise fun v w => v.addr < w.addr) (below : ∀ x ∈ A, x.addr < addr)
    (above : ∀ x ∈ B, addr < x.addr) : (A ++ e :: B).Pairwise fun v w => v.addr < w.addr := by
  have same : e.addr = addr := by
    cases entered with
    | new => rfl
    | old b here => exact here
  obtain ⟨left, right, across⟩ := List.pairwise_append.mp sorted
  refine List.pairwise_append.mpr ⟨(List.pairwise_append.mp left).1, ?_, ?_⟩
  · exact List.pairwise_cons.mpr ⟨fun x inside => same ▸ above x inside, right⟩
  · intro x first y second
    rcases List.mem_cons.mp second with rfl | second
    · exact same ▸ below x first
    · exact across x (List.mem_append_left _ first) y second

end Insert

/-- Ordered by address, with true heights and balances. -/
structure IsAvl (t : AvlTree) : Prop where
  sorted : t.toList.Pairwise fun v w => v.addr < w.addr
  balanced : Balanced t

theorem IsAvl.insert {σ : Type} {src : NodeSource σ} {st st' : σ × Phys} {addr pageCount : Nat}
    {M : List AvlNode} {e : AvlNode} (entered : Entered src st addr pageCount M e st')
    {t : AvlTree} {A B : List AvlNode} (avl : IsAvl t) (high : depth t ≤ 65535)
    (split : t.toList = A ++ M ++ B) (below : ∀ x ∈ A, x.addr < addr)
    (above : ∀ x ∈ B, addr < x.addr) :
    ∃ t', insertNode src addr pageCount t st = some (t', st') ∧ IsAvl t' ∧
      t'.toList = A ++ e :: B := by
  obtain ⟨t', eq, list, balanced, _⟩ := insertNode_balanced entered avl.balanced
    (by rw [avl.balanced.top_eq]; exact high) split below above
  refine ⟨t', eq, ⟨?_, balanced⟩, list⟩
  rw [list]
  exact entered_sorted entered (split ▸ avl.sorted) below above

/-- An insertion overwrites the node of its key, or puts a new node at its place; all other
nodes stay what they are, and the tree stays an AVL tree. -/
theorem insertNode_avl {σ : Type} (src : NodeSource σ) (st : σ × Phys) (t : AvlTree)
    (addr pageCount : Nat) (avl : IsAvl t) (high : depth t ≤ 65535) :
    (∀ A b B, t.toList = A ++ b :: B → b.addr = addr →
      ∃ t', insertNode src addr pageCount t st = some (t', st) ∧ IsAvl t' ∧
        t'.toList = A ++ { b with pageCount, allocated := false } :: B) ∧
    ∀ ptr st', (∀ v ∈ t.toList, v.addr ≠ addr) → src.createNode st = some (ptr, st') →
      ∃ t' A B, t.toList = A ++ B ∧ insertNode src addr pageCount t st = some (t', st') ∧
        IsAvl t' ∧ t'.toList = A ++ ⟨ptr, addr, pageCount, false⟩ :: B := by
  constructor
  · intro A b B split here
    have sorted := avl.sorted
    rw [split] at sorted
    obtain ⟨_, after, before⟩ := List.pairwise_append.mp sorted
    refine avl.insert (.old b here) high (by simpa using split) ?_ ?_
    · exact fun x inside => here ▸ before x inside b List.mem_cons_self
    · exact fun x inside => here ▸ (List.pairwise_cons.mp after).1 x inside
  · intro ptr st' absent made
    obtain ⟨A, M, B, split, below, above, place⟩ := place_exists avl.sorted addr
    have empty : M = [] := by
      rcases place with none | ⟨b, rfl, here⟩
      · exact none
      · exact absurd here (absent b (by simp [split]))
    subst empty
    obtain ⟨t', eq, avl', list⟩ := avl.insert (.new ptr st' made) high split below above
    exact ⟨t', A, B, by simpa using split, eq, avl', list⟩

theorem insertNode_avl_turns :
    ∃ t' A B, [(⟨1, 0x1000, 1, true⟩ : AvlNode), ⟨2, 0x2000, 1, true⟩] = A ++ B ∧
      insertNode ⟨fun st => some (3, st), fun _ st => some st⟩ 0x3000 2
        (.node ⟨1, 0x1000, 1, true⟩ 1 .nil (.node ⟨2, 0x2000, 1, true⟩ 0 .nil .nil))
        ((), ⟨fun _ _ => 0, [], 0⟩) = some (t', ((), ⟨fun _ _ => 0, [], 0⟩)) ∧ IsAvl t' ∧
      t'.toList = A ++ ⟨3, 0x3000, 2, false⟩ :: B :=
  (insertNode_avl ⟨fun st => some (3, st), fun _ st => some st⟩ ((), ⟨fun _ _ => 0, [], 0⟩)
    (.node ⟨1, 0x1000, 1, true⟩ 1 .nil (.node ⟨2, 0x2000, 1, true⟩ 0 .nil .nil)) 0x3000 2
    ⟨by decide, by decide⟩ (by decide)).2 3 _ (by decide) rfl

end Gapxos
