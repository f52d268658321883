import Gapxos.Vmm.Avl

/-! The tree operations as operations on the in-order list of blocks. Deletion leaves
heights below the place it cut out too large, so a stored height is only known to be
above those of the children; with room to spare that is enough for every rotation to
find the nodes it turns. -/
namespace Gapxos
open SearchTree

def Tall : AvlTree → Prop
  | .nil => True
  | .node _ h l r => top l ≤ h ∧ top r ≤ h ∧ Tall l ∧ Tall r

theorem top_nil : top .nil = 0 := rfl

theorem top_node (v : AvlNode) (h : Nat) (l r : AvlTree) : top (.node v h l r) = h + 1 := rfl

theorem setHeight_node {v : AvlNode} {h : Nat} {l r : AvlTree} (hl : top l < 2 ^ 16)
    (hr : top r < 2 ^ 16) :
    setHeight (.node v h l r) = .node v (max (top l) (top r)) l r := by
  rw [setHeight, height, Nat.mod_eq_of_lt hl, Nat.mod_eq_of_lt hr]

theorem balance_node {v : AvlNode} {h : Nat} {l r : AvlTree} (hl : top l ≤ 251)
    (hr : top r ≤ 251) {c : Int} (small : -2 ≤ c ∧ c ≤ 2) :
    balance (.node v h l r) = c ↔ (top r : Int) - top l = c := by
  rw [balance, int8, Int.bmod_def]
  omega

/- Left and right change places in every operation. -/
section Mirror

theorem top_mirror (t : AvlTree) : top t.mirror = top t := by
  cases t <;> rfl

theorem tall_mirror {t : AvlTree} : Tall t.mirror ↔ Tall t := by
  induction t with
  | nil => exact Iff.rfl
  | node v h l r left right =>
    simp only [KeyTree.mirror, Tall, top_mirror, left, right]
    tauto

theorem balance_mirror (v : AvlNode) (h : Nat) (l r : AvlTree) {c : Int}
    (small : -2 ≤ c ∧ c ≤ 2) :
    balance (.node v h r.mirror l.mirror) = -c ↔ balance (.node v h l r) = c := by
  rw [balance, balance, top_mirror, top_mirror, int8, int8, Int.bmod_def, Int.bmod_def]
  omega

theorem setHeight_mirror (t : AvlTree) : setHeight t.mirror = (setHeight t).mirror := by
  cases t with
  | nil => rfl
  | node v h l r => simp [KeyTree.mirror, setHeight, height, top_mirror, Nat.max_comm]

theorem rotateLeft_mirror (t : AvlTree) :
    rotateLeft t.mirror = (rotateRight t).map KeyTree.mirror := by
  match t with
  | .nil | .node _ _ .nil _ => rfl
  | .node x h (.node z i a b) r =>
    simp only [KeyTree.mirror, rotateLeft, rotateRight, Option.map_some, ← setHeight_mirror]

theorem rotateRight_mirror (t : AvlTree) :
    rotateRight t.mirror = (rotateLeft t).map KeyTree.mirror := by
  have turned := rotateLeft_mirror t.mirror
  rw [KeyTree.mirror_mirror] at turned
  rw [turned, Option.map_map]
  simp [Function.comp_def]

theorem turnLeft_mirror (v : AvlNode) (h : Nat) (l r : AvlTree) :
    turnLeft v h r.mirror l.mirror = (turnRight v h l r).map KeyTree.mirror := by
  have inner : balance l.mirror = -1 ↔ balance l = 1 := by
    cases l with
    | nil => decide
    | node w i a b => exact balance_mirror w i a b (by omega)
  have outer : ∀ x : AvlTree, rotateLeft (.node v h r.mirror x.mirror) =
      (rotateRight (.node v h x r)).map KeyTree.mirror :=
    fun x => rotateLeft_mirror (.node v h x r)
  unfold turnLeft turnRight
  by_cases heavy : balance l = 1
  · rw [if_pos heavy, if_pos (inner.mpr heavy), rotateRight_mirror]
    cases rotateLeft l with
    | none => rfl
    | some x => exact outer x
  · rw [if_neg heavy, if_neg (mt inner.mp heavy)]
    exact outer l

theorem turnRight_mirror (v : AvlNode) (h : Nat) (l r : AvlTree) :
    turnRight v h r.mirror l.mirror = (turnLeft v h l r).map KeyTree.mirror := by
  have turned := turnLeft_mirror v h r.mirror l.mirror
  rw [KeyTree.mirror_mirror, KeyTree.mirror_mirror] at turned
  rw [turned, Option.map_map]
  simp [Function.comp_def]

theorem rebalance_mirror (v : AvlNode) (h : Nat) (l r : AvlTree) :
    rebalance v h r.mirror l.mirror = (rebalance v h l r).map KeyTree.mirror := by
  have minus := balance_mirror v h l r (c := 2) (by omega)
  have plus := balance_mirror v h l r (c := -2) (by omega)
  have ends : ∀ o : Option AvlTree, (o.map KeyTree.mirror).map setHeight =
      (o.map setHeight).map KeyTree.mirror := by
    rintro (_ | x)
    · rfl
    · exact congrArg some (setHeight_mirror x)
  rw [neg_neg] at plus
  simp only [rebalance]
  by_cases left : balance (.node v h l r) = -2
  · have other : balance (.node v h r.mirror l.mirror) ≠ -2 := by
      rw [plus.mpr left]
      decide
    rw [if_pos left, if_neg other, if_pos (plus.mpr left), turnLeft_mirror, ends]
  · by_cases right : balance (.node v h l r) = 2
    · rw [if_neg left, if_pos right, if_pos (minus.mpr right), turnRight_mirror, ends]
    · rw [if_neg left, if_neg right, if_neg (mt minus.mp right), if_neg (mt plus.mp left),
        ← ends]
      rfl

end Mirror

theorem setHeight_toList (t : AvlTree) : (setHeight t).toList = t.toList := by
  cases t <;> rfl

theorem rotateLeft_toList {t t' : AvlTree} (h : rotateLeft t = some t') :
    t'.toList = t.toList := by
  match t, h with
  | .node x i xl (.node z j zl zr), h =>
    cases h
    simp [setHeight]

theorem rotateRight_toList {t t' : AvlTree} (h : rotateRight t = some t') :
    t'.toList = t.toList := by
  match t, h with
  | .node x i (.node z j zl zr) xr, h =>
    cases h
    simp [setHeight]

theorem turnRight_toList {v : AvlNode} {h : Nat} {l r t : AvlTree}
    (turned : turnRight v h l r = some t) : t.toList = l.toList ++ v :: r.toList := by
  obtain ⟨l', inner, outer⟩ := Option.bind_eq_some_iff.mp turned
  rw [rotateRight_toList outer, KeyTree.toList_node]
  split at inner
  · rw [rotateLeft_toList inner]
  · cases inner
    rfl

theorem turnLeft_toList {v : AvlNode} {h : Nat} {l r t : AvlTree}
    (turned : turnLeft v h l r = some t) : t.toList = l.toList ++ v :: r.toList := by
  obtain ⟨r', inner, outer⟩ := Option.bind_eq_some_iff.mp turned
  rw [rotateLeft_toList outer, KeyTree.toList_node]
  split at inner
  · rw [rotateRight_toList inner]
  · cases inner
    rfl

theorem rebalance_toList {v : AvlNode} {h : Nat} {l r t : AvlTree}
    (done : rebalance v h l r = some t) : t.toList = l.toList ++ v :: r.toList := by
  obtain ⟨t', inner, rfl⟩ := Option.map_eq_some_iff.mp done
  rw [setHeight_toList]
  split at inner
  · exact turnRight_toList inner
  · split at inner
    · exact turnLeft_toList inner
    · cases inner
      rfl

def nodePtrs (t : AvlTree) : List Nat := t.toList.map AvlNode.ptr

/-- What a rotation or the end of an operation makes of the parts `l`, `v` and `r`. -/
structure Joined (v : AvlNode) (l r : AvlTree) (bound : Nat) (t : AvlTree) : Prop where
  list : t.toList = l.toList ++ v :: r.toList
  tall : Tall t
  bounded : top t ≤ bound

theorem joined_plain {v : AvlNode} {h : Nat} {l r : AvlTree} (tl : Tall l) (tr : Tall r)
    (hl : top l ≤ 251) (hr : top r ≤ 251) :
    Joined v l r (max (top l) (top r) + 1) (setHeight (.node v h l r)) := by
  rw [setHeight_node (by omega) (by omega)]
  exact ⟨rfl, ⟨by omega, by omega, tl, tr⟩, Nat.le_refl _⟩

theorem setHeight_idem (t : AvlTree) : setHeight (setHeight t) = setHeight t := by
  cases t <;> rfl

theorem rotateRight_joined {v w : AvlNode} {h i : Nat} {a b r : AvlTree} (ta : Tall a)
    (tb : Tall b) (tr : Tall r) {m : Nat} (hm : m ≤ 253) (ma : top a + 1 ≤ m)
    (mb : top b + 2 ≤ m) (mr : top r + 2 ≤ m) :
    ∃ t, rotateRight (.node v h (.node w i a b) r) = some t ∧ setHeight t = t ∧
      Joined v (.node w i a b) r m t := by
  refine ⟨_, rfl, setHeight_idem _, ?_⟩
  rw [setHeight_node (v := v) (by omega) (by omega)]
  have inner : top (.node v (max (top b) (top r)) b r) = max (top b) (top r) + 1 := rfl
  rw [setHeight_node (by omega) (by rw [inner]; omega), inner]
  refine ⟨by simp, ⟨by omega, by rw [inner]; omega, ta, by omega, by omega, tb, tr⟩, ?_⟩
  show max (top a) (max (top b) (top r) + 1) + 1 ≤ m
  omega

theorem turnRight_joined {v w : AvlNode} {h i : Nat} {a b r : AvlTree}
    (tl : Tall (.node w i a b)) (tr : Tall r) (heavy : i = top r + 1) (hi : i ≤ 250) :
    ∃ t, turnRight v h (.node w i a b) r = some t ∧ setHeight t = t ∧
      Joined v (.node w i a b) r (i + 2) t := by
  obtain ⟨ha, hb, ta, tb⟩ := tl
  unfold turnRight
  by_cases inner : balance (.node w i a b) = 1
  · rw [if_pos inner]
    rw [balance_node (by omega) (by omega) (by omega)] at inner
    cases b with
    | nil => simp only [top_nil] at inner; omega
    | node z j c d =>
      obtain ⟨hc, hd, tc, td⟩ := tb
      simp only [top_node] at inner hb
      have turned : rotateLeft (.node w i a (.node z j c d)) =
          some (.node z (max (max (top a) (top c) + 1) (top d)) (.node w (max (top a) (top c)) a c)
            d) := by
        rw [rotateLeft, setHeight_node (v := w) (by omega) (by omega),
          setHeight_node (by simp only [top_node]; omega) (by omega)]
        rfl
      have tall : Tall (.node w (max (top a) (top c)) a c) := ⟨by omega, by omega, ta, tc⟩
      obtain ⟨t, eq, kept, joined⟩ := rotateRight_joined (v := v) (w := z) (h := h)
        (i := max (max (top a) (top c) + 1) (top d)) tall td tr (show i + 2 ≤ 253 by omega)
        (by simp only [top_node]; omega) (by omega) (by omega)
      refine ⟨t, by rw [turned]; exact eq, kept, ?_⟩
      exact ⟨by rw [joined.list]; simp, joined.tall, joined.bounded⟩
  · rw [if_neg inner]
    exact rotateRight_joined ta tb tr (by omega) (by omega) (by omega) (by omega)

theorem Joined.mirror {v : AvlNode} {l r t : AvlTree} {bound : Nat}
    (joined : Joined v r.mirror l.mirror bound t) : Joined v l r bound t.mirror := by
  refine ⟨?_, tall_mirror.mpr joined.tall, by rw [top_mirror]; exact joined.bounded⟩
  rw [KeyTree.toList_mirror, joined.list]
  simp

theorem rebalance_joined_left {v : AvlNode} {h : Nat} {l r : AvlTree} (tl : Tall l) (tr : Tall r)
    (hl : top l ≤ 251) (hr : top r ≤ 251) (left : balance (.node v h l r) = -2) :
    ∃ t, rebalance v h l r = some t ∧ Joined v l r (max (top l) (top r) + 1) t := by
  have diff := (balance_node hl hr (by omega)).mp left
  cases l with
  | nil => simp only [top_nil] at diff; omega
  | node w i a b =>
    simp only [top_node] at diff hl
    obtain ⟨t, eq, kept, joined⟩ := turnRight_joined (v := v) (h := h) tl tr (by omega) (by omega)
    refine ⟨t, by simp [rebalance, left, eq, kept], joined.list, joined.tall, ?_⟩
    exact joined.bounded.trans (by simp only [top_node]; omega)

theorem rebalance_joined {v : AvlNode} {h : Nat} {l r : AvlTree} (tl : Tall l) (tr : Tall r)
    (hl : top l ≤ 251) (hr : top r ≤ 251) :
    ∃ t, rebalance v h l r = some t ∧ Joined v l r (max (top l) (top r) + 1) t := by
  by_cases left : balance (.node v h l r) = -2
  · exact rebalance_joined_left tl tr hl hr left
  · by_cases right : balance (.node v h l r) = 2
    · obtain ⟨t, eq, joined⟩ := rebalance_joined_left (tall_mirror.mpr tr) (tall_mirror.mpr tl)
        (by rw [top_mirror]; exact hr) (by rw [top_mirror]; exact hl)
        ((balance_mirror v h l r (c := 2) (by omega)).mpr right)
      have turned := rebalance_mirror v h r.mirror l.mirror
      rw [KeyTree.mirror_mirror, KeyTree.mirror_mirror, eq] at turned
      rw [top_mirror, top_mirror, Nat.max_comm] at joined
      exact ⟨t.mirror, turned, joined.mirror⟩
    · exact ⟨_, by simp [rebalance, left, right], joined_plain (h := h) tl tr hl hr⟩

section Edits

variable {σ : Type} {src : NodeSource σ}

theorem insertNode_list {addr pageCount ptr : Nat} {st st' : σ × Phys}
    (made : src.createNode st = some (ptr, st')) {t : AvlTree} {A B : List AvlNode} (tall : Tall t)
    (small : top t ≤ 250) (split : t.toList = A ++ B) (below : ∀ x ∈ A, x.addr < addr)
    (above : ∀ x ∈ B, addr < x.addr) :
    ∃ t', insertNode src addr pageCount t st = some (t', st') ∧
      t'.toList = A ++ ⟨ptr, addr, pageCount, false⟩ :: B ∧ Tall t' ∧ top t' ≤ top t + 1 := by
  induction t generalizing A B with
  | nil =>
    obtain ⟨rfl, rfl⟩ := List.append_eq_nil_iff.mp split.symm
    obtain ⟨t', eq, joined⟩ := rebalance_joined (v := ⟨ptr, addr, pageCount, false⟩) (h := 0)
      (l := .nil) (r := .nil) trivial trivial (by simp [top]) (by simp [top])
    exact ⟨t', by simp [insertNode, made, eq], by simpa using joined.list, joined.tall,
      joined.bounded⟩
  | node v h l r left right =>
    obtain ⟨hl, hr, tl, tr⟩ := tall
    rw [top_node] at small ⊢
    have split' : l.toList ++ v :: r.toList = A ++ [] ++ B := by simpa using split
    by_cases less : addr < v.addr
    · obtain ⟨C, rfl, eq⟩ := place_left split' below (by simp) less
      rw [List.append_nil] at eq
      obtain ⟨l', step, list, tl', bound⟩ := left tl (by omega) eq below
        fun x inside => above x (List.mem_append_left _ inside)
      obtain ⟨t', eq', joined⟩ := rebalance_joined (v := v) (h := h) tl' tr (by omega) (by omega)
      refine ⟨t', by simp [insertNode, less, step, eq'], ?_, joined.tall, ?_⟩
      · rw [joined.list, list]
        simp
      · exact joined.bounded.trans (by omega)
    · by_cases more : v.addr < addr
      · obtain ⟨C, rfl, eq⟩ := place_right split' (by simp) above more
        rw [List.append_nil] at eq
        obtain ⟨r', step, list, tr', bound⟩ := right tr (by omega) eq
          (fun x inside => below x (by simp [inside])) above
        obtain ⟨t', eq', joined⟩ := rebalance_joined (v := v) (h := h) tl tr' (by omega) (by omega)
        refine ⟨t', by simp [insertNode, less, more, step, eq'], ?_, joined.tall, ?_⟩
        · rw [joined.list, list]
          simp
        · exact joined.bounded.trans (by omega)
      · -- the key is in neither part of the list
        have inside : v ∈ A ++ B := by rw [← split]; simp
        rcases List.mem_append.mp inside with inside | inside
        · have := below v inside
          omega
        · have := above v inside
          omega

/-- The node to remove is none with two children of which the right one has no left child. -/
def removable (addr : Nat) : AvlTree → Bool
  | .nil => true
  | .node v _ l r =>
    if addr < v.addr then removable addr l
    else if v.addr < addr then removable addr r
    else match l, r with
      | .node .., .node _ _ .nil _ => false
      | _, _ => true

/-- What the removal of the block at `addr` leaves, each node on the way up rebalanced, if no
rotation follows a NULL. -/
def climb (addr : Nat) : AvlTree → Option AvlTree
  | .nil => some .nil
  | .node v h l r =>
    if addr < v.addr then (climb addr l).bind fun l => rebalance v h l r
    else if v.addr < addr then (climb addr r).bind fun r => rebalance v h l r
    else match l, r with
      | .nil, .nil => some .nil
      | .node .., .nil => rebalanceRoot l
      | .nil, .node .. => rebalanceRoot r
      | .node .., .node .. => r.takeMin.bind fun m => rebalance { m.1 with ptr := v.ptr } h l m.2

theorem takeMin_tall {t rest : AvlTree} {m : AvlNode} (h : t.takeMin = some (m, rest))
    (tall : Tall t) : Tall rest ∧ top rest ≤ top t := by
  induction t generalizing rest with
  | nil => cases h
  | node v i l r left _ =>
    obtain ⟨hl, hr, tl, tr⟩ := tall
    cases l with
    | nil =>
      cases h
      exact ⟨tr, by rw [top_node]; omega⟩
    | node w j a b =>
      rw [KeyTree.takeMin, Option.map_eq_some_iff] at h
      obtain ⟨⟨m', rest'⟩, inner, eq⟩ := h
      cases eq
      have below := left inner tl
      exact ⟨⟨below.2.trans hl, hr, below.1, tr⟩, Nat.le_refl _⟩

/- What a removal leaves of the blocks behind the removed one: either its own node goes, or
the node of its successor, whose block then lives in the removed node. -/
inductive Removed (b : AvlNode) (B : List AvlNode) : Nat → List AvlNode → Prop
  | own : Removed b B b.ptr B
  | successor (s : AvlNode) (C : List AvlNode) (split : B = s :: C) :
      Removed b B s.ptr ({ s with ptr := b.ptr } :: C)

theorem rebalanceRoot_joined {t : AvlTree} (ne : t ≠ .nil) (tall : Tall t) (small : top t ≤ 252) :
    ∃ t', rebalanceRoot t = some t' ∧ t'.toList = t.toList ∧ Tall t' ∧ top t' ≤ top t := by
  cases t with
  | nil => exact absurd rfl ne
  | node v h l r =>
    obtain ⟨hl, hr, tl, tr⟩ := tall
    rw [top_node] at small ⊢
    obtain ⟨t', eq, joined⟩ := rebalance_joined (v := v) (h := h) tl tr (by omega) (by omega)
    exact ⟨t', eq, joined.list, joined.tall, joined.bounded.trans (by omega)⟩

theorem Removed.append {b : AvlNode} {B B' : List AvlNode} {freed : Nat}
    (h : Removed b B freed B') (D : List AvlNode) : Removed b (B ++ D) freed (B' ++ D) := by
  cases h with
  | own => exact .own
  | successor s C split => exact .successor s (C ++ D) (by rw [split, List.cons_append])

theorem removeInner_deep (parentNull : Bool) {v w : AvlNode} {i : Nat} {a b : AvlTree}
    (deep : a ≠ .nil) :
    ∃ m rest, (KeyTree.node w i a b).takeMin = some (m, rest) ∧
      removeInner parentNull v (.node w i a b) = some ({ m with ptr := v.ptr }, m.ptr, rest) := by
  cases a with
  | nil => exact absurd rfl deep
  | node x j c d =>
    obtain ⟨m, rest, least⟩ :=
      takeMin_isSome (t := KeyTree.node w i (.node x j c d) b) (by simp)
    exact ⟨m, rest, least, by simp [removeInner, least]⟩

theorem climb_tall {addr : Nat} {t : AvlTree} (tall : Tall t) (small : top t ≤ 251) :
    ∃ t', climb addr t = some t' ∧ Tall t' ∧ top t' ≤ top t := by
  induction t with
  | nil => exact ⟨.nil, rfl, trivial, Nat.le_refl _⟩
  | node v h l r left right =>
    obtain ⟨hl, hr, tl, tr⟩ := tall
    rw [top_node] at small ⊢
    by_cases less : addr < v.addr
    · obtain ⟨l', eq, tl', bound⟩ := left tl (by omega)
      obtain ⟨t', eq', joined⟩ := rebalance_joined (v := v) (h := h) tl' tr (by omega) (by omega)
      exact ⟨t', by simp [climb, less, eq, eq'], joined.tall, joined.bounded.trans (by omega)⟩
    · by_cases more : v.addr < addr
      · obtain ⟨r', eq, tr', bound⟩ := right tr (by omega)
        obtain ⟨t', eq', joined⟩ := rebalance_joined (v := v) (h := h) tl tr' (by omega) (by omega)
        exact ⟨t', by simp [climb, less, more, eq, eq'], joined.tall,
          joined.bounded.trans (by omega)⟩
      · cases l with
        | nil =>
          cases r with
          | nil => exact ⟨.nil, by simp [climb, less, more], trivial, by rw [top_nil]; omega⟩
          | node w i a b =>
            obtain ⟨t', eq, _, tall', bound⟩ := rebalanceRoot_joined (by simp) tr (by omega)
            exact ⟨t', by simp [climb, less, more, eq], tall', by omega⟩
        | node x j c d =>
          cases r with
          | nil =>
            obtain ⟨t', eq, _, tall', bound⟩ := rebalanceRoot_joined (by simp) tl (by omega)
            exact ⟨t', by simp [climb, less, more, eq], tall', by omega⟩
          | node w i a b =>
            obtain ⟨m, rest, least⟩ := takeMin_isSome (t := KeyTree.node w i a b) (by simp)
            obtain ⟨tall', bound⟩ := takeMin_tall least tr
            obtain ⟨t', eq, joined⟩ := rebalance_joined (v := { m with ptr := v.ptr }) (h := h)
              tl tall' (by omega) (by omega)
            exact ⟨t', by simp [climb, less, more, least, eq], joined.tall,
              joined.bounded.trans (by omega)⟩

theorem deleteNode_climb {parentNull : Bool} {addr : Nat} {t t' : AvlTree} {st st' : σ × Phys}
    (ok : removable addr t = true) (done : deleteNode src parentNull addr t st = some (t', st')) :
    climb addr t = some t' := by
  induction t generalizing t' with
  | nil =>
    cases done
    rfl
  | node v h l r left right =>
    by_cases less : addr < v.addr
    · simp only [deleteNode, removable, less, if_true, Option.bind_eq_bind,
        Option.bind_eq_some_iff, Prod.exists] at done ok
      obtain ⟨l', nodes, phys, step, t'', eq, same⟩ := done
      cases same
      simp [climb, less, left ok step, eq]
    · by_cases more : v.addr < addr
      · simp only [deleteNode, removable, less, more, if_true, if_false, Option.bind_eq_bind,
          Option.bind_eq_some_iff, Prod.exists] at done ok
        obtain ⟨r', nodes, phys, step, t'', eq, same⟩ := done
        cases same
        simp [climb, less, more, right ok step, eq]
      · simp only [deleteNode, less, more, if_false] at done
        cases l with
        | nil =>
          cases r with
          | nil =>
            obtain ⟨_, _, same⟩ := Option.bind_eq_some_iff.mp done
            cases same
            simp [climb, less, more]
          | node w i a b =>
            obtain ⟨_, _, rest⟩ := Option.bind_eq_some_iff.mp done
            obtain ⟨_, eq, same⟩ := Option.bind_eq_some_iff.mp rest
            cases same
            simp [climb, less, more, eq]
        | node x j c d =>
          cases r with
          | nil =>
            obtain ⟨_, _, rest⟩ := Option.bind_eq_some_iff.mp done
            obtain ⟨_, eq, same⟩ := Option.bind_eq_some_iff.mp rest
            cases same
            simp [climb, less, more, eq]
          | node w i a b =>
            have deep : a ≠ .nil := by
              rintro rfl
              simp [removable, less, more] at ok
            obtain ⟨m, rest, least, inner⟩ := removeInner_deep parentNull (v := v) (w := w)
              (i := i) (b := b) deep
            simp only [inner, Option.bind_eq_bind, Option.bind_some] at done
            obtain ⟨_, _, last⟩ := Option.bind_eq_some_iff.mp done
            obtain ⟨_, eq, same⟩ := Option.bind_eq_some_iff.mp last
            cases same
            simp [climb, less, more, least, eq]

variable (src) in
theorem deleteNode_absent (parentNull : Bool) (st : σ × Phys) {addr : Nat} {t t' : AvlTree}
    (way : climb addr t = some t') (absent : ∀ v ∈ t.toList, v.addr ≠ addr) :
    deleteNode src parentNull addr t st = some (t', st) ∧ t'.toList = t.toList := by
  induction t generalizing t' with
  | nil =>
    cases way
    exact ⟨rfl, rfl⟩
  | node v h l r left right =>
    have other := absent v (by simp)
    by_cases less : addr < v.addr
    · simp only [climb, less, if_true] at way
      obtain ⟨l', up, eq⟩ := Option.bind_eq_some_iff.mp way
      obtain ⟨step, list⟩ := left up fun x inside => absent x (by simp [inside])
      refine ⟨by simp [deleteNode, less, step, eq], ?_⟩
      rw [rebalance_toList eq, list, KeyTree.toList_node]
    · have more : v.addr < addr := by omega
      simp only [climb, less, more, if_true, if_false] at way
      obtain ⟨r', up, eq⟩ := Option.bind_eq_some_iff.mp way
      obtain ⟨step, list⟩ := right up fun x inside => absent x (by simp [inside])
      refine ⟨by simp [deleteNode, less, more, step, eq], ?_⟩
      rw [rebalance_toList eq, list, KeyTree.toList_node]

theorem rebalanceRoot_toList {t t' : AvlTree} (done : rebalanceRoot t = some t') :
    t'.toList = t.toList := by
  cases t with
  | nil => cases done
  | node v h l r => exact rebalance_toList done

variable (src) in
theorem deleteNode_list (parentNull : Bool) {t t' : AvlTree} {A B : List AvlNode} {b : AvlNode}
    (way : climb b.addr t = some t') (split : t.toList = A ++ b :: B)
    (below : ∀ x ∈ A, x.addr < b.addr) (above : ∀ x ∈ B, b.addr < x.addr)
    (ok : removable b.addr t = true) :
    ∃ freed B', Removed b B freed B' ∧ t'.toList = A ++ B' ∧
      ∀ st st', src.freeNode freed st = some st' →
        deleteNode src parentNull b.addr t st = some (t', st') := by
  induction t generalizing A B t' with
  | nil => simp at split
  | node v h l r left right =>
    have split' : l.toList ++ v :: r.toList = A ++ [b] ++ B := by simpa using split
    by_cases less : b.addr < v.addr
    · obtain ⟨C, rfl, place⟩ := place_left split' below (by simp) less
      simp only [climb, removable, less, if_true] at way ok
      obtain ⟨l', up, eq⟩ := Option.bind_eq_some_iff.mp way
      obtain ⟨freed, C', removed, list, step⟩ := left up (by simpa using place) below
        (fun x inside => above x (List.mem_append_left _ inside)) ok
      refine ⟨freed, C' ++ v :: r.toList, removed.append _, ?_, ?_⟩
      · rw [rebalance_toList eq, list, List.append_assoc]
      · intro st st' free
        simp [deleteNode, less, step st st' free, eq]
    · by_cases more : v.addr < b.addr
      · obtain ⟨C, rfl, place⟩ := place_right split' (by simp) above more
        simp only [climb, removable, less, more, if_true, if_false] at way ok
        obtain ⟨r', up, eq⟩ := Option.bind_eq_some_iff.mp way
        obtain ⟨freed, B', removed, list, step⟩ := right up (by simpa using place)
          (fun x inside => below x (by simp [inside])) above ok
        refine ⟨freed, B', removed, ?_, ?_⟩
        · rw [rebalance_toList eq, list]
          simp
        · intro st st' free
          simp [deleteNode, less, more, step st st' free, eq]
      · obtain ⟨rfl, rfl, rfl⟩ := place_here split below above (by omega)
        simp only [climb, less, if_false] at way
        cases l with
        | nil =>
          cases r with
          | nil =>
            cases way
            refine ⟨v.ptr, [], .own, rfl, ?_⟩
            intro st st' free
            simp [deleteNode, free]
          | node w i a c =>
            refine ⟨v.ptr, _, .own, rebalanceRoot_toList way, ?_⟩
            intro st st' free
            simp [deleteNode, free, way]
        | node x j c d =>
          cases r with
          | nil =>
            refine ⟨v.ptr, [], .own, by rw [rebalanceRoot_toList way]; simp, ?_⟩
            intro st st' free
            simp [deleteNode, free, way]
          | node w i a e =>
            have deep : a ≠ .nil := by
              rintro rfl
              simp [removable] at ok
            obtain ⟨m, rest, least, inner⟩ := removeInner_deep parentNull (v := v) (w := w)
              (i := i) (b := e) deep
            simp only [least, Option.bind_some] at way
            refine ⟨m.ptr, _, .successor m rest.toList (takeMin_toList least),
              rebalance_toList way, ?_⟩
            intro st st' free
            simp [deleteNode, inner, free, way]

end Edits

end Gapxos
