import Gapxos.Vmm.Pointers
import Gapxos.Vmm.Joins
import Gapxos.Vmm.Balanced
import Gapxos.Lib.Runs

/-! The functions on linked nodes do what those on trees do: on nodes that have a tree in
memory they fail together, and leave the same tree and everything else in memory. -/
namespace Gapxos
open SearchTree TreeCells Runs

def AvlNode.block (v : AvlNode) : Block := ⟨v.addr, v.pageCount, v.allocated⟩

abbrev HeldTree (m : NodeMem) (t : AvlTree) : Prop := Held AvlNode.ptr AvlNode.block m t

abbrev ShowsTree (P : Nat → Prop) (m : NodeMem) (t : AvlTree) (q : Nat × NodeMem) : Prop :=
  Shows AvlNode.ptr AvlNode.block P m t q

abbrev rootPtr (t : AvlTree) : Nat := root AvlNode.ptr t

variable {m : NodeMem} {t l r : AvlTree} {v : AvlNode} {h : Nat}

theorem ptrs_eq (t : AvlTree) : ptrs AvlNode.ptr t = nodePtrs t := rfl

theorem nodePtrs_nil : nodePtrs .nil = [] := rfl

theorem nodePtrs_node : nodePtrs (.node v h l r) = nodePtrs l ++ v.ptr :: nodePtrs r :=
  ptrs_node

section Rotations

theorem topAt_eq (held : HeldTree m t) : topAt m (rootPtr t) = top t := by
  cases t with
  | nil => rfl
  | node v h l r =>
    obtain ⟨real, cell, -⟩ := held_node.mp held
    simp [topAt, top, real, cell]

theorem heightAt_eq (held : HeldTree m t) : heightAt m (rootPtr t) = height t := by
  cases t with
  | nil => rfl
  | node v h l r =>
    obtain ⟨real, cell, left, right, -⟩ := held_node.mp held
    simp only [heightAt, root_node, real, if_false, cell, topAt_eq left, topAt_eq right, height]
    split <;> omega

theorem balanceAt_eq (held : HeldTree m t) : balanceAt m (rootPtr t) = balance t := by
  cases t with
  | nil => rfl
  | node v h l r =>
    obtain ⟨real, cell, left, right, -⟩ := held_node.mp held
    simp [balanceAt, real, cell, topAt_eq left, topAt_eq right, balance]

theorem fixHeight_held (held : HeldTree m t) :
    HeldTree (fixHeight m (rootPtr t)) (setHeight t) := by
  cases t with
  | nil => exact held_nil
  | node v h l r =>
    rw [fixHeight, heightAt_eq held]
    exact held_putHeight held _

theorem fixHeight_left {x : AvlNode} {i : Nat} {a b : AvlTree}
    (held : HeldTree m (.node v h (.node x i a b) r)) :
    HeldTree (fixHeight m x.ptr) (.node v h (setHeight (.node x i a b)) r) := by
  have lower : heightAt m x.ptr = height (.node x i a b) :=
    heightAt_eq (held_node.mp held).2.2.1
  rw [fixHeight, lower]
  exact held_putHeight_left held _

theorem fixHeight_right {x : AvlNode} {i : Nat} {a b : AvlTree}
    (held : HeldTree m (.node v h l (.node x i a b))) :
    HeldTree (fixHeight m x.ptr) (.node v h l (setHeight (.node x i a b))) := by
  have lower : heightAt m x.ptr = height (.node x i a b) :=
    heightAt_eq (held_node.mp held).2.2.2.1
  rw [fixHeight, lower]
  exact held_putHeight_right held _

theorem root_setHeight (t : AvlTree) : rootPtr (setHeight t) = rootPtr t := by
  cases t <;> rfl

theorem ptrs_setHeight (t : AvlTree) : nodePtrs (setHeight t) = nodePtrs t := by
  rw [nodePtrs, setHeight_toList, nodePtrs]

theorem fixHeight_shows {P : Nat → Prop} {q : Nat × NodeMem} (shows : ShowsTree P m t q)
    (ne : t ≠ .nil) : ShowsTree P m (setHeight t) (q.1, fixHeight q.2 q.1) := by
  have real : rootPtr t ≠ 0 := fun zero => ne (shows.held.root_eq_zero.mp zero)
  refine ⟨shows.top.trans (root_setHeight t).symm, ?_, ?_, ?_⟩
  · rw [shows.top]
    exact fixHeight_held shows.held
  · refine shows.within.trans (within_update ?_)
    rw [shows.top]
    exact shows.inside _ (root_mem real)
  · rw [ptrs_eq, ptrs_setHeight]
    exact shows.inside

theorem rotateLeftAt_shows (held : HeldTree m t) :
    Option.Rel (ShowsTree (· ∈ nodePtrs t) m) (rotateLeft t) (rotateLeftAt m (rootPtr t)) := by
  cases t with
  | nil => exact .none
  | node x h xl xr =>
    obtain ⟨xsome, xcell, left, right, xapart⟩ := held_node.mp held
    cases xr with
    | nil =>
      have out : rotateLeftAt m x.ptr = none := by simp [rotateLeftAt, xcell]
      exact out ▸ .none
    | node z i zl zr =>
      obtain ⟨zsome, zcell, -⟩ := held_node.mp right
      have done : rotateLeftAt m x.ptr = some (z.ptr, fixHeight (fixHeight (setLeft
          (setRight m x.ptr (rootPtr zl)) z.ptr x.ptr) x.ptr) z.ptr) := by
        simp [rotateLeftAt, xsome, xcell, zsome, zcell]
      have half : ShowsTree (· ∈ nodePtrs (.node x h xl (.node z i zl zr))) m
          (.node z i (setHeight (.node x h xl zl)) zr) (z.ptr, fixHeight (setLeft
            (setRight m x.ptr (rootPtr zl)) z.ptr x.ptr) x.ptr) := by
        refine ⟨rfl, fixHeight_left (held_rotateLeft held), ?_, by simp [nodePtrs, setHeight, ptrs]⟩
        exact ((within_update (by simp [nodePtrs])).trans
          (within_update (by simp [nodePtrs]))).trans (within_update (by simp [nodePtrs]))
      exact done ▸ .some (fixHeight_shows half (by simp))

theorem rotateRightAt_shows (held : HeldTree m t) :
    Option.Rel (ShowsTree (· ∈ nodePtrs t) m) (rotateRight t) (rotateRightAt m (rootPtr t)) := by
  cases t with
  | nil => exact .none
  | node x h xl xr =>
    obtain ⟨xsome, xcell, left, right, xapart⟩ := held_node.mp held
    cases xl with
    | nil =>
      have out : rotateRightAt m x.ptr = none := by simp [rotateRightAt, xcell]
      exact out ▸ .none
    | node z i zl zr =>
      obtain ⟨zsome, zcell, -⟩ := held_node.mp left
      have done : rotateRightAt m x.ptr = some (z.ptr, fixHeight (fixHeight (setRight
          (setLeft m x.ptr (rootPtr zr)) z.ptr x.ptr) x.ptr) z.ptr) := by
        simp [rotateRightAt, xsome, xcell, zsome, zcell]
      have half : ShowsTree (· ∈ nodePtrs (.node x h (.node z i zl zr) xr)) m
          (.node z i zl (setHeight (.node x h zr xr))) (z.ptr, fixHeight (setRight
            (setLeft m x.ptr (rootPtr zr)) z.ptr x.ptr) x.ptr) := by
        refine ⟨rfl, fixHeight_right (held_rotateRight held), ?_,
          by simp [nodePtrs, setHeight, ptrs]⟩
        exact ((within_update (by simp [nodePtrs])).trans
          (within_update (by simp [nodePtrs]))).trans (within_update (by simp [nodePtrs]))
      exact done ▸ .some (fixHeight_shows half (by simp))

theorem ShowsTree.mono {P Q : Nat → Prop} {q : Nat × NodeMem} (shows : ShowsTree P m t q)
    (sub : ∀ p, P p → Q p) : ShowsTree Q m t q :=
  ⟨shows.top, shows.held, shows.within.mono sub, fun p inside => sub p (shows.inside p inside)⟩

theorem shows_self (held : HeldTree m t) : ShowsTree (· ∈ nodePtrs t) m t (rootPtr t, m) :=
  ⟨rfl, held, .refl _ _, fun _ inside => inside⟩

theorem setLeft_shows {P : Nat → Prop} {q : Nat × NodeMem} (held : HeldTree m (.node v h l r))
    (shows : ShowsTree P m t q) (here : ¬ P v.ptr) (there : ∀ p ∈ nodePtrs r, ¬ P p) :
    ShowsTree (fun p => P p ∨ p ∈ nodePtrs (.node v h l r)) m (.node v h t r)
      (v.ptr, setLeft q.2 v.ptr q.1) := by
  refine ⟨rfl, held_setLeft held shows here there, ?_, ?_⟩
  · exact (shows.within.mono fun p => .inl).trans (within_update (by simp [nodePtrs_node]))
  · intro p inside
    rcases List.mem_append.mp (ptrs_node ▸ inside) with inside | inside
    · exact .inl (shows.inside p inside)
    · exact .inr (by simp [nodePtrs_node] at inside ⊢; tauto)

theorem setRight_shows {P : Nat → Prop} {q : Nat × NodeMem} (held : HeldTree m (.node v h l r))
    (shows : ShowsTree P m t q) (here : ¬ P v.ptr) (there : ∀ p ∈ nodePtrs l, ¬ P p) :
    ShowsTree (fun p => P p ∨ p ∈ nodePtrs (.node v h l r)) m (.node v h l t)
      (v.ptr, setRight q.2 v.ptr q.1) := by
  refine ⟨rfl, held_setRight held shows here there, ?_, ?_⟩
  · exact (shows.within.mono fun p => .inl).trans (within_update (by simp [nodePtrs_node]))
  · intro p inside
    rcases List.mem_append.mp (ptrs_node ▸ inside) with inside | inside
    · exact .inr (by simp [← ptrs_eq, inside])
    · rcases List.mem_cons.mp inside with rfl | inside
      · exact .inr (by simp [nodePtrs_node])
      · exact .inl (shows.inside p inside)

/- A subtree after a call that has left its root where it was. -/
theorem keepLeft_shows {m' : NodeMem} (held : HeldTree m (.node v h l r))
    (shows : ShowsTree (· ∈ nodePtrs l) m t (rootPtr l, m')) :
    ShowsTree (· ∈ nodePtrs (.node v h l r)) m (.node v h t r) (v.ptr, m') := by
  obtain ⟨-, -, -, -, apart⟩ := held_node.mp held
  have there : ∀ p ∈ nodePtrs r, p ∉ nodePtrs l := fun p inside other =>
    apart.between p other inside
  refine ⟨rfl, held_keepLeft held shows apart.left there, ?_, fun p inside => ?_⟩
  · exact shows.within.mono fun p inside => by simp [nodePtrs_node, inside]
  · rw [nodePtrs_node]
    rcases List.mem_append.mp (ptrs_node ▸ inside) with inside | inside
    · exact List.mem_append_left _ (shows.inside p inside)
    · exact List.mem_append_right _ inside

theorem keepRight_shows {m' : NodeMem} (held : HeldTree m (.node v h l r))
    (shows : ShowsTree (· ∈ nodePtrs r) m t (rootPtr r, m')) :
    ShowsTree (· ∈ nodePtrs (.node v h l r)) m (.node v h l t) (v.ptr, m') := by
  obtain ⟨-, -, -, -, apart⟩ := held_node.mp held
  refine ⟨rfl, held_keepRight held shows apart.right apart.between, ?_, fun p inside => ?_⟩
  · exact shows.within.mono fun p inside => by simp [nodePtrs_node, inside]
  · rw [nodePtrs_node]
    rcases List.mem_append.mp (ptrs_node ▸ inside) with inside | inside
    · exact List.mem_append_left _ inside
    · rcases List.mem_cons.mp inside with rfl | inside
      · simp
      · exact List.mem_append_right _ (List.mem_cons_of_mem _ (shows.inside p inside))

/- A second call on what a first one has left. -/
theorem ShowsTree.trans {P : Nat → Prop} {q q' : Nat × NodeMem} {t' : AvlTree}
    (shows : ShowsTree P m t q) (after : ShowsTree (· ∈ nodePtrs t) q.2 t' q') :
    ShowsTree P m t' q' := by
  have sub : ∀ p, p ∈ nodePtrs t → P p := shows.inside
  exact ⟨after.top, after.held, shows.within.trans (after.within.mono sub),
    fun p inside => sub p (after.inside p inside)⟩

theorem ShowsTree.next {P : Nat → Prop} {q : Nat × NodeMem} {x : Option AvlTree}
    {y : Option (Nat × NodeMem)} (shows : ShowsTree P m t q)
    (call : Option.Rel (ShowsTree (· ∈ nodePtrs t) q.2) x y) :
    Option.Rel (ShowsTree P m) x y :=
  rel_mono call fun _ _ after => ShowsTree.trans shows after

theorem turnRightAt_shows (held : HeldTree m (.node v h l r)) :
    Option.Rel (ShowsTree (· ∈ nodePtrs (.node v h l r)) m) (turnRight v h l r)
      (turnRightAt m v.ptr) := by
  obtain ⟨real, cell, left, right, apart⟩ := held_node.mp held
  have heavy : balanceAt m (rootPtr l) = balance l := balanceAt_eq left
  by_cases inner : balance l = 1
  · have twice : turnRightAt m v.ptr = (rotateLeftAt m (rootPtr l)).bind fun q =>
        rotateRightAt (setLeft q.2 v.ptr q.1) v.ptr := by
      simp [turnRightAt, cell, heavy, inner, Option.bind_map]
    rw [twice, turnRight, if_pos inner]
    refine rel_bind (rotateLeftAt_shows left) fun l' q _ shows => ?_
    have half := setLeft_shows held shows apart.left fun p inside other =>
      apart.between p other inside
    exact (half.mono (by simp [nodePtrs_node])).next (rotateRightAt_shows half.held)
  · have once : turnRightAt m v.ptr = rotateRightAt m v.ptr := by
      simp [turnRightAt, cell, heavy, inner]
    rw [once, turnRight, if_neg inner]
    exact rotateRightAt_shows held

theorem turnLeftAt_shows (held : HeldTree m (.node v h l r)) :
    Option.Rel (ShowsTree (· ∈ nodePtrs (.node v h l r)) m) (turnLeft v h l r)
      (turnLeftAt m v.ptr) := by
  obtain ⟨real, cell, left, right, apart⟩ := held_node.mp held
  have heavy : balanceAt m (rootPtr r) = balance r := balanceAt_eq right
  by_cases inner : balance r = -1
  · have twice : turnLeftAt m v.ptr = (rotateRightAt m (rootPtr r)).bind fun q =>
        rotateLeftAt (setRight q.2 v.ptr q.1) v.ptr := by
      simp [turnLeftAt, cell, heavy, inner, Option.bind_map]
    rw [twice, turnLeft, if_pos inner]
    refine rel_bind (rotateRightAt_shows right) fun r' q _ shows => ?_
    have half := setRight_shows held shows apart.right fun p inside other =>
      apart.between p inside other
    exact (half.mono (by simp [nodePtrs_node]; tauto)).next (rotateLeftAt_shows half.held)
  · have once : turnLeftAt m v.ptr = rotateLeftAt m v.ptr := by
      simp [turnLeftAt, cell, heavy, inner]
    rw [once, turnLeft, if_neg inner]
    exact rotateLeftAt_shows held

theorem rebalanceAt_shows (held : HeldTree m (.node v h l r)) :
    Option.Rel (ShowsTree (· ∈ nodePtrs (.node v h l r)) m) (rebalance v h l r)
      (rebalanceAt m v.ptr) := by
  have turned : Option.Rel (ShowsTree (· ∈ nodePtrs (.node v h l r)) m)
      (if balance (.node v h l r) = -2 then turnRight v h l r
        else if balance (.node v h l r) = 2 then turnLeft v h l r else some (.node v h l r))
      (if balanceAt m v.ptr = -2 then turnRightAt m v.ptr
        else if balanceAt m v.ptr = 2 then turnLeftAt m v.ptr else some (v.ptr, m)) := by
    rw [show balanceAt m v.ptr = _ from balanceAt_eq held]
    split
    · exact turnRightAt_shows held
    · split
      · exact turnLeftAt_shows held
      · exact .some (shows_self held)
  rw [rebalance, rebalanceAt]
  refine rel_map turned fun a q done shows => fixHeight_shows shows ?_
  rintro rfl
  have list := rebalance_toList (v := v) (h := h) (l := l) (r := r) (t := .nil)
  simp [rebalance, done, setHeight] at list

end Rotations

section Operations

variable {σ : Type} {src : NodeSource σ}

def Made (src : NodeSource σ) (st : σ × Phys) (p : Nat) : Prop :=
  ∃ st', src.createNode st = some (p, st')

/-- A call on a tree and the call on its nodes: the same state and the same tree. -/
def Alike (P : Nat → Prop) (m : NodeMem) (a : AvlTree × σ × Phys)
    (b : Nat × NodeMem × σ × Phys) : Prop :=
  ShowsTree P m a.1 (b.1, b.2.1) ∧ b.2.2 = a.2

theorem rebalance_alike {P : Nat → Prop} {m' : NodeMem} {st : σ × Phys}
    (shows : ShowsTree P m (.node v h l r) (v.ptr, m')) :
    Option.Rel (Alike P m) ((rebalance v h l r).bind fun t => some (t, st))
      ((rebalanceAt m' v.ptr).bind fun q => some (q.1, q.2, st)) :=
  rel_bind (shows.next (rebalanceAt_shows shows.held)) fun _ _ _ shows => .some ⟨shows, rfl⟩

theorem alike_mono {P Q : Nat → Prop} {x : Option (AvlTree × σ × Phys)}
    {y : Option (Nat × NodeMem × σ × Phys)} (rel : Option.Rel (Alike P m) x y)
    (sub : ∀ p, P p → Q p) : Option.Rel (Alike Q m) x y :=
  rel_mono rel fun _ _ alike => ⟨alike.1.mono sub, alike.2⟩

/- A call on a subtree, whose result is put back and the node above it balanced. -/
section Recursion

variable {P : Nat → Prop} {x : Option (AvlTree × σ × Phys)}
  {y : Option (Nat × NodeMem × σ × Phys)}

theorem left_alike (held : HeldTree m (.node v h l r)) (call : Option.Rel (Alike P m) x y)
    (here : ¬ P v.ptr) (there : ∀ p ∈ nodePtrs r, ¬ P p) :
    Option.Rel (Alike (fun p => P p ∨ p ∈ nodePtrs (.node v h l r)) m)
      (x.bind fun a => (rebalance v h a.1 r).bind fun t => some (t, a.2))
      (y.bind fun b => (rebalanceAt (setLeft b.2.1 v.ptr b.1) v.ptr).bind fun q =>
        some (q.1, q.2, b.2.2)) := by
  refine rel_bind call fun a b _ alike => ?_
  rw [alike.2]
  exact rebalance_alike (setLeft_shows held alike.1 here there)

theorem right_alike (held : HeldTree m (.node v h l r)) (call : Option.Rel (Alike P m) x y)
    (here : ¬ P v.ptr) (there : ∀ p ∈ nodePtrs l, ¬ P p) :
    Option.Rel (Alike (fun p => P p ∨ p ∈ nodePtrs (.node v h l r)) m)
      (x.bind fun a => (rebalance v h l a.1).bind fun t => some (t, a.2))
      (y.bind fun b => (rebalanceAt (setRight b.2.1 v.ptr b.1) v.ptr).bind fun q =>
        some (q.1, q.2, b.2.2)) := by
  refine rel_bind call fun a b _ alike => ?_
  rw [alike.2]
  exact rebalance_alike (setRight_shows held alike.1 here there)

end Recursion

theorem rebalance_leaf (v : AvlNode) (h : Nat) :
    rebalance v h .nil .nil = rebalance v 0 .nil .nil := rfl

theorem insertAt_left {addr pageCount deep : Nat} {st : σ × Phys}
    (held : HeldTree m (.node v h l r)) (less : addr < v.addr) :
    insertAt src addr pageCount (deep + 1) m (rootPtr (.node v h l r)) st =
      (insertAt src addr pageCount deep m (rootPtr l) st).bind fun b =>
        (rebalanceAt (setLeft b.2.1 v.ptr b.1) v.ptr).bind fun q => some (q.1, q.2, b.2.2) := by
  obtain ⟨real, cell, -⟩ := held_node.mp held
  simp [insertAt, real, cell, AvlNode.block, less]

theorem insertAt_right {addr pageCount deep : Nat} {st : σ × Phys}
    (held : HeldTree m (.node v h l r)) (more : v.addr < addr) :
    insertAt src addr pageCount (deep + 1) m (rootPtr (.node v h l r)) st =
      (insertAt src addr pageCount deep m (rootPtr r) st).bind fun b =>
        (rebalanceAt (setRight b.2.1 v.ptr b.1) v.ptr).bind fun q => some (q.1, q.2, b.2.2) := by
  obtain ⟨real, cell, -⟩ := held_node.mp held
  simp [insertAt, real, cell, AvlNode.block, more, more.not_gt]

theorem insertAt_alike {addr pageCount deep : Nat} {st : σ × Phys} (held : HeldTree m t)
    (enough : depth t < deep)
    (fresh : ∀ p, Made src st p → p ≠ 0 ∧ p ∉ nodePtrs t) :
    Option.Rel (Alike (fun p => Made src st p ∨ p ∈ nodePtrs t) m)
      (insertNode src addr pageCount t st) (insertAt src addr pageCount deep m (rootPtr t) st) := by
  induction t generalizing m deep with
  | nil =>
    obtain ⟨deep, rfl⟩ : ∃ d, deep = d + 1 := ⟨deep - 1, by omega⟩
    cases made : src.createNode st with
    | none => simp [insertNode, insertAt, made]
    | some answer =>
      obtain ⟨p, st'⟩ := answer
      obtain ⟨real, -⟩ := fresh p ⟨st', made⟩
      let new : NodeMem := Function.update m p ⟨⟨addr, pageCount, false⟩, 0, 0, (m p).height⟩
      have leaf : ShowsTree (fun p => Made src st p ∨ p ∈ nodePtrs .nil) m
          (.node ⟨p, addr, pageCount, false⟩ (m p).height .nil .nil) (p, new) := by
        refine ⟨rfl, held_node.mpr ⟨real, ?_, held_nil, held_nil, ?_⟩, ?_, ?_⟩
        · simp [new, AvlNode.block]
        · exact ⟨by simp, by simp, by simp⟩
        · exact within_update (.inl ⟨st', made⟩)
        · simpa [nodePtrs_node, nodePtrs_nil] using ⟨st', made⟩
      have whole : insertAt src addr pageCount (deep + 1) m (rootPtr .nil) st =
          (rebalanceAt new p).bind fun q => some (q.1, q.2, st') := by
        simp [insertAt, made, setVal, setLeft, setRight, new]
      have plain : insertNode src addr pageCount .nil st =
          (rebalance ⟨p, addr, pageCount, false⟩ 0 .nil .nil).bind fun t => some (t, st') := by
        simp [insertNode, made]
      rw [whole, plain, ← rebalance_leaf _ (m p).height]
      exact rebalance_alike leaf
  | node v h l r left right =>
    obtain ⟨deep, rfl⟩ : ∃ d, deep = d + 1 := ⟨deep - 1, by omega⟩
    obtain ⟨real, cell, heldLeft, heldRight, apart⟩ := held_node.mp held
    rw [depth] at enough
    have outside : ∀ p, Made src st p → p ∉ nodePtrs l ∧ p ≠ v.ptr ∧ p ∉ nodePtrs r := by
      intro p made
      simpa [nodePtrs_node] using (fresh p made).2
    rcases Nat.lt_trichotomy addr v.addr with less | rfl | more
    · have call := left heldLeft (show depth l < deep by omega) fun p made =>
        ⟨(fresh p made).1, (outside p made).1⟩
      rw [insertAt_left held less, insertNode, if_pos less]
      refine alike_mono (left_alike held call ?_ ?_) (by simp [nodePtrs_node]; tauto)
      · rintro (made | inside)
        · exact (outside _ made).2.1 rfl
        · exact apart.left inside
      · rintro p inside (made | other)
        · exact (outside _ made).2.2 inside
        · exact apart.between p other inside
    · have same : insertAt src v.addr pageCount (deep + 1) m (rootPtr (.node v h l r)) st =
          some (v.ptr, setVal m v.ptr ⟨v.addr, pageCount, false⟩, st) := by
        simp [insertAt, real, cell, AvlNode.block]
      rw [same, insertNode, if_neg (by omega), if_neg (by omega)]
      refine .some ⟨⟨rfl, ?_, within_update (by simp [nodePtrs_node]), fun p inside => ?_⟩, rfl⟩
      · exact held_setVal (w := { v with pageCount, allocated := false }) held rfl
      · exact .inr (by simpa [← ptrs_eq] using inside)
    · have call := right heldRight (show depth r < deep by omega) fun p made =>
        ⟨(fresh p made).1, (outside p made).2.2⟩
      rw [insertAt_right held more, insertNode, if_neg (by omega), if_pos more]
      refine alike_mono (right_alike held call ?_ ?_) (by simp [nodePtrs_node]; tauto)
      · rintro (made | inside)
        · exact (outside _ made).2.1 rfl
        · exact apart.right inside
      · rintro p inside (made | other)
        · exact (outside _ made).1 inside
        · exact apart.between p inside other

theorem deleteAt_left {parentNull : Bool} {addr deep : Nat} {st : σ × Phys}
    (held : HeldTree m (.node v h l r)) (less : addr < v.addr) :
    deleteAt src parentNull addr (deep + 1) m (rootPtr (.node v h l r)) st =
      (deleteAt src parentNull addr deep m (rootPtr l) st).bind fun b =>
        (rebalanceAt (setLeft b.2.1 v.ptr b.1) v.ptr).bind fun q => some (q.1, q.2, b.2.2) := by
  obtain ⟨real, cell, -⟩ := held_node.mp held
  simp [deleteAt, real, cell, AvlNode.block, less]

theorem deleteAt_right {parentNull : Bool} {addr deep : Nat} {st : σ × Phys}
    (held : HeldTree m (.node v h l r)) (more : v.addr < addr) :
    deleteAt src parentNull addr (deep + 1) m (rootPtr (.node v h l r)) st =
      (deleteAt src parentNull addr deep m (rootPtr r) st).bind fun b =>
        (rebalanceAt (setRight b.2.1 v.ptr b.1) v.ptr).bind fun q => some (q.1, q.2, b.2.2) := by
  obtain ⟨real, cell, -⟩ := held_node.mp held
  simp [deleteAt, real, cell, AvlNode.block, more, more.not_gt]

theorem successorAt_shows {w : AvlNode} {i deep : Nat} {a b : AvlTree} (ne : a ≠ .nil)
    (held : HeldTree m (.node w i a b)) (enough : depth a < deep)
    (parent : Option Nat) :
    ∃ s rest q, (KeyTree.node w i a b).takeMin = some (s, rest) ∧
      successorAt m deep w.ptr parent = some (s.ptr, some q) ∧ (m s.ptr).val = s.block ∧
      ∀ m', HeldTree m' (.node w i a b) →
        ShowsTree (· ∈ nodePtrs (.node w i a b)) m' rest
          (w.ptr, setLeft m' q (m' s.ptr).right) := by
  induction a generalizing w i b deep parent with
  | nil => exact absurd rfl ne
  | node x j c d ih =>
    obtain ⟨deep, rfl⟩ : ∃ k, deep = k + 1 := ⟨deep - 1, by omega⟩
    obtain ⟨-, cell, left, -, apart⟩ := held_node.mp held
    obtain ⟨real, inner, first, -, -⟩ := held_node.mp left
    have step : successorAt m (deep + 1) w.ptr parent = successorAt m deep x.ptr (some w.ptr) := by
      simp [successorAt, cell, real]
    cases c with
    | nil =>
      obtain ⟨deep, rfl⟩ : ∃ k, deep = k + 1 := by
        rw [depth] at enough
        exact ⟨deep - 1, by omega⟩
      refine ⟨x, .node w i d b, w.ptr, rfl, ?_, by rw [inner], fun m' held' => ?_⟩
      · rw [step]
        simp [successorAt, inner]
      · obtain ⟨-, -, left', -, apart'⟩ := held_node.mp held'
        obtain ⟨-, inner', -, last, -⟩ := held_node.mp left'
        rw [inner']
        refine ShowsTree.mono (setLeft_shows held' (shows_self last) ?_ ?_)
          (by simp [nodePtrs_node]; tauto)
        · exact fun inside => apart'.left (by simp [← ptrs_eq] at inside; simp [inside])
        · exact fun p inside other =>
            apart'.between p (by simp [← ptrs_eq] at other; simp [other]) inside
    | node y k e f =>
      have fewer : depth (.node y k e f : AvlTree) < deep := by
        rw [depth] at enough
        omega
      obtain ⟨s, rest, q, taken, walk, val, cut⟩ := ih (by simp) left fewer (some w.ptr)
      refine ⟨s, .node w i rest b, q, by rw [KeyTree.takeMin, taken]; rfl, step.trans walk, val,
        fun m' held' => ?_⟩
      exact keepLeft_shows held' (cut m' (held_node.mp held').2.2.1)

theorem setVal_shows (held : HeldTree m (.node v h l r)) (w : AvlNode) :
    ShowsTree (· ∈ nodePtrs (.node v h l r)) m (.node { w with ptr := v.ptr } h l r)
      (v.ptr, setVal m v.ptr w.block) := by
  refine ⟨rfl, held_setVal (w := { w with ptr := v.ptr }) held rfl,
    within_update (by simp [nodePtrs_node]), ?_⟩
  simp [← ptrs_eq]

theorem removeInner_alike {parentNull : Bool} {deep : Nat} (held : HeldTree m (.node v h l r))
    (ne : r ≠ .nil) (enough : depth r ≤ deep) :
    Option.Rel (fun a b => b.1 = a.2.1 ∧
        ShowsTree (· ∈ nodePtrs (.node v h l r)) m (.node a.1 h l a.2.2) (v.ptr, b.2))
      (removeInner parentNull v r)
      ((successorAt m deep (rootPtr r) none).bind fun s =>
        (unlinkAt parentNull (setVal m v.ptr (m s.1).val) v.ptr s.1 s.2).map fun m' =>
          (s.1, m')) := by
  obtain ⟨real, cell, left, right, apart⟩ := held_node.mp held
  cases r with
  | nil => exact absurd rfl ne
  | node w i a b =>
    obtain ⟨below, inner, first, second, inside⟩ := held_node.mp right
    cases a with
    | nil =>
      obtain ⟨deep, rfl⟩ : ∃ k, deep = k + 1 := by
        rw [depth] at enough
        exact ⟨deep - 1, by omega⟩
      have ne : w.ptr ≠ v.ptr := fun equal => apart.right (by simp [← equal])
      have walk : successorAt m (deep + 1) w.ptr none = some (w.ptr, none) := by
        simp [successorAt, inner]
      have moved := setVal_shows held w
      have link : (setVal m v.ptr w.block w.ptr).right = rootPtr b := by simp [setVal, ne, inner]
      simp only [root_node, walk, Option.bind_some, inner, unlinkAt, link, removeInner]
      cases parentNull with
      | false => exact .none
      | true =>
        by_cases leaf : b = .nil
        · subst leaf
          exact .some ⟨rfl, moved⟩
        · have real : rootPtr b ≠ 0 := fun zero => leaf (second.root_eq_zero.mp zero)
          obtain ⟨-, -, -, right', apart'⟩ := held_node.mp moved.held
          have last := (held_node.mp right').2.2.2.1
          rw [if_pos rfl, if_pos rfl, if_neg leaf, if_pos real]
          refine .some ⟨rfl, ShowsTree.trans moved (ShowsTree.mono
            (setRight_shows moved.held (shows_self last) ?_ ?_) (by simp [nodePtrs_node]; tauto))⟩
          · exact fun inside => apart'.right (by simp [ptrs_eq, inside])
          · exact fun p inside other => apart'.between p inside (by simp [ptrs_eq, other])
    | node x j c d =>
      obtain ⟨s, rest, q, taken, walk, val, cut⟩ := successorAt_shows (by simp) right
        (show _ < deep by rw [depth] at enough; omega) none
      have moved := setVal_shows held s
      have shows := cut _ (held_node.mp moved.held).2.2.2.1
      have unlinked : unlinkAt parentNull (setVal m v.ptr s.block) v.ptr s.ptr (some q) =
          some (setLeft (setVal m v.ptr s.block) q (setVal m v.ptr s.block s.ptr).right) := by
        simp only [unlinkAt]
        split <;> simp_all
      simp only [root_node, walk, Option.bind_some, val, unlinked, removeInner, taken,
        Option.map_some]
      exact .some ⟨rfl, ShowsTree.trans moved (keepRight_shows moved.held shows)⟩

theorem rebalanceRoot_alike {P : Nat → Prop} {m' : NodeMem} {st : σ × Phys} (ne : t ≠ .nil)
    (shows : ShowsTree P m t (rootPtr t, m')) :
    Option.Rel (Alike P m) ((rebalanceRoot t).bind fun t => some (t, st))
      ((rebalanceAt m' (rootPtr t)).bind fun q => some (q.1, q.2, st)) := by
  cases t with
  | nil => exact absurd rfl ne
  | node v h l r => exact rebalance_alike shows

/- The node that is deleted, by which children it has. -/
section Here

variable {parentNull : Bool} {deep : Nat} {st : σ × Phys}

theorem deleteAt_leaf (held : HeldTree m (.node v h .nil .nil)) :
    deleteAt src parentNull v.addr (deep + 1) m (rootPtr (.node v h .nil .nil)) st =
      (src.freeNode v.ptr st).bind fun st => some (0, m, st) := by
  obtain ⟨real, cell, -⟩ := held_node.mp held
  simp [deleteAt, real, cell, AvlNode.block]

theorem deleteAt_only_left (held : HeldTree m (.node v h l .nil)) (ne : l ≠ .nil) :
    deleteAt src parentNull v.addr (deep + 1) m (rootPtr (.node v h l .nil)) st =
      (src.freeNode v.ptr st).bind fun st =>
        (rebalanceAt m (rootPtr l)).bind fun q => some (q.1, q.2, st) := by
  obtain ⟨real, cell, left, -⟩ := held_node.mp held
  have some : rootPtr l ≠ 0 := fun zero => ne (left.root_eq_zero.mp zero)
  simp [deleteAt, real, cell, AvlNode.block, some]

theorem deleteAt_only_right (held : HeldTree m (.node v h .nil r)) (ne : r ≠ .nil) :
    deleteAt src parentNull v.addr (deep + 1) m (rootPtr (.node v h .nil r)) st =
      (src.freeNode v.ptr st).bind fun st =>
        (rebalanceAt m (rootPtr r)).bind fun q => some (q.1, q.2, st) := by
  obtain ⟨real, cell, -, right, -⟩ := held_node.mp held
  have some : rootPtr r ≠ 0 := fun zero => ne (right.root_eq_zero.mp zero)
  simp [deleteAt, real, cell, AvlNode.block, some]

theorem deleteAt_both (held : HeldTree m (.node v h l r)) (nel : l ≠ .nil) (ner : r ≠ .nil) :
    deleteAt src parentNull v.addr (deep + 1) m (rootPtr (.node v h l r)) st =
      ((successorAt m deep (rootPtr r) none).bind fun s =>
        (unlinkAt parentNull (setVal m v.ptr (m s.1).val) v.ptr s.1 s.2).map fun m' =>
          (s.1, m')).bind fun b =>
        (src.freeNode b.1 st).bind fun st =>
          (rebalanceAt b.2 v.ptr).bind fun q => some (q.1, q.2, st) := by
  obtain ⟨real, cell, left, right, -⟩ := held_node.mp held
  have someLeft : rootPtr l ≠ 0 := fun zero => nel (left.root_eq_zero.mp zero)
  have someRight : rootPtr r ≠ 0 := fun zero => ner (right.root_eq_zero.mp zero)
  simp [deleteAt, real, cell, AvlNode.block, someLeft, someRight, Option.bind_assoc,
    Option.bind_map]

end Here

theorem deleteNode_less {parentNull : Bool} {addr : Nat} {st : σ × Phys} (less : addr < v.addr) :
    deleteNode src parentNull addr (.node v h l r) st =
      (deleteNode src parentNull addr l st).bind fun a =>
        (rebalance v h a.1 r).bind fun t => some (t, a.2) := by
  rw [deleteNode.eq_def]
  exact if_pos less

theorem deleteNode_more {parentNull : Bool} {addr : Nat} {st : σ × Phys} (more : v.addr < addr) :
    deleteNode src parentNull addr (.node v h l r) st =
      (deleteNode src parentNull addr r st).bind fun a =>
        (rebalance v h l a.1).bind fun t => some (t, a.2) := by
  rw [deleteNode.eq_def]
  exact (if_neg more.not_gt).trans (if_pos more)

theorem deleteAt_both_alike {parentNull : Bool} {deep : Nat} {st : σ × Phys}
    (held : HeldTree m (.node v h l r)) (nel : l ≠ .nil) (ner : r ≠ .nil)
    (enough : depth r ≤ deep) :
    Option.Rel (Alike (· ∈ nodePtrs (.node v h l r)) m)
      ((removeInner parentNull v r).bind fun a => (src.freeNode a.2.1 st).bind fun st =>
        (rebalance a.1 h l a.2.2).bind fun t => some (t, st))
      (deleteAt src parentNull v.addr (deep + 1) m (rootPtr (.node v h l r)) st) := by
  rw [deleteAt_both held nel ner]
  refine rel_bind (removeInner_alike held ner enough) fun a b _ both => ?_
  rw [both.1]
  refine rel_bind (rel_self _) fun st' st'' _ same => ?_
  have top : v.ptr = a.1.ptr := both.2.top
  rw [← same, top]
  exact rebalance_alike (top ▸ both.2)

theorem deleteAt_alike {parentNull : Bool} {addr deep : Nat} {st : σ × Phys}
    (held : HeldTree m t) (enough : depth t < deep) :
    Option.Rel (Alike (· ∈ nodePtrs t) m) (deleteNode src parentNull addr t st)
      (deleteAt src parentNull addr deep m (rootPtr t) st) := by
  induction t generalizing m deep with
  | nil =>
    obtain ⟨deep, rfl⟩ : ∃ d, deep = d + 1 := ⟨deep - 1, by omega⟩
    exact .some ⟨shows_self held, rfl⟩
  | node v h l r left right =>
    obtain ⟨deep, rfl⟩ : ∃ d, deep = d + 1 := ⟨deep - 1, by omega⟩
    obtain ⟨real, cell, heldLeft, heldRight, apart⟩ := held_node.mp held
    rw [depth] at enough
    rcases Nat.lt_trichotomy addr v.addr with less | rfl | more
    · have call := left heldLeft (show depth l < deep by omega)
      rw [deleteAt_left held less, deleteNode_less less]
      refine alike_mono (left_alike held call apart.left ?_) (by simp [nodePtrs_node])
      exact fun p inside other => apart.between p other inside
    · cases l with
      | nil =>
        cases r with
        | nil =>
          rw [deleteAt_leaf held, deleteNode, if_neg (by omega), if_neg (by omega)]
          refine rel_bind (rel_self _) fun st' st'' _ same => .some ⟨?_, same.symm⟩
          exact ⟨rfl, held_nil, .refl _ _, by simp⟩
        | node w i a b =>
          rw [deleteAt_only_right held (by simp), deleteNode, if_neg (by omega),
            if_neg (by omega)]
          refine rel_bind (rel_self _) fun st' st'' _ same => ?_
          rw [← same]
          exact rebalanceRoot_alike (by simp)
            ((shows_self heldRight).mono (by simp [nodePtrs_node]; tauto))
      | node x j c d =>
        cases r with
        | nil =>
          rw [deleteAt_only_left held (by simp), deleteNode, if_neg (by omega),
            if_neg (by omega)]
          refine rel_bind (rel_self _) fun st' st'' _ same => ?_
          rw [← same]
          exact rebalanceRoot_alike (by simp)
            ((shows_self heldLeft).mono (by simp [nodePtrs_node]; tauto))
        | node w i a b =>
          rw [deleteNode, if_neg (by omega), if_neg (by omega)]
          exact deleteAt_both_alike held (by simp) (by simp) (by omega)
    · have call := right heldRight (show depth r < deep by omega)
      rw [deleteAt_right held more, deleteNode_more more]
      exact alike_mono (right_alike held call apart.right apart.between)
        (by simp [nodePtrs_node]; tauto)

end Operations

section Searches

def foundPtr (found : Option AvlNode) : Nat := found.elim 0 AvlNode.ptr

variable {deep : Nat}

theorem mem_ptr_ne (held : HeldTree m t) {n : AvlNode} (inside : n ∈ t.toList) : n.ptr ≠ 0 := by
  induction t with
  | nil => simp at inside
  | node v h l r left right =>
    obtain ⟨real, -, heldLeft, heldRight, -⟩ := held_node.mp held
    rw [KeyTree.toList_node, List.mem_append, List.mem_cons] at inside
    rcases inside with inside | rfl | inside
    · exact left heldLeft inside
    · exact real
    · exact right heldRight inside

theorem child_eq {search : Option Nat} {found : Option AvlNode} (held : HeldTree m t)
    (call : t ≠ .nil → search = some (foundPtr found)) (empty : t = .nil → found = none) :
    (if rootPtr t ≠ 0 then search else some 0) = some (foundPtr found) := by
  cases t with
  | nil =>
    rw [empty rfl]
    rfl
  | node v h l r => exact (if_pos (held_node.mp held).1).trans (call (by simp))

theorem avlFindAt_eq {addr : Nat} (held : HeldTree m t) (ne : t ≠ .nil)
    (enough : depth t ≤ deep) :
    avlFindAt m addr deep (rootPtr t) = some (foundPtr (avlFind addr t)) := by
  induction t generalizing deep with
  | nil => exact absurd rfl ne
  | node v h l r left right =>
    rw [depth] at enough
    obtain ⟨deep, rfl⟩ : ∃ d, deep = d + 1 := ⟨deep - 1, by omega⟩
    obtain ⟨real, cell, heldLeft, heldRight, -⟩ := held_node.mp held
    simp only [avlFindAt, root_node, real, if_false, cell, avlFind, KeyTree.find, AvlNode.block]
    split
    · rfl
    · split
      · exact child_eq heldLeft (fun some => left heldLeft some (by omega)) (by rintro rfl; rfl)
      · exact child_eq heldRight (fun some => right heldRight some (by omega)) (by rintro rfl; rfl)

theorem avlBelowAt_eq {addr : Nat} (held : HeldTree m t) (ne : t ≠ .nil)
    (enough : depth t ≤ deep) :
    avlBelowAt m addr deep (rootPtr t) = some (foundPtr (avlBelow addr t)) := by
  induction t generalizing deep with
  | nil => exact absurd rfl ne
  | node v h l r left right =>
    rw [depth] at enough
    obtain ⟨deep, rfl⟩ : ∃ d, deep = d + 1 := ⟨deep - 1, by omega⟩
    obtain ⟨real, cell, heldLeft, heldRight, -⟩ := held_node.mp held
    have diff : int32 ((addr + (2 ^ 64 - v.block.stop)) % 2 ^ 64) = belowDiff v addr := rfl
    simp only [avlBelowAt, root_node, real, if_false, cell, diff, avlBelow]
    split
    · rfl
    · split
      · exact child_eq heldLeft (fun some => left heldLeft some (by omega)) (by rintro rfl; rfl)
      · exact child_eq heldRight (fun some => right heldRight some (by omega)) (by rintro rfl; rfl)

theorem avlMinSizeAt_eq {pageCount : Nat} (held : HeldTree m t) (ne : t ≠ .nil)
    (enough : depth t ≤ deep) :
    avlMinSizeAt m pageCount deep (rootPtr t) = some (foundPtr (avlMinSize pageCount t)) := by
  induction t generalizing deep with
  | nil => exact absurd rfl ne
  | node v h l r left right =>
    rw [depth] at enough
    obtain ⟨deep, rfl⟩ : ∃ d, deep = d + 1 := ⟨deep - 1, by omega⟩
    obtain ⟨real, cell, heldLeft, heldRight, -⟩ := held_node.mp held
    have first : (if rootPtr r ≠ 0 then avlMinSizeAt m pageCount deep (rootPtr r) else some 0) =
        some (foundPtr (avlMinSize pageCount r)) :=
      child_eq heldRight (fun some => right heldRight some (by omega)) (by rintro rfl; rfl)
    have last : (if rootPtr l ≠ 0 then avlMinSizeAt m pageCount deep (rootPtr l) else some 0) =
        some (foundPtr (avlMinSize pageCount l)) :=
      child_eq heldLeft (fun some => left heldLeft some (by omega)) (by rintro rfl; rfl)
    simp only [avlMinSizeAt, root_node, real, if_false, cell, first, last, Option.bind_some,
      avlMinSize]
    cases found : avlMinSize pageCount r with
    | some n =>
      have there : n.ptr ≠ 0 := mem_ptr_ne heldRight (avlMinSize_some found).1
      simp [foundPtr, there]
    | none =>
      simp only [foundPtr, Option.elim_none, ne_eq, not_true, if_false, AvlNode.block, ge_iff_le]
      by_cases fits : pageCount ≤ v.pageCount ∧ v.allocated = false
      · rw [if_pos fits, if_pos fits]
        rfl
      · rw [if_neg fits, if_neg fits]

end Searches

end Gapxos
