import Gapxos.Lib.SearchTree
import Mathlib.Data.List.Nodup
import Mathlib.Logic.Function.Basic

/-! Binary trees in a memory of cells. A node is a cell with the pointers to its two
children, NULL being 0; a tree is held by a memory if every node is in the cell its pointer
names and no cell is used twice. A write to one cell keeps every tree that does not use it. -/
namespace TreeCells
open SearchTree

structure Cell (β : Type) where
  val : β
  left : Nat
  right : Nat
  height : Nat
deriving DecidableEq, Repr

variable {α β : Type} (ptr : α → Nat) (val : α → β)

def root : KeyTree α → Nat
  | .nil => 0
  | .node v _ _ _ => ptr v

def ptrs (t : KeyTree α) : List Nat := t.toList.map ptr

def Stored (m : Nat → Cell β) : KeyTree α → Prop
  | .nil => True
  | .node v h l r => ptr v ≠ 0 ∧ m (ptr v) = ⟨val v, root ptr l, root ptr r, h⟩ ∧
      Stored m l ∧ Stored m r

structure Apart (v : α) (l r : KeyTree α) : Prop where
  left : ptr v ∉ ptrs ptr l
  right : ptr v ∉ ptrs ptr r
  between : ∀ p ∈ ptrs ptr l, p ∉ ptrs ptr r

structure Held (m : Nat → Cell β) (t : KeyTree α) : Prop where
  stored : Stored ptr val m t
  once : (ptrs ptr t).Nodup

/-- Only cells of `P` have changed. -/
def Within (P : Nat → Prop) (m m' : Nat → Cell β) : Prop := ∀ p, ¬ P p → m' p = m p

/-- A memory reached from `m` by changes to `P`, and a pointer: they have the tree. -/
structure Shows (P : Nat → Prop) (m : Nat → Cell β) (t : KeyTree α)
    (q : Nat × (Nat → Cell β)) : Prop where
  top : q.1 = root ptr t
  held : Held ptr val q.2 t
  within : Within P m q.2
  inside : ∀ p ∈ ptrs ptr t, P p

/- Writes to one field of a node. -/
def setVal (m : Nat → Cell β) (p : Nat) (w : β) : Nat → Cell β :=
  Function.update m p { m p with val := w }

def setLeft (m : Nat → Cell β) (p q : Nat) : Nat → Cell β :=
  Function.update m p { m p with left := q }

def setRight (m : Nat → Cell β) (p q : Nat) : Nat → Cell β :=
  Function.update m p { m p with right := q }

def putHeight (m : Nat → Cell β) (p h : Nat) : Nat → Cell β :=
  Function.update m p { m p with height := h }

variable {ptr val} {m m' m'' : Nat → Cell β} {t l r : KeyTree α} {v : α} {h p : Nat}
  {c : Cell β} {P Q : Nat → Prop}

@[simp] theorem root_nil : root ptr (.nil : KeyTree α) = 0 := rfl

@[simp] theorem root_node : root ptr (.node v h l r) = ptr v := rfl

@[simp] theorem ptrs_nil : ptrs ptr (.nil : KeyTree α) = [] := rfl

@[simp] theorem ptrs_node : ptrs ptr (.node v h l r) = ptrs ptr l ++ ptr v :: ptrs ptr r := by
  simp [ptrs]

theorem Within.refl (P : Nat → Prop) (m : Nat → Cell β) : Within P m m := fun _ _ => rfl

theorem Within.trans (first : Within P m m') (second : Within P m' m'') : Within P m m'' :=
  fun p out => (second p out).trans (first p out)

theorem Within.mono (sub : ∀ p, P p → Q p) (only : Within P m m') : Within Q m m' :=
  fun p out => only p fun inside => out (sub p inside)

theorem within_update (inside : P p) : Within P m (Function.update m p c) := by
  intro q out
  apply Function.update_of_ne
  rintro rfl
  exact out inside

theorem Stored.congr (stored : Stored ptr val m t) (same : ∀ p ∈ ptrs ptr t, m' p = m p) :
    Stored ptr val m' t := by
  induction t with
  | nil => trivial
  | node v h l r left right =>
    obtain ⟨real, cell, inLeft, inRight⟩ := stored
    refine ⟨real, (same _ (by simp)).trans cell, left inLeft ?_, right inRight ?_⟩
    · exact fun p inside => same p (by simp [inside])
    · exact fun p inside => same p (by simp [inside])

theorem Held.congr (held : Held ptr val m t) (same : ∀ p ∈ ptrs ptr t, m' p = m p) :
    Held ptr val m' t :=
  ⟨held.stored.congr same, held.once⟩

theorem Held.within (held : Held ptr val m t) (only : Within P m m')
    (apart : ∀ p ∈ ptrs ptr t, ¬ P p) : Held ptr val m' t :=
  held.congr fun p inside => only p (apart p inside)

theorem Held.update (held : Held ptr val m t) (out : p ∉ ptrs ptr t) :
    Held ptr val (Function.update m p c) t :=
  held.congr fun q inside => Function.update_of_ne (by rintro rfl; exact out inside) _ _

theorem held_nil : Held ptr val m (.nil : KeyTree α) := ⟨trivial, List.nodup_nil⟩

theorem held_node : Held ptr val m (.node v h l r) ↔
    ptr v ≠ 0 ∧ m (ptr v) = ⟨val v, root ptr l, root ptr r, h⟩ ∧
      Held ptr val m l ∧ Held ptr val m r ∧ Apart ptr v l r := by
  constructor
  · rintro ⟨⟨real, cell, inLeft, inRight⟩, once⟩
    rw [ptrs_node, List.nodup_append, List.nodup_cons] at once
    obtain ⟨first, ⟨right, second⟩, between⟩ := once
    refine ⟨real, cell, ⟨inLeft, first⟩, ⟨inRight, second⟩, ?_, right, ?_⟩
    · exact fun inside => between _ inside _ (by simp) rfl
    · exact fun p inside other => between p inside p (by simp [other]) rfl
  · rintro ⟨real, cell, inLeft, inRight, apart⟩
    refine ⟨⟨real, cell, inLeft.stored, inRight.stored⟩, ?_⟩
    rw [ptrs_node, List.nodup_append, List.nodup_cons]
    refine ⟨inLeft.once, ⟨apart.right, inRight.once⟩, ?_⟩
    intro p inside q other equal
    subst equal
    rcases List.mem_cons.mp other with rfl | other
    · exact apart.left inside
    · exact apart.between p inside other

theorem Held.root_eq_zero (held : Held ptr val m t) : root ptr t = 0 ↔ t = .nil := by
  cases t with
  | nil => simp
  | node v h l r => simp [(held_node.mp held).1]

theorem held_setLeft {q : Nat × (Nat → Cell β)} (held : Held ptr val m (.node v h l r))
    (shows : Shows ptr val P m t q) (here : ¬ P (ptr v)) (there : ∀ p ∈ ptrs ptr r, ¬ P p) :
    Held ptr val (setLeft q.2 (ptr v) q.1) (.node v h t r) := by
  obtain ⟨real, cell, -, inRight, apart⟩ := held_node.mp held
  have out : ptr v ∉ ptrs ptr t := fun inside => here (shows.inside _ inside)
  refine held_node.mpr ⟨real, ?_, shows.held.update out,
    (inRight.within shows.within there).update apart.right, out, apart.right, ?_⟩
  · simp [setLeft, shows.within _ here, cell, shows.top]
  · exact fun p inside other => there p other (shows.inside p inside)

theorem held_setRight {q : Nat × (Nat → Cell β)} (held : Held ptr val m (.node v h l r))
    (shows : Shows ptr val P m t q) (here : ¬ P (ptr v)) (there : ∀ p ∈ ptrs ptr l, ¬ P p) :
    Held ptr val (setRight q.2 (ptr v) q.1) (.node v h l t) := by
  obtain ⟨real, cell, inLeft, -, apart⟩ := held_node.mp held
  have out : ptr v ∉ ptrs ptr t := fun inside => here (shows.inside _ inside)
  refine held_node.mpr ⟨real, ?_, (inLeft.within shows.within there).update apart.left,
    shows.held.update out, apart.left, out, ?_⟩
  · simp [setRight, shows.within _ here, cell, shows.top]
  · exact fun p inside other => there p inside (shows.inside p other)

theorem held_keepLeft {m' : Nat → Cell β} (held : Held ptr val m (.node v h l r))
    (shows : Shows ptr val P m t (root ptr l, m')) (here : ¬ P (ptr v))
    (there : ∀ p ∈ ptrs ptr r, ¬ P p) : Held ptr val m' (.node v h t r) := by
  have cell : m' (ptr v) = ⟨val v, root ptr l, root ptr r, h⟩ :=
    (shows.within _ here).trans (held_node.mp held).2.1
  have same : setLeft m' (ptr v) (root ptr l) = m' := by
    rw [setLeft, cell, ← cell, Function.update_eq_self]
  exact same ▸ held_setLeft held shows here there

theorem held_keepRight {m' : Nat → Cell β} (held : Held ptr val m (.node v h l r))
    (shows : Shows ptr val P m t (root ptr r, m')) (here : ¬ P (ptr v))
    (there : ∀ p ∈ ptrs ptr l, ¬ P p) : Held ptr val m' (.node v h l t) := by
  have cell : m' (ptr v) = ⟨val v, root ptr l, root ptr r, h⟩ :=
    (shows.within _ here).trans (held_node.mp held).2.1
  have same : setRight m' (ptr v) (root ptr r) = m' := by
    rw [setRight, cell, ← cell, Function.update_eq_self]
  exact same ▸ held_setRight held shows here there

theorem held_putHeight (held : Held ptr val m (.node v h l r)) (i : Nat) :
    Held ptr val (putHeight m (ptr v) i) (.node v i l r) := by
  obtain ⟨real, cell, inLeft, inRight, apart⟩ := held_node.mp held
  refine held_node.mpr ⟨real, ?_, inLeft.update apart.left, inRight.update apart.right, apart⟩
  simp [putHeight, cell]

section Rotations

variable {x z : α} {i : Nat} {a b d : KeyTree α}

theorem held_rotateLeft (held : Held ptr val m (.node x h a (.node z i b d))) :
    Held ptr val (setLeft (setRight m (ptr x) (root ptr b)) (ptr z) (ptr x))
      (.node z i (.node x h a b) d) := by
  obtain ⟨xsome, xcell, left, right, xapart⟩ := held_node.mp held
  obtain ⟨zsome, zcell, between, last, zapart⟩ := held_node.mp right
  have rest : ptr x ∉ ptrs ptr b ∧ ptr x ≠ ptr z ∧ ptr x ∉ ptrs ptr d := by
    simpa using xapart.right
  have ends : ∀ p ∈ ptrs ptr a, p ∉ ptrs ptr b ∧ p ≠ ptr z ∧ p ∉ ptrs ptr d := by
    simpa using xapart.between
  have out : ptr z ∉ ptrs ptr a := fun inside => (ends _ inside).2.1 rfl
  have lower : Apart ptr x a b := ⟨xapart.left, rest.1, fun p inside => (ends p inside).1⟩
  have upper : Apart ptr z (.node x h a b) d := by
    refine ⟨by simp [out, rest.2.1.symm, zapart.left], zapart.right, ?_⟩
    intro p inside
    rcases List.mem_append.mp (ptrs_node ▸ inside) with inside | inside
    · exact (ends p inside).2.2
    · rcases List.mem_cons.mp inside with rfl | inside
      · exact rest.2.2
      · exact zapart.between p inside
  refine held_node.mpr ⟨zsome, ?_, held_node.mpr ⟨xsome, ?_, ?_, ?_, lower⟩, ?_, upper⟩
  · simp [setLeft, setRight, rest.2.1.symm, zcell]
  · simp [setLeft, setRight, rest.2.1, xcell]
  · exact (left.update xapart.left).update out
  · exact (between.update rest.1).update zapart.left
  · exact (last.update rest.2.2).update zapart.right

theorem held_rotateRight (held : Held ptr val m (.node x h (.node z i b d) a)) :
    Held ptr val (setRight (setLeft m (ptr x) (root ptr d)) (ptr z) (ptr x))
      (.node z i b (.node x h d a)) := by
  obtain ⟨xsome, xcell, left, right, xapart⟩ := held_node.mp held
  obtain ⟨zsome, zcell, first, between, zapart⟩ := held_node.mp left
  have rest : ptr x ∉ ptrs ptr b ∧ ptr x ≠ ptr z ∧ ptr x ∉ ptrs ptr d := by
    simpa using xapart.left
  have ends : ∀ p ∈ ptrs ptr a, p ∉ ptrs ptr b ∧ p ≠ ptr z ∧ p ∉ ptrs ptr d := by
    intro p inside
    have out : p ∉ ptrs ptr (.node z i b d) := fun other => xapart.between p other inside
    simpa using out
  have out : ptr z ∉ ptrs ptr a := fun inside => (ends _ inside).2.1 rfl
  have lower : Apart ptr x d a :=
    ⟨rest.2.2, xapart.right, fun p inside other => (ends p other).2.2 inside⟩
  have upper : Apart ptr z b (.node x h d a) := by
    refine ⟨zapart.left, by simp [out, rest.2.1.symm, zapart.right], ?_⟩
    intro p inside other
    rcases List.mem_append.mp (ptrs_node ▸ other) with other | other
    · exact zapart.between p inside other
    · rcases List.mem_cons.mp other with rfl | other
      · exact rest.1 inside
      · exact (ends p other).1 inside
  refine held_node.mpr ⟨zsome, ?_, ?_, held_node.mpr ⟨xsome, ?_, ?_, ?_, lower⟩, upper⟩
  · simp [setLeft, setRight, rest.2.1.symm, zcell]
  · exact (first.update rest.1).update zapart.left
  · simp [setLeft, setRight, rest.2.1, xcell]
  · exact (between.update rest.2.2).update zapart.right
  · exact (right.update xapart.right).update out

theorem held_putHeight_left (held : Held ptr val m (.node z i (.node x h a b) d)) (k : Nat) :
    Held ptr val (putHeight m (ptr x) k) (.node z i (.node x k a b) d) := by
  obtain ⟨real, cell, left, right, apart⟩ := held_node.mp held
  have ne : ptr z ≠ ptr x := fun equal => apart.left (by simp [equal])
  have out : ptr x ∉ ptrs ptr d := fun inside => apart.between (ptr x) (by simp) inside
  refine held_node.mpr ⟨real, ?_, held_putHeight left k, right.update out, ?_⟩
  · simp [putHeight, ne, cell]
  · exact ⟨by simpa using apart.left, apart.right, by simpa using apart.between⟩

theorem held_putHeight_right (held : Held ptr val m (.node z i d (.node x h a b))) (k : Nat) :
    Held ptr val (putHeight m (ptr x) k) (.node z i d (.node x k a b)) := by
  obtain ⟨real, cell, left, right, apart⟩ := held_node.mp held
  have ne : ptr z ≠ ptr x := fun equal => apart.right (by simp [equal])
  have out : ptr x ∉ ptrs ptr d := fun inside => apart.between (ptr x) inside (by simp)
  refine held_node.mpr ⟨real, ?_, left.update out, held_putHeight right k, ?_⟩
  · simp [putHeight, ne, cell]
  · exact ⟨apart.left, by simpa using apart.right, by simpa using apart.between⟩

end Rotations

theorem held_setVal {w : α} (held : Held ptr val m (.node v h l r)) (same : ptr w = ptr v) :
    Held ptr val (setVal m (ptr v) (val w)) (.node w h l r) := by
  obtain ⟨real, cell, inLeft, inRight, apart⟩ := held_node.mp held
  refine held_node.mpr ⟨same ▸ real, ?_, inLeft.update apart.left, inRight.update apart.right, ?_⟩
  · simp [setVal, same, cell]
  · exact ⟨same ▸ apart.left, same ▸ apart.right, apart.between⟩

theorem root_mem (real : root ptr t ≠ 0) : root ptr t ∈ ptrs ptr t := by
  cases t with
  | nil => simp at real
  | node v h l r => simp

end TreeCells
