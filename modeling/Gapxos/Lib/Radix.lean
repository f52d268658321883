import Mathlib.Data.List.Infix

/-! Radix tables of any depth, kept in a flat arena of frames.
An entry names the frame of the next table through `child`; an entry with no child
ends the walk. Nothing is assumed about the width of a table or the entry format. -/
namespace Radix

variable {F I E : Type}

section Walk

variable (child : E → Option F)

/-- The frame of the table that a path of indices selects below `root`. -/
def tableAt (A : F → I → E) : F → List I → Option F
  | root, [] => some root
  | root, i :: p => (child (A root i)).bind fun f => tableAt A f p

/-- The entries a walker meets along a path, up to the first one with no child. -/
def trace (A : F → I → E) : F → List I → List E
  | _, [] => []
  | root, i :: p => A root i :: (match child (A root i) with
      | some f => trace A f p
      | none => [])

def Tree (d : Nat) (A : F → I → E) (root : F) : Prop :=
  ∀ p q f, p.length ≤ d → q.length ≤ d →
    tableAt child A root p = some f → tableAt child A root q = some f → p = q

/-- A frame that no path of at most `d` indices reaches. -/
def Unused (d : Nat) (A : F → I → E) (root g : F) : Prop :=
  ∀ p, p.length ≤ d → tableAt child A root p ≠ some g

variable {child}

theorem tableAt_append (A : F → I → E) (root : F) (p q : List I) :
    tableAt child A root (p ++ q) =
      (tableAt child A root p).bind fun f => tableAt child A f q := by
  induction p generalizing root with
  | nil => rfl
  | cons i p ih =>
    simp only [List.cons_append, tableAt]
    cases child (A root i) with
    | none => rfl
    | some f => exact ih f

theorem tableAt_snoc {A : F → I → E} {root f g : F} {p : List I} {i : I}
    (reach : tableAt child A root p = some f) (edge : child (A f i) = some g) :
    tableAt child A root (p ++ [i]) = some g := by
  simp [tableAt_append, reach, tableAt, edge]

theorem trace_append {A : F → I → E} {root f : F} {q : List I}
    (reach : tableAt child A root q = some f) (p : List I) :
    trace child A root (q ++ p) = trace child A root q ++ trace child A f p := by
  induction q generalizing root with
  | nil =>
    cases Option.some.inj reach
    rfl
  | cons i q ih =>
    simp only [tableAt] at reach
    cases edge : child (A root i) with
    | none => simp [edge] at reach
    | some g =>
      simp only [edge, Option.bind_some] at reach
      simp only [List.cons_append, trace, edge, ih reach]

theorem trace_part (A : F → I → E) (root : F) (p q : List I) :
    trace child A root p <+: trace child A root (p ++ q) := by
  induction p generalizing root with
  | nil => exact List.nil_prefix
  | cons i p ih =>
    simp only [List.cons_append, trace, List.cons_prefix_cons, true_and]
    cases child (A root i) with
    | none => exact List.nil_prefix
    | some f => exact ih f

theorem length_trace {A : F → I → E} {root f : F} {p : List I}
    (reach : tableAt child A root p = some f) : (trace child A root p).length = p.length := by
  induction p generalizing root with
  | nil => rfl
  | cons i p ih =>
    simp only [tableAt] at reach
    cases edge : child (A root i) with
    | none => simp [edge] at reach
    | some g =>
      simp only [edge, Option.bind_some] at reach
      simp only [trace, edge, List.length_cons, ih reach]

theorem tableAt_eq_none {A : F → I → E} {root : F} {p : List I}
    (h : tableAt child A root p = none) :
    ∃ q i r f, p = q ++ i :: r ∧ tableAt child A root q = some f ∧ child (A f i) = none := by
  induction p generalizing root with
  | nil => cases h
  | cons i p ih =>
    simp only [tableAt] at h
    cases edge : child (A root i) with
    | none => exact ⟨[], i, p, root, rfl, rfl, edge⟩
    | some g =>
      simp only [edge, Option.bind_some] at h
      obtain ⟨q, j, r, f, rfl, reach, stop⟩ := ih h
      exact ⟨i :: q, j, r, f, rfl, by simp [tableAt, edge, reach], stop⟩

/- Two arenas that agree on every frame of the tree cannot be told apart by a walk. -/
theorem agree_below {A B : F → I → E} {root : F} {d : Nat}
    (agree : ∀ p f, p.length ≤ d → tableAt child A root p = some f → A f = B f)
    (r p : List I) (g : F) (reach : tableAt child A root r = some g)
    (short : r.length + p.length ≤ d + 1) :
    tableAt child B g p = tableAt child A g p ∧ trace child B g p = trace child A g p := by
  induction p generalizing r g with
  | nil => exact ⟨rfl, rfl⟩
  | cons i p ih =>
    simp only [List.length_cons] at short
    have same : A g i = B g i := congrFun (agree r g (by omega) reach) i
    cases edge : child (A g i) with
    | none => simp [tableAt, trace, ← same, edge]
    | some f =>
      have below := ih (r ++ [i]) f (tableAt_snoc reach edge) (by simp; omega)
      simp [tableAt, trace, ← same, edge, below.1, below.2]

theorem trace_agree {A B : F → I → E} {root : F} {d : Nat}
    (agree : ∀ p f, p.length ≤ d → tableAt child A root p = some f → A f = B f)
    {p : List I} (short : p.length ≤ d + 1) :
    trace child B root p = trace child A root p :=
  (agree_below agree [] p root rfl (by simpa using short)).2

theorem tableAt_agree {A B : F → I → E} {root : F} {d : Nat}
    (agree : ∀ p f, p.length ≤ d → tableAt child A root p = some f → A f = B f)
    {p : List I} (short : p.length ≤ d + 1) :
    tableAt child B root p = tableAt child A root p :=
  (agree_below agree [] p root rfl (by simpa using short)).1

theorem trace_along {A B : F → I → E} {root : F} {p : List I}
    (agree : ∀ q i r f, p = q ++ i :: r → tableAt child A root q = some f → B f i = A f i) :
    trace child B root p = trace child A root p := by
  induction p generalizing root with
  | nil => rfl
  | cons i p ih =>
    have here := agree [] i p root rfl rfl
    rw [trace, trace, here]
    cases edge : child (A root i) with
    | none => rfl
    | some g =>
      have below : trace child B g p = trace child A g p := ih fun q j r f split reach =>
        agree (i :: q) j r f (by rw [split]; rfl) (by rw [tableAt, edge, Option.bind_some, reach])
      simp only [below]

theorem tree_agree {A B : F → I → E} {root : F} {d : Nat}
    (agree : ∀ p f, p.length ≤ d → tableAt child A root p = some f → A f = B f)
    (tree : Tree child d A root) : Tree child d B root := by
  intro p q f hp hq reach reach'
  rw [tableAt_agree agree (by omega)] at reach reach'
  exact tree p q f hp hq reach reach'

theorem not_below_self (q : List I) (i : I) : ¬ q ++ [i] <+: q := by
  intro inside
  have := inside.length_le
  simp only [List.length_append, List.length_singleton] at this
  omega

end Walk

section Store

variable [DecidableEq F] [DecidableEq I] {child : E → Option F}

def store (A : F → I → E) (f : F) (i : I) (e : E) : F → I → E :=
  fun g j => if g = f ∧ j = i then e else A g j

@[simp] theorem store_same (A : F → I → E) (f : F) (i : I) (e : E) : store A f i e f i = e := by
  simp [store]

theorem store_other {A : F → I → E} {f g : F} {i j : I} {e : E} (h : ¬ (g = f ∧ j = i)) :
    store A f i e g j = A g j := by
  simp only [store, if_neg h]

theorem store_other_frame {A : F → I → E} {f g : F} {i : I} {e : E} (h : g ≠ f) :
    store A f i e g = A g := by
  funext j
  exact store_other (fun same => h same.1)

theorem store_other_index {A : F → I → E} {f g : F} {i j : I} {e : E} (h : j ≠ i) :
    store A f i e g j = A g j :=
  store_other fun same => h same.2

theorem store_self (A : F → I → E) (f : F) (i : I) : store A f i (A f i) = A := by
  funext g j
  by_cases hit : g = f ∧ j = i
  · rw [hit.1, hit.2, store_same]
  · rw [store_other hit]

theorem store_store (A : F → I → E) (f : F) (i : I) (a b : E) :
    store (store A f i a) f i b = store A f i b := by
  funext g j
  unfold store
  split <;> rfl

/- A store in one slot of a table is seen only by the paths through that slot: a walk that
is off the slot's path, or already below it, never reads the slot. -/
theorem store_below {A : F → I → E} {root f : F} {d : Nat} {q : List I} {i : I} (e : E)
    (tree : Tree child d A root) (reach : tableAt child A root q = some f) (hq : q.length ≤ d)
    (r p : List I) (g : F) (reach' : tableAt child A root r = some g)
    (short : r.length + p.length ≤ d + 1) (off : q.length < r.length ∨ ¬ q ++ [i] <+: r ++ p) :
    tableAt child (store A f i e) g p = tableAt child A g p ∧
      trace child (store A f i e) g p = trace child A g p := by
  induction p generalizing r g with
  | nil => exact ⟨rfl, rfl⟩
  | cons j p ih =>
    simp only [List.length_cons] at short
    have same : store A f i e g j = A g j := by
      apply store_other
      rintro ⟨rfl, rfl⟩
      have path : r = q := tree r q g (by omega) hq reach' reach
      rcases off with below | off
      · exact absurd below (by simp [path])
      · exact off ⟨p, by simp [path]⟩
    cases edge : child (A g j) with
    | none => simp [tableAt, trace, same, edge]
    | some h =>
      have off' : q.length < (r ++ [j]).length ∨ ¬ q ++ [i] <+: (r ++ [j]) ++ p := by
        rcases off with below | off
        · exact .inl (by simp; omega)
        · exact .inr (by simpa using off)
      have below := ih (r ++ [j]) h (tableAt_snoc reach' edge) (by simp; omega) off'
      simp [tableAt, trace, same, edge, below.1, below.2]

theorem trace_store {A : F → I → E} {root f : F} {d : Nat} {q : List I} {i : I} (e : E)
    (tree : Tree child d A root) (reach : tableAt child A root q = some f) (hq : q.length ≤ d)
    {p : List I} (short : p.length ≤ d + 1) (off : ¬ q ++ [i] <+: p) :
    trace child (store A f i e) root p = trace child A root p :=
  (store_below e tree reach hq [] p root rfl (by simpa using short) (.inr (by simpa using off))).2

theorem tableAt_store {A : F → I → E} {root f : F} {d : Nat} {q : List I} {i : I} (e : E)
    (tree : Tree child d A root) (reach : tableAt child A root q = some f) (hq : q.length ≤ d)
    {p : List I} (short : p.length ≤ d + 1) (off : ¬ q ++ [i] <+: p) :
    tableAt child (store A f i e) root p = tableAt child A root p :=
  (store_below e tree reach hq [] p root rfl (by simpa using short) (.inr (by simpa using off))).1

theorem trace_store_through {A : F → I → E} {root f g : F} {d : Nat} {q : List I} {i : I} {e : E}
    (tree : Tree child d A root) (reach : tableAt child A root q = some f)
    (old : child (A f i) = some g) (new : child e = some g) (r : List I)
    (short : q.length + r.length ≤ d) :
    trace child A root (q ++ i :: r) = trace child A root q ++ A f i :: trace child A g r ∧
    trace child (store A f i e) root (q ++ i :: r) =
      trace child A root q ++ e :: trace child A g r := by
  have top := tableAt_store e tree reach (by omega) (by omega) (not_below_self q i)
  have below := store_below (i := i) e tree reach (by omega) (q ++ [i]) r g (tableAt_snoc reach old)
    (by simp; omega) (.inl (by simp))
  constructor
  · simp only [trace_append reach, trace, old]
  · rw [trace_append (top.trans reach),
      trace_store e tree reach (by omega) (by omega) (not_below_self q i)]
    simp only [trace, store_same, new, below.2]

theorem tableAt_store_same_child {A : F → I → E} {f : F} {i : I} {e : E}
    (same : child e = child (A f i)) (root : F) (p : List I) :
    tableAt child (store A f i e) root p = tableAt child A root p := by
  induction p generalizing root with
  | nil => rfl
  | cons j p ih =>
    have head : child (store A f i e root j) = child (A root j) := by
      by_cases hit : root = f ∧ j = i
      · rw [hit.1, hit.2, store_same, same]
      · rw [store_other hit]
    simp only [tableAt, head, ih]

theorem tree_store_same_child {A : F → I → E} {f root : F} {i : I} {e : E} {d : Nat}
    (same : child e = child (A f i)) (tree : Tree child d A root) :
    Tree child d (store A f i e) root := by
  intro p q g hp hq reach reach'
  rw [tableAt_store_same_child same] at reach reach'
  exact tree p q g hp hq reach reach'

theorem tableAt_store_leaf {A : F → I → E} {root f : F} {d : Nat} {q : List I} {i : I} (e : E)
    (tree : Tree child d A root) (reach : tableAt child A root q = some f) (hq : q.length = d)
    {p : List I} (short : p.length ≤ d) :
    tableAt child (store A f i e) root p = tableAt child A root p := by
  apply tableAt_store e tree reach (by omega) (by omega)
  intro inside
  have := inside.length_le
  simp only [List.length_append, List.length_singleton] at this
  omega

theorem tree_store_leaf {A : F → I → E} {root f : F} {d : Nat} {q : List I} {i : I} (e : E)
    (tree : Tree child d A root) (reach : tableAt child A root q = some f) (hq : q.length = d) :
    Tree child d (store A f i e) root := by
  intro p r g hp hr reach' reach''
  rw [tableAt_store_leaf e tree reach hq hp] at reach'
  rw [tableAt_store_leaf e tree reach hq hr] at reach''
  exact tree p r g hp hr reach' reach''

/- Linking a frame whose entries have no child into a slot that had none. -/
section Link

variable {A : F → I → E} {root f g : F} {d : Nat} {q : List I} {i : I} {e : E}

theorem tableAt_link (tree : Tree child d A root) (reach : tableAt child A root q = some f)
    (hq : q.length < d) (edge : child e = some g) (apart : g ≠ f)
    (empty : ∀ j, child (A g j) = none) (r : List I) :
    tableAt child (store A f i e) root (q ++ i :: r) = if r = [] then some g else none := by
  have top : tableAt child (store A f i e) root q = some f := by
    rw [tableAt_store e tree reach (by omega) (by omega) (not_below_self q i), reach]
  cases r with
  | nil => simp [tableAt_append, top, tableAt, edge]
  | cons j r => simp [tableAt_append, top, tableAt, edge, store_other_frame apart, empty]

theorem trace_link (tree : Tree child d A root) (reach : tableAt child A root q = some f)
    (hq : q.length < d) (edge : child e = some g) (apart : g ≠ f) (r : List I)
    (empty : ∀ j, child (A g j) = none) :
    trace child (store A f i e) root (q ++ i :: r) =
      trace child A root q ++ e :: (r.head?.map (A g)).toList := by
  have top : tableAt child (store A f i e) root q = some f := by
    rw [tableAt_store e tree reach (by omega) (by omega) (not_below_self q i), reach]
  rw [trace_append top, trace_store e tree reach (by omega) (by omega) (not_below_self q i)]
  cases r with
  | nil => simp [trace, edge]
  | cons j r => simp [trace, edge, store_other_frame apart, empty]

theorem tree_link (tree : Tree child d A root) (reach : tableAt child A root q = some f)
    (hq : q.length < d) (edge : child e = some g) (fresh : Unused child d A root g)
    (empty : ∀ j, child (A g j) = none) : Tree child d (store A f i e) root := by
  have apart : g ≠ f := fun same => fresh q (by omega) (same ▸ reach)
  have only : ∀ p h, p.length ≤ d → tableAt child (store A f i e) root p = some h →
      (p = q ++ [i] ∧ h = g) ∨ (tableAt child A root p = some h) := by
    intro p h hp at_p
    by_cases through : q ++ [i] <+: p
    · obtain ⟨r, rfl⟩ := through
      rw [List.append_assoc, List.singleton_append, tableAt_link tree reach hq edge apart empty]
        at at_p
      cases r with
      | nil => exact .inl ⟨by simp, (Option.some.inj at_p).symm⟩
      | cons j r => simp at at_p
    · rw [tableAt_store e tree reach (by omega) (by omega) through] at at_p
      exact .inr at_p
  intro p r h hp hr at_p at_r
  rcases only p h hp at_p with ⟨rfl, rfl⟩ | old_p
  · rcases only r h hr at_r with ⟨rfl, _⟩ | old_r
    · rfl
    · exact absurd old_r (fresh r hr)
  · rcases only r h hr at_r with ⟨rfl, rfl⟩ | old_r
    · exact absurd old_p (fresh p hp)
    · exact tree p r h hp hr old_p old_r

theorem unused_link {h : F} (tree : Tree child d A root) (reach : tableAt child A root q = some f)
    (hq : q.length < d) (edge : child e = some g) (apart : g ≠ f)
    (empty : ∀ j, child (A g j) = none) (other : h ≠ g) (fresh : Unused child d A root h) :
    Unused child d (store A f i e) root h := by
  intro p hp at_p
  by_cases through : q ++ [i] <+: p
  · obtain ⟨r, rfl⟩ := through
    rw [List.append_assoc, List.singleton_append, tableAt_link tree reach hq edge apart empty]
      at at_p
    cases r with
    | nil => exact other (Option.some.inj at_p).symm
    | cons j r => simp at at_p
  · rw [tableAt_store e tree reach (by omega) (by omega) through] at at_p
    exact fresh p hp at_p

end Link

end Store

end Radix
