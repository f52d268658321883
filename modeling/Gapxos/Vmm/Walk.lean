import Mathlib.Data.List.Forall2
import Gapxos.Vmm.Paging

/-! What get_page_table_entry does to the walk of every page when no table is missing:
it ORs flags into three entries, and a walk can tell only through those three. -/
namespace Gapxos
open Radix

/-- The tables form a tree of distinct frames. -/
def TableTree (m : Mem) (cr3 : Nat) : Prop := Tree child 3 m cr3

/- No present entry of a walk points above 2^48, where the kernel's address mask and its
direct map do not reach. -/
def LowWalk (t : List Word) : Prop := ∀ e ∈ t, present e = true → hwFrame e < 2 ^ 36

/-- The three upper-level entries of `v` are present tables. -/
def UpperPresent (m : Mem) (cr3 v : Nat) : Prop :=
  ∃ pt, tableAt child m cr3 ((path v).take 3) = some pt

def Grows (fl : Word) (m m' : Mem) : Prop := ∀ f i, m' f i = m f i ∨ m' f i = m f i ||| fl

/-- A walk in which `fl` was OR-ed into entries other than the last. -/
def Widened (fl : Word) (t t' : List Word) : Prop :=
  List.Forall₂ (fun a b => b = a ∨ b = a ||| fl) t t' ∧ t.getLast? = t'.getLast?

theorem or_twice (a fl : Word) : a ||| fl ||| fl = a ||| fl := by
  rw [BitVec.or_assoc, BitVec.or_self]

theorem grow_trans {a b c fl : Word} (h : b = a ∨ b = a ||| fl) (h' : c = b ∨ c = b ||| fl) :
    c = a ∨ c = a ||| fl := by
  rcases h with rfl | rfl
  · exact h'
  · rw [or_twice, or_self] at h'
    exact .inr h'

theorem Grows.trans {fl : Word} {m m' m'' : Mem} (h : Grows fl m m') (h' : Grows fl m' m'') :
    Grows fl m m'' :=
  fun f i => grow_trans (h f i) (h' f i)

theorem Grows.keeps {fl : Word} {m m' : Mem} (h : Grows fl m m') {f : Nat} {i : Fin 512}
    (has : m f i ||| fl = m f i) : m' f i ||| fl = m' f i := by
  rcases h f i with eq | eq
  · rw [eq, has]
  · rw [eq, or_twice]

theorem Widened.refl (fl : Word) (t : List Word) : Widened fl t t :=
  ⟨List.forall₂_same.mpr fun _ _ => .inl rfl, rfl⟩

theorem Widened.trans {fl : Word} {t t' t'' : List Word} (h : Widened fl t t')
    (h' : Widened fl t' t'') : Widened fl t t'' := by
  refine ⟨?_, h.2.trans h'.2⟩
  have first := h.1
  have second := h'.1
  clear h h'
  induction first generalizing t'' with
  | nil => cases second; exact .nil
  | cons head _ ih =>
    cases second with
    | cons head' tail' => exact .cons (grow_trans head head') (ih tail')

theorem trace_ne_nil (m : Mem) (f : Nat) {r : List (Fin 512)} (h : r ≠ []) :
    trace child m f r ≠ [] := by
  cases r with
  | nil => exact absurd rfl h
  | cons i r => simp [trace]

theorem widened_store {m : Mem} {cr3 f g : Nat} {q : List (Fin 512)} {i : Fin 512} {fl : Word}
    (tree : TableTree m cr3) (reach : tableAt child m cr3 q = some f) (hq : q.length ≤ 2)
    (edge : child (m f i) = some g) (flag : FlagWord fl) {p : List (Fin 512)} (hp : p.length = 4) :
    Widened fl (trace child m cr3 p) (trace child (store m f i (m f i ||| fl)) cr3 p) := by
  have kept : child (m f i ||| fl) = some g := (child_or flag (child_eq_some.mp edge).1).trans edge
  by_cases through : q ++ [i] <+: p
  · obtain ⟨r, rfl⟩ := through
    simp only [List.length_append, List.length_singleton] at hp
    have nonempty : trace child m g r ≠ [] := by
      apply trace_ne_nil
      rintro rfl
      simp at hp
      omega
    have walks := trace_store_through tree reach edge kept r (by omega)
    rw [List.append_assoc, List.singleton_append, walks.1, walks.2]
    refine ⟨List.rel_append (List.forall₂_same.mpr fun _ _ => .inl rfl)
      (.cons (.inr rfl) (List.forall₂_same.mpr fun _ _ => .inl rfl)), ?_⟩
    simp [List.getLast?_append, List.getLast?_cons, List.getLast?_eq_some_getLast nonempty]
  · rw [trace_store _ tree reach (by omega) (by omega) through]
    exact Widened.refl fl _

theorem nextTable_present {s : Phys} {f g : Nat} {i : Fin 512} {fl : Word} (flag : FlagWord fl)
    (edge : child (s.mem f i) = some g) (low : g < 2 ^ 36) :
    nextTable s f i fl = (s.write f i (s.mem f i ||| fl), g) := by
  have entry := child_eq_some.mp edge
  have frame : frameOf (s.mem f i ||| fl) = g := by
    rw [frameOf_eq, hwFrame_or flag.frame, entry.2.2, Nat.mod_eq_of_lt low]
  simp [nextTable, entry.1, frame]

/- What OR-ing flags into existing upper-level entries leaves alone. -/
structure LevelSpec (fl : Word) (cr3 : Nat) (s s' : Phys) : Prop where
  stack : s'.freePages = s.freePages
  misses : s'.misses = s.misses
  tables : TableTree s'.mem cr3
  paths : ∀ root p, tableAt child s'.mem root p = tableAt child s.mem root p
  grows : Grows fl s.mem s'.mem
  touched : ∀ f i, child (s.mem f i) = none → s'.mem f i = s.mem f i
  walks : ∀ p : List (Fin 512), p.length = 4 →
    Widened fl (trace child s.mem cr3 p) (trace child s'.mem cr3 p)

theorem LevelSpec.refl {fl : Word} {cr3 : Nat} {s : Phys} (tables : TableTree s.mem cr3) :
    LevelSpec fl cr3 s s :=
  ⟨rfl, rfl, tables, fun _ _ => rfl, fun _ _ => .inl rfl, fun _ _ _ => rfl,
    fun _ _ => Widened.refl fl _⟩

theorem LevelSpec.trans {fl : Word} {cr3 : Nat} {a b c : Phys} (h : LevelSpec fl cr3 a b)
    (h' : LevelSpec fl cr3 b c) : LevelSpec fl cr3 a c where
  stack := h'.stack.trans h.stack
  misses := h'.misses.trans h.misses
  tables := h'.tables
  paths root p := (h'.paths root p).trans (h.paths root p)
  grows := h.grows.trans h'.grows
  touched f i none := by
    have same := h.touched f i none
    exact (h'.touched f i (by rw [same, none])).trans same
  walks p hp := (h.walks p hp).trans (h'.walks p hp)

theorem level_write {s : Phys} {cr3 f g : Nat} {q : List (Fin 512)} {i : Fin 512} {fl : Word}
    (tables : TableTree s.mem cr3) (flag : FlagWord fl)
    (reach : tableAt child s.mem cr3 q = some f) (hq : q.length ≤ 2)
    (edge : child (s.mem f i) = some g) :
    LevelSpec fl cr3 s (s.write f i (s.mem f i ||| fl)) := by
  have kept : child (s.mem f i ||| fl) = child (s.mem f i) :=
    child_or flag (child_eq_some.mp edge).1
  refine ⟨rfl, rfl, tree_store_same_child kept tables, tableAt_store_same_child kept, ?_, ?_, ?_⟩
  · intro h j
    by_cases hit : h = f ∧ j = i
    · exact .inr (by rw [hit.1, hit.2, Phys.write_mem, store_same])
    · exact .inl (store_other hit)
  · intro h j none
    apply store_other
    rintro ⟨rfl, rfl⟩
    rw [edge] at none
    cases none
  · exact fun p hp => widened_store tables reach hq edge flag hp

/- The levels of get_page_table_entry as one loop over the indices. -/
def openPath (s : Phys) (table : Nat) (fl : Word) : List (Fin 512) → Phys × Nat
  | [] => (s, table)
  | i :: p => openPath (nextTable s table i fl).1 (nextTable s table i fl).2 fl p

theorem openPath_append (s : Phys) (f : Nat) (fl : Word) (p p' : List (Fin 512)) :
    openPath s f fl (p ++ p') =
      openPath (openPath s f fl p).1 (openPath s f fl p).2 fl p' := by
  induction p generalizing s f with
  | nil => rfl
  | cons i p ih => exact ih _ _

theorem getPageTableEntry_eq (s : Phys) (pml4t v : Nat) (fl : Word) :
    getPageTableEntry s pml4t v fl =
      ((openPath s (pml4t / 4096) fl ((path v).take 3)).1,
        (openPath s (pml4t / 4096) fl ((path v).take 3)).2, Fin.ofNat 512 (v / 2 ^ 12)) := by
  have two : Fin.ofNat 512 (v % 0x8000000000 / 0x40000000) = Fin.ofNat 512 (v / 2 ^ 30) := by
    simp only [Fin.ext_iff, Fin.ofNat]; omega
  have three : Fin.ofNat 512 (v % 0x8000000000 % 0x40000000 / 0x200000) =
      Fin.ofNat 512 (v / 2 ^ 21) := by
    simp only [Fin.ext_iff, Fin.ofNat]; omega
  have four : Fin.ofNat 512 (v % 0x8000000000 % 0x40000000 % 0x200000 / 0x1000) =
      Fin.ofNat 512 (v / 2 ^ 12) := by
    simp only [Fin.ext_iff, Fin.ofNat]; omega
  simp only [getPageTableEntry, two, three, four]
  rfl

theorem getPageTableEntry_masked (s : Phys) (pml4t v : Nat) (fl : Word) :
    getPageTableEntry s pml4t (v &&& maskRemove16u) fl =
      ((openPath s (pml4t / 4096) fl ((path v).take 3)).1,
        (openPath s (pml4t / 4096) fl ((path v).take 3)).2, Fin.ofNat 512 (v / 2 ^ 12)) := by
  have same := path_mask v
  have index := same
  simp only [path, List.cons.injEq] at index
  rw [getPageTableEntry_eq, same, index.2.2.2.1]

theorem openPath_present {s : Phys} {cr3 f pt : Nat} {q p : List (Fin 512)} {fl : Word}
    (tables : TableTree s.mem cr3) (flag : FlagWord fl)
    (reach : tableAt child s.mem cr3 q = some f) (len : q.length + p.length ≤ 3)
    (upper : tableAt child s.mem f p = some pt) (low : LowWalk (trace child s.mem f p)) :
    ∃ s', openPath s f fl p = (s', pt) ∧ LevelSpec fl cr3 s s' ∧
      ∀ e ∈ trace child s'.mem f p, e ||| fl = e := by
  induction p generalizing s f q with
  | nil =>
    cases Option.some.inj upper
    exact ⟨s, rfl, LevelSpec.refl tables, by simp [trace]⟩
  | cons i p ih =>
    simp only [List.length_cons] at len
    simp only [tableAt, Option.bind_eq_some_iff] at upper
    obtain ⟨g, edge, upper⟩ := upper
    have entry := child_eq_some.mp edge
    simp only [LowWalk, trace, edge, List.mem_cons, forall_eq_or_imp] at low
    have bound : g < 2 ^ 36 := entry.2.2 ▸ low.1 entry.1
    -- the entries below this one are read after its write, and are still the old ones
    have one := level_write tables flag reach (by omega) edge
    have below := store_below (i := i) (s.mem f i ||| fl) tables reach (by omega) (q ++ [i]) p g
      (tableAt_snoc reach edge) (by simp; omega) (.inl (by simp))
    obtain ⟨s', eq, rest, has⟩ := ih one.tables
      ((one.paths _ _).trans (tableAt_snoc reach edge)) (by simp; omega)
      ((one.paths _ _).trans upper) (by rw [Phys.write_mem, below.2]; exact low.2)
    have all := one.trans rest
    have edge' : child (s'.mem f i) = some g := by
      have keep := all.paths f [i]
      simpa [tableAt, edge] using keep
    refine ⟨s', by simp only [openPath, nextTable_present flag edge bound, eq], all, ?_⟩
    simp only [trace, edge', List.mem_cons, forall_eq_or_imp]
    exact ⟨rest.grows.keeps (by rw [Phys.write_mem, store_same, or_twice]), has⟩

theorem leaf_store {m : Mem} {cr3 v pt : Nat} {e : Word} (tree : TableTree m cr3)
    (upper : tableAt child m cr3 ((path v).take 3) = some pt) :
    (∀ w, pageOf w ≠ pageOf v →
      trace child (store m pt (Fin.ofNat 512 (v / 2 ^ 12)) e) cr3 (path w) =
        trace child m cr3 (path w)) ∧
    trace child (store m pt (Fin.ofNat 512 (v / 2 ^ 12)) e) cr3 (path v) =
      trace child m cr3 ((path v).take 3) ++ [e] := by
  have split : path v = (path v).take 3 ++ [Fin.ofNat 512 (v / 2 ^ 12)] := rfl
  constructor
  · intro w other
    apply trace_store e tree upper (by simp [path]) (by simp [path])
    intro inside
    have same : path v = path w := (split ▸ inside).eq_of_length rfl
    exact other ((path_eq_iff w v).mp same.symm)
  · have off := not_below_self ((path v).take 3) (Fin.ofNat 512 (v / 2 ^ 12))
    have top := tableAt_store e tree upper (by simp [path]) (by simp [path]) off
    nth_rewrite 1 [split]
    rw [trace_append (top.trans upper),
      trace_store e tree upper (by simp [path]) (by simp [path]) off]
    simp only [trace, store_same]
    cases child e <;> rfl

/-- Four tables in the frames 1 to 4, each linked by entry 0 of the one before. -/
def chainMem : Mem := fun f i =>
  if i = 0 ∧ 1 ≤ f ∧ f ≤ 3 then BitVec.ofNat 64 (4096 * (f + 1)) ||| 7 else 0

theorem chainMem_child (f : Nat) (i : Fin 512) :
    child (chainMem f i) = if i = 0 ∧ 1 ≤ f ∧ f ≤ 3 then some (f + 1) else none := by
  unfold chainMem
  split
  · rename_i h
    have bound : f ∈ [1, 2, 3] := by simp; omega
    revert bound
    clear h
    revert f
    decide
  · rfl

theorem chainMem_tableAt {root f : Nat} {p : List (Fin 512)}
    (h : tableAt child chainMem root p = some f) :
    p = List.replicate p.length 0 ∧ f = root + p.length := by
  induction p generalizing root with
  | nil =>
    cases Option.some.inj h
    exact ⟨rfl, rfl⟩
  | cons i p ih =>
    rw [tableAt, chainMem_child] at h
    split at h
    · rename_i edge
      have rest := ih h
      exact ⟨by rw [List.length_cons, List.replicate_succ, ← rest.1, edge.1],
        by rw [rest.2, List.length_cons]; omega⟩
    · cases h

theorem chainMem_tree : TableTree chainMem 1 := by
  intro p q f _ _ at_p at_q
  have hp := chainMem_tableAt at_p
  have hq := chainMem_tableAt at_q
  have len : p.length = q.length := by omega
  rw [hp.1, hq.1, len]

end Gapxos
